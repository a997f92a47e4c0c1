import Mathlib.Data.Prod.Lex
import Mathlib.Order.RelClasses
import Mathlib.Order.Lattice
import Mathlib.Data.Nat.Basic
import Mathlib.Order.Basic
import Mathlib.Algebra.Order.Ring.Int

/-! The identifiers of the objects of a universe: a kind, the IDs of the owners down to
the object, and a signed bit, compared field by field in this order. -/

namespace Naja.Universe

/-- `Type`, from 1 on. -/
inductive Kind where
  | DB | Library | Design | Term | TermBit | Net | NetBit | Instance | InstTerm
deriving DecidableEq, Repr

def Kind.value : Kind → Nat
  | .DB => 1
  | .Library => 2
  | .Design => 3
  | .Term => 4
  | .TermBit => 5
  | .Net => 6
  | .NetBit => 7
  | .Instance => 8
  | .InstTerm => 9

/-- The fields a constructor does not give are 0. -/
structure NLID where
  type : Kind
  dbID : Nat := 0
  libraryID : Nat := 0
  designID : Nat := 0
  designObjectID : Nat := 0
  instanceID : Nat := 0
  bit : Int := 0
deriving DecidableEq, Repr

/-- What `std::tie` puts together. -/
abbrev Tie := Nat ×ₗ Nat ×ₗ Nat ×ₗ Nat ×ₗ Nat ×ₗ Nat ×ₗ Int

namespace NLID

def tie (id : NLID) : Tie :=
  toLex (id.type.value, toLex (id.dbID, toLex (id.libraryID, toLex (id.designID, toLex (id.designObjectID,
    toLex (id.instanceID, id.bit))))))

def less (lid rid : NLID) : Bool := decide (lid.tie < rid.tie)
def lessOrEqual (lid rid : NLID) : Bool := decide (lid.tie ≤ rid.tie)
def equal (lid rid : NLID) : Bool := decide (lid.tie = rid.tie)
def notEqual (lid rid : NLID) : Bool := decide (lid.tie ≠ rid.tie)
def greater (lid rid : NLID) : Bool := decide (lid.tie > rid.tie)
def greaterOrEqual (lid rid : NLID) : Bool := decide (lid.tie ≥ rid.tie)

theorem value_injective (k k' : Kind) (same : k.value = k'.value) : k = k' := by
  revert same
  cases k <;> cases k' <;> decide

theorem tie_injective (lid rid : NLID) (same : lid.tie = rid.tie) : lid = rid := by
  cases lid
  cases rid
  simp only [tie, toLex_inj, Prod.mk.injEq] at same
  obtain ⟨type, db, library, design, object, instance_, bit⟩ := same
  rw [value_injective _ _ type, db, library, design, object, instance_, bit]

theorem equal_iff (lid rid : NLID) : lid.equal rid = true ↔ lid = rid := by
  rw [equal, decide_eq_true_eq]
  exact ⟨tie_injective lid rid, congrArg tie⟩

/-- `operator<` is a strict total order, and the other comparisons are the ones that go with it. -/
structure Ordered : Prop where
  irrefl : ∀ id : NLID, id.less id = false
  trans : ∀ a b c : NLID, a.less b = true → b.less c = true → a.less c = true
  total : ∀ a b : NLID, a.equal b = false → a.less b = true ∨ b.less a = true
  equal : ∀ a b : NLID, a.equal b = true ↔ a.less b = false ∧ b.less a = false
  others : ∀ a b : NLID, a.lessOrEqual b = (a.less b || a.equal b) ∧ a.greater b = b.less a ∧
    a.greaterOrEqual b = b.lessOrEqual a ∧ a.notEqual b = !a.equal b

theorem ordered : Ordered where
  irrefl id := decide_eq_false (lt_irrefl _)
  trans a b c first second := decide_eq_true (lt_trans (of_decide_eq_true first) (of_decide_eq_true second))
  total a b other := by
    rcases lt_or_gt_of_ne (of_decide_eq_false other) with below | above
    · exact .inl (decide_eq_true below)
    · exact .inr (decide_eq_true above)
  equal a b := by
    constructor
    · intro same
      have isSame := of_decide_eq_true same
      exact ⟨decide_eq_false (not_lt_of_ge isSame.ge), decide_eq_false (not_lt_of_ge isSame.le)⟩
    · rintro ⟨notBelow, notAbove⟩
      exact decide_eq_true (le_antisymm (not_lt.mp (of_decide_eq_false notAbove)) (not_lt.mp (of_decide_eq_false notBelow)))
  others a b := by
    refine ⟨?_, rfl, rfl, by rw [notEqual, NLID.equal, decide_not]⟩
    rw [lessOrEqual, less, NLID.equal, ← Bool.decide_or]
    exact decide_eq_decide.mpr le_iff_lt_or_eq

end NLID

structure DesignReference where
  dbID : Nat
  libraryID : Nat
  designID : Nat
deriving DecidableEq, Repr

structure DesignObjectReference where
  design : DesignReference
  designObjectID : Nat
deriving DecidableEq, Repr

/-- A reference to a scalar net has bit 0. -/
structure BitNetReference where
  isBusBit : Bool
  dbID : Nat
  libraryID : Nat
  designID : Nat
  designObjectID : Nat
  bit : Int
deriving DecidableEq, Repr

namespace BitNetReference

def scalarNet (design : DesignReference) (designObjectID : Nat) : BitNetReference :=
  ⟨false, design.dbID, design.libraryID, design.designID, designObjectID, 0⟩

def busNetBit (design : DesignReference) (designObjectID : Nat) (bit : Int) : BitNetReference :=
  ⟨true, design.dbID, design.libraryID, design.designID, designObjectID, bit⟩

def getDesignReference (r : BitNetReference) : DesignReference := ⟨r.dbID, r.libraryID, r.designID⟩

/-- `operator==`: the bit on both sides is the one of `lid`. -/
def equal (lid rid : BitNetReference) : Bool :=
  lid.isBusBit == rid.isBusBit && lid.dbID == rid.dbID && lid.libraryID == rid.libraryID &&
    lid.designID == rid.designID && lid.designObjectID == rid.designObjectID && lid.bit == lid.bit

/-- References are equal when all but their bits are. -/
theorem equal_iff (lid rid : BitNetReference) : lid.equal rid = true ↔ { lid with bit := rid.bit } = rid := by
  cases lid
  cases rid
  simp only [equal, beq_self_eq_true, Bool.and_true, Bool.and_eq_true, beq_iff_eq, mk.injEq, and_assoc, and_true]

end BitNetReference

end Naja.Universe
