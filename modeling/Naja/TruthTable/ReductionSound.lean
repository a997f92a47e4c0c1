import Naja.TruthTable.Reduction
import Naja.TruthTable.StorageRoundTrip

/-! A table reduced by constant inputs to all zeros, or to all ones, has that
value on every input that extends the constants. -/

namespace Naja.TruthTable
open BitDependencies
open Naja.Primitives.PinRoles (rowIndex evaluate gateValue)
open SNLTruthTable StorageRoundTrip

/-- Values of the inputs that agree with the known ones. -/
def Extends (known : List (Option Bool)) (values : List Bool) : Prop :=
  List.Forall₂ (fun constant value => ∀ b, constant = some b → b = value) known values

/-- The known inputs with their positions, from `start` on. -/
def indexedFrom (start : Nat) : List (Option Bool) → ConstantInputs
  | [] => []
  | none :: rest => indexedFrom (start + 1) rest
  | some value :: rest => (start, value) :: indexedFrom (start + 1) rest

theorem testBit_rowIndex (rows : List Bool) (j : Nat) : (rowIndex rows).testBit j = rows.getD j false := by
  induction rows generalizing j with
  | nil => simp [rowIndex]
  | cons b rest ih =>
      unfold rowIndex at ih ⊢
      rw [List.foldr_cons]
      cases j with
      | zero => cases b <;> simp [Nat.testBit_zero, Nat.add_mod]
      | succ j =>
          have half (r : Nat) : (b.toNat + 2 * r) / 2 = r := by
            have small := b.toNat_lt
            omega
          rw [Nat.testBit_succ, half, ih]
          rfl

/-! ### Weaving the constants in -/

/-- The woven inputs by their known values; the unknown ones take the bits of `j` in turn. -/
def weaveKnown : List (Option Bool) → Nat → List Bool
  | [], _ => []
  | some value :: rest, j => value :: weaveKnown rest j
  | none :: rest, j => decide (j % 2 = 1) :: weaveKnown rest (j / 2)

theorem weaveInputs_eq (idxConsts : ConstantInputs) (known : Nat → Option Bool) (bits : List Nat) (j remPos : Nat)
    (found : ∀ bit ∈ bits, (idxConsts.find? (fun c => c.1 == bit)).map Prod.snd = known bit) :
    weaveInputs idxConsts j bits remPos = weaveKnown (bits.map known) (j / 2 ^ remPos) := by
  induction bits generalizing remPos with
  | nil => rfl
  | cons bit rest ih =>
      have here := found bit List.mem_cons_self
      have later (pos : Nat) := ih pos (fun b member => found b (List.mem_cons_of_mem bit member))
      unfold weaveInputs
      rw [List.map_cons]
      split
      · next c present =>
          rw [present, Option.map_some] at here
          rw [← here, weaveKnown, later]
      · next absent =>
          rw [absent, Option.map_none] at here
          rw [← here, weaveKnown, later, Nat.testBit_eq_decide_div_mod_eq, Nat.pow_succ, Nat.div_div_eq_div_mul]

/-- Every extension of the known values is woven from some `j`. -/
theorem exists_weave (known : List (Option Bool)) (values : List Bool) (extends_ : Extends known values) :
    ∃ j < 2 ^ known.countP Option.isNone, weaveKnown known j = values := by
  induction extends_ with
  | nil => exact ⟨0, by simp, rfl⟩
  | @cons constant value known values agrees _ ih =>
      obtain ⟨j, bound, woven⟩ := ih
      cases constant with
      | some b =>
          refine ⟨j, by simpa using bound, ?_⟩
          rw [weaveKnown, woven, agrees b rfl]
      | none =>
          refine ⟨2 * j + value.toNat, ?_, ?_⟩
          · have small := value.toNat_lt
            rw [List.countP_cons_of_pos rfl, Nat.pow_succ]
            omega
          · have half : (2 * j + value.toNat) / 2 = j := by
              have small := value.toNat_lt
              omega
            rw [weaveKnown, half, woven]
            congr 1
            cases value <;> simp [Nat.add_mod]

theorem find_indexedFrom (start bit : Nat) (known : List (Option Bool)) :
    ((indexedFrom start known).find? (fun c => c.1 == bit)).map Prod.snd =
      if start ≤ bit then (known[bit - start]?).join else none := by
  induction known generalizing start with
  | nil =>
      rw [indexedFrom, List.find?_nil]
      split <;> simp
  | cons constant rest ih =>
      by_cases here : bit = start
      · subst here
        rw [if_pos (Nat.le_refl bit), Nat.sub_self, List.getElem?_cons_zero]
        cases constant with
        | some value => simp [indexedFrom]
        | none =>
            rw [indexedFrom, ih, if_neg (by omega)]
            rfl
      · have skip : ((indexedFrom start (constant :: rest)).find? (fun c => c.1 == bit)) =
            (indexedFrom (start + 1) rest).find? (fun c => c.1 == bit) := by
          cases constant with
          | some value => simp [indexedFrom, Ne.symm here]
          | none => rfl
        rw [skip, ih]
        by_cases after : start ≤ bit
        · rw [if_pos after, if_pos (by omega), show bit - start = bit - (start + 1) + 1 by omega,
            List.getElem?_cons_succ]
        · rw [if_neg after, if_neg (by omega)]

theorem snd_indexedFrom (start : Nat) (known : List (Option Bool)) :
    (indexedFrom start known).map Prod.snd = known.filterMap id := by
  induction known generalizing start with
  | nil => rfl
  | cons constant rest ih =>
      cases constant with
      | some value => simp [indexedFrom, ih]
      | none => simp [indexedFrom, ih]

theorem countP_isNone (known : List (Option Bool)) :
    known.countP Option.isNone + (known.filterMap id).length = known.length := by
  induction known with
  | nil => rfl
  | cons constant rest ih =>
      cases constant with
      | some value =>
          simp only [List.filterMap_cons_some (f := id) rfl, List.length_cons]
          rw [List.countP_cons_of_neg (by simp)]
          omega
      | none =>
          rw [List.countP_cons_of_pos rfl, List.filterMap_cons_none rfl, List.length_cons]
          omega

theorem map_range_join (known : List (Option Bool)) :
    (List.range known.length).map (fun bit => (known[bit]?).join) = known := by
  apply List.ext_getElem (by simp)
  intro i inside inside'
  simp [inside']

/-! ### Tables of one value -/

theorem getLsbD_rowMask (rows i : Nat) (inside : i < 64) : (rowMask rows).getLsbD i = decide (i < rows) := by
  unfold rowMask
  split
  · rw [BitVec.getLsbD_ofNat, Nat.testBit_two_pow_sub_one]
    simp [inside]
  · next large =>
      rw [BitVec.getLsbD_allOnes]
      simp [inside, show i < rows by omega]

theorem mask_all0 (value : BitDependencies.Word) (rows : Nat) (short : rows ≤ 64)
    (zero : value &&& rowMask rows = 0) (i : Nat) (inside : i < rows) : value.getLsbD i = false := by
  have bit := congrArg (fun word : BitDependencies.Word => word.getLsbD i) zero
  simp only [BitVec.getLsbD_and, getLsbD_rowMask rows i (by omega), inside, decide_true, Bool.and_true] at bit
  rw [bit]
  exact BitVec.getLsbD_zero

theorem mask_all1 (value : BitDependencies.Word) (rows : Nat) (short : rows ≤ 64)
    (full : value &&& rowMask rows = rowMask rows) (i : Nat) (inside : i < rows) : value.getLsbD i = true := by
  have bit := congrArg (fun word : BitDependencies.Word => word.getLsbD i) full
  simpa only [BitVec.getLsbD_and, getLsbD_rowMask rows i (by omega), inside, decide_true, Bool.and_true]
    using bit

/-- A table given by its rows. -/
structure Explicit (t : SNLTruthTable) : Prop where
  rows : t.bits.nbits = 2 ^ t.size
  type : t.genericType = .NONE

/-- The value of every row of an explicit table that is all zeros or all ones. -/
theorem bit_of_tableOutcome (t : SNLTruthTable) (rows : t.bits.nbits = 2 ^ t.size) (value : Bool)
    (found : tableOutcome t = some value) (i : Nat)
    (inside : i < 2 ^ t.size) : t.bits.bit i = value := by
  have positive : t.bits.nbits ≠ 0 := by
    rw [rows]
    exact Nat.ne_of_gt (Nat.two_pow_pos _)
  unfold tableOutcome at found
  have maskBit (small : t.size ≤ 6) : t.bits.bit i = (maskValue t.bits).getLsbD i ∧ 2 ^ t.size ≤ 64 := by
    have short := (pow_le_64 t.size).mpr small
    refine ⟨?_, short⟩
    have kind := t.bits.kind
    unfold NLBitVecDynamic.bit maskValue
    cases data : t.bits.data with
    | mask word => rfl
    | vector bits =>
        rw [data] at kind
        simp [BitData.isMask, rows] at kind
        omega
  split at found
  · next zeros =>
      rw [← Option.some.inj found]
      unfold all0 at zeros
      rw [if_neg positive] at zeros
      split at zeros
      · next small =>
          rw [(maskBit small).1]
          exact mask_all0 _ _ (maskBit small).2 (by simpa using zeros) i inside
      · have each := List.all_eq_true.mp zeros i (List.mem_range.mpr (by rw [rows]; exact inside))
        simpa using each
  · split at found
    · next ones =>
        rw [← Option.some.inj found]
        unfold all1 at ones
        rw [if_neg positive] at ones
        split at ones
        · next small =>
            rw [(maskBit small).1]
            exact mask_all1 _ _ (maskBit small).2 (by simpa using ones) i inside
        · exact List.all_eq_true.mp ones i (List.mem_range.mpr (by rw [rows]; exact inside))
    · contradiction

theorem tableOutcome_of_noRows (t : SNLTruthTable) (empty : t.bits.nbits = 0) : tableOutcome t = none := by
  simp [tableOutcome, all0, all1, empty]

/-- Rows of a reduced explicit table that is all zeros or all ones. -/
theorem reduceRows_spec (t r : SNLTruthTable) (idxConsts : ConstantInputs) (newSize : Nat) (value : Bool)
    (reduced : reduceRows t idxConsts newSize = .ok r) (found : tableOutcome r = some value) (j : Nat)
    (inside : j < 2 ^ newSize) : reducedRow t idxConsts j = value := by
  simp only [reduceRows, bind, Except.bind, pure, Except.pure] at reduced
  have rowAt (small : newSize < 32) :
      ((List.range (oneShiftLeft newSize)).map (reducedRow t idxConsts)).getD j false =
        reducedRow t idxConsts j := by
    rw [oneShiftLeft_eq newSize small]
    simp [inside]
  have same (out : SNLTruthTable)
      (chosen : (if out.all0 then Logic0 else if out.all1 then Logic1 else out) = r) :
      tableOutcome out = some value := by
    rw [← chosen] at found
    unfold tableOutcome
    by_cases zeros : out.all0 = true
    · rw [if_pos zeros] at found ⊢
      rw [← found]
      decide
    · rw [if_neg zeros] at found ⊢
      by_cases ones : out.all1 = true
      · rw [if_pos ones] at found ⊢
        rw [← found]
        decide
      · rw [if_neg ones] at found
        rw [if_neg ones]
        rw [tableOutcome, if_neg zeros, if_neg ones] at found
        exact found
  by_cases large : 6 < newSize
  · rw [if_pos large] at reduced
    split at reduced
    · contradiction
    next out built =>
      obtain ⟨long, -, -, shape⟩ := ofVector_spec _ _ _ _ built
      have small := small_of_oneShiftLeft newSize (by omega)
      have value' := bit_of_tableOutcome out (by rw [shape]; exact oneShiftLeft_eq newSize small) value
        (same out (Except.ok.inj reduced)) j (by rw [shape]; exact inside)
      rw [shape] at value'
      rw [← rowAt small, ← value']
      rfl
  · rw [if_neg large] at reduced
    split at reduced
    · contradiction
    next out built =>
      obtain ⟨short, -, -, shape⟩ := ofMask_spec _ _ _ _ built
      have small : newSize < 32 := by omega
      have value' := bit_of_tableOutcome out (by rw [shape]; exact oneShiftLeft_eq newSize small) value
        (same out (Except.ok.inj reduced)) j (by rw [shape]; exact inside)
      rw [shape] at value'
      have word := (pow_le_64 newSize).mpr (by omega)
      rw [← rowAt small, ← value', ← testBit_rowIndex]
      simp only [NLBitVecDynamic.bit, maskOfRows, BitVec.getLsbD_ofNat]
      simp [show j < 64 by omega]

/-! ### Gates -/

theorem mem_of_known (known : List (Option Bool)) (values : List Bool) (extends_ : Extends known values)
    (b : Bool) (member : b ∈ known.filterMap id) : b ∈ values := by
  induction extends_ with
  | nil => contradiction
  | @cons constant value known values agrees _ ih =>
      cases constant with
      | none => exact List.mem_cons_of_mem _ (ih (by simpa using member))
      | some c =>
          rw [List.filterMap_cons_some (f := id) rfl, List.mem_cons] at member
          rcases member with rfl | later
          · rw [agrees b rfl]
            exact List.mem_cons_self
          · exact List.mem_cons_of_mem _ (ih later)

theorem eq_of_allKnown (known : List (Option Bool)) (values : List Bool) (extends_ : Extends known values)
    (full : known.length ≤ (known.filterMap id).length) : values = known.filterMap id := by
  induction extends_ with
  | nil => rfl
  | @cons constant value known values agrees _ ih =>
      have bound := List.length_filterMap_le id known
      cases constant with
      | none =>
          rw [List.filterMap_cons_none rfl, List.length_cons] at full
          omega
      | some c =>
          rw [List.filterMap_cons_some (f := id) rfl, List.length_cons, List.length_cons] at full
          rw [List.filterMap_cons_some (f := id) rfl, ← ih (by omega), agrees c rfl]

theorem foldl_xor (values : List Bool) (start : Bool) :
    values.foldl xor start = (start ^^ (values.countP id % 2 != 0)) := by
  induction values generalizing start with
  | nil => simp
  | cons b rest ih =>
      rw [List.foldl_cons, ih]
      cases b with
      | false => simp
      | true =>
          rw [List.countP_cons_of_pos rfl]
          rcases Nat.mod_two_eq_zero_or_one (rest.countP id) with even | odd
          · simp [Nat.add_mod, even]
          · simp [Nat.add_mod, odd]

theorem ofGeneric_noRows (size : Nat) (type : GenericType) (dependencies : List BitDependencies.Word)
    (addressSize depth : Nat) (t : SNLTruthTable)
    (built : ofGeneric size type dependencies addressSize depth = .ok t) :
    t.bits.nbits = 0 ∧ t.genericType = type ∧ t.size = size % 2 ^ 32 := by
  simp only [ofGeneric, bind, Except.bind, pure, Except.pure] at built
  split at built
  · contradiction
  · split at built
    · contradiction
    · rw [← Except.ok.inj built]
      exact ⟨rfl, rfl, rfl⟩

theorem smallerGate_spec (newSize : Nat) (type : GenericType) (inverted value : Bool) (r : SNLTruthTable)
    (built : smallerGate newSize type inverted = .ok r) (found : tableOutcome r = some value) :
    newSize = 0 ∧ value = inverted := by
  unfold smallerGate at built
  split at built
  · next zero =>
      refine ⟨zero, ?_⟩
      rw [← Except.ok.inj built] at found
      cases inverted
      · exact (Option.some.inj found).symm
      · exact (Option.some.inj found).symm
  · split at built
    · rw [← Except.ok.inj built] at found
      have none0 : tableOutcome Buf = none := by decide
      have none1 : tableOutcome SNLTruthTable.Inv = none := by decide
      cases inverted
      · exact absurd (none0.symm.trans found) nofun
      · exact absurd (none1.symm.trans found) nofun
    · rw [tableOutcome_of_noRows r (ofGeneric_noRows _ _ _ _ _ _ built).1] at found
      contradiction

/-- A gate over any number of inputs, with no rows of its own. -/
structure IsGate (t : SNLTruthTable) : Prop where
  type : t.genericType ∈ [GenericType.AND, .NAND, .OR, .NOR, .XOR, .XNOR]
  noRows : t.bits.nbits = 0

/-- Only the values of the constants matter for a gate, not their indexes. -/
theorem gate_reduction (t r : SNLTruthTable) (gate : IsGate t) (idxConsts : ConstantInputs)
    (known : List (Option Bool)) (values : List Bool) (value : Bool) (extends_ : Extends known values)
    (constants : idxConsts.map Prod.snd = known.filterMap id) (size : t.size = known.length)
    (reduced : t.getReducedWithConstants idxConsts = .ok r) (found : tableOutcome r = some value) :
    evaluate t values = some value := by
  have unchanged : r ≠ t := by
    intro same
    rw [same, tableOutcome_of_noRows t gate.noRows] at found
    contradiction
  have count : idxConsts.length = (known.filterMap id).length := by
    rw [← constants, List.length_map]
  have all (empty : t.size - idxConsts.length = 0) : values = known.filterMap id :=
    eq_of_allKnown known values extends_ (by omega)
  have inValues (b : Bool) (c : Nat × Bool) (member : c ∈ idxConsts) (same : c.2 = b) : b ∈ values := by
    apply mem_of_known known values extends_
    rw [← constants, ← same]
    exact List.mem_map_of_mem member
  have parity : idxConsts.countP Prod.snd = (known.filterMap id).countP id := by
    rw [← constants, List.countP_map]
    rfl
  have allTrue (noFalse : idxConsts.any (fun c => !c.2) = false) (empty : t.size - idxConsts.length = 0) :
      values.all id = true := by
    rw [all empty, ← constants, List.all_map]
    simpa using noFalse
  have noneTrue (noTrue : idxConsts.any Prod.snd = false) (empty : t.size - idxConsts.length = 0) :
      values.any id = false := by
    rw [all empty, ← constants, List.any_map]
    exact noTrue
  have someFalse (anyFalse : idxConsts.any (fun c => !c.2) = true) : values.all id = false := by
    obtain ⟨c, member, isFalse⟩ := List.any_eq_true.mp anyFalse
    exact List.all_eq_false.mpr ⟨false, inValues false c member (by simpa using isFalse), by simp⟩
  have someTrue (anyTrue : idxConsts.any Prod.snd = true) : values.any id = true := by
    obtain ⟨c, member, isTrue⟩ := List.any_eq_true.mp anyTrue
    exact List.any_eq_true.mpr ⟨true, inValues true c member isTrue, rfl⟩
  have logic0 : tableOutcome Logic0 = some false := by decide
  have logic1 : tableOutcome Logic1 = some true := by decide
  unfold getReducedWithConstants at reduced
  split at reduced
  · contradiction
  split at reduced
  · exact absurd (Except.ok.inj reduced).symm unchanged
  split at reduced
  · exact absurd (Except.ok.inj reduced).symm unchanged
  split at reduced
  · contradiction
  have type := gate.type
  simp only [List.mem_cons, List.not_mem_nil, or_false] at type
  simp only at reduced
  unfold evaluate
  rcases type with type | type | type | type | type | type
  · rw [type] at reduced ⊢
    simp only [gateValue] at reduced ⊢
    split at reduced
    · next anyFalse =>
        rw [← Except.ok.inj reduced, logic0] at found
        rw [someFalse anyFalse, found]
    · next noFalse =>
        split at reduced
        · next empty =>
            rw [← Except.ok.inj reduced, logic1] at found
            rw [allTrue (by simpa using noFalse) empty, found]
        · next some_ => exact absurd (smallerGate_spec _ _ _ _ _ reduced found).1 some_
  · rw [type] at reduced ⊢
    simp only [gateValue] at reduced ⊢
    split at reduced
    · next anyFalse =>
        rw [← Except.ok.inj reduced, logic1] at found
        rw [someFalse anyFalse, ← found]
        rfl
    · next noFalse =>
        split at reduced
        · next empty =>
            rw [← Except.ok.inj reduced, logic0] at found
            rw [allTrue (by simpa using noFalse) empty, ← found]
            rfl
        · next some_ => exact absurd (smallerGate_spec _ _ _ _ _ reduced found).1 some_
  · rw [type] at reduced ⊢
    simp only [gateValue] at reduced ⊢
    split at reduced
    · next anyTrue =>
        rw [← Except.ok.inj reduced, logic1] at found
        rw [someTrue anyTrue, found]
    · next noTrue =>
        obtain ⟨empty, same⟩ := smallerGate_spec _ _ _ _ _ reduced found
        rw [noneTrue (by simpa using noTrue) empty, same]
  · rw [type] at reduced ⊢
    simp only [gateValue] at reduced ⊢
    split at reduced
    · next anyTrue =>
        rw [← Except.ok.inj reduced, logic0] at found
        rw [someTrue anyTrue, ← found]
        rfl
    · next noTrue =>
        obtain ⟨empty, same⟩ := smallerGate_spec _ _ _ _ _ reduced found
        rw [noneTrue (by simpa using noTrue) empty, same]
        rfl
  · rw [type] at reduced ⊢
    simp only [gateValue] at reduced ⊢
    obtain ⟨empty, same⟩ := smallerGate_spec _ _ _ _ _ reduced found
    rw [foldl_xor, all empty, same, parity]
    simp
  · rw [type] at reduced ⊢
    simp only [gateValue] at reduced ⊢
    obtain ⟨empty, same⟩ := smallerGate_spec _ _ _ _ _ reduced found
    rw [foldl_xor, all empty, same, parity]
    simp

/-! ### Rows -/

theorem rowIndex_lt (values : List Bool) : rowIndex values < 2 ^ values.length := by
  induction values with
  | nil => simp [rowIndex]
  | cons b rest ih =>
      unfold rowIndex at ih ⊢
      have small := b.toNat_lt
      rw [List.foldr_cons, List.length_cons, Nat.pow_succ]
      omega

theorem explicit_reduction (t r : SNLTruthTable) (explicit : Explicit t) (known : List (Option Bool))
    (values : List Bool) (value : Bool) (extends_ : Extends known values) (size : t.size = known.length)
    (reduced : t.getReducedWithConstants (indexedFrom 0 known) = .ok r)
    (found : tableOutcome r = some value) : t.bits.bit (rowIndex values) = value := by
  have length : known.length = values.length := extends_.length_eq
  have unchanged (same : t = r) : t.bits.bit (rowIndex values) = value := by
    rw [← same] at found
    apply bit_of_tableOutcome t explicit.rows value found
    rw [size, length]
    exact rowIndex_lt values
  unfold getReducedWithConstants at reduced
  split at reduced
  · contradiction
  split at reduced
  · exact unchanged (Except.ok.inj reduced)
  split at reduced
  · exact unchanged (Except.ok.inj reduced)
  split at reduced
  · contradiction
  simp only [explicit.type] at reduced
  obtain ⟨j, bound, woven⟩ := exists_weave known values extends_
  have total := countP_isNone known
  have constants := congrArg List.length (snd_indexedFrom 0 known)
  rw [List.length_map] at constants
  have row := reduceRows_spec t r _ _ value reduced found j
    (by rw [show t.size - (indexedFrom 0 known).length = known.countP Option.isNone by omega]; exact bound)
  have weave := weaveInputs_eq (indexedFrom 0 known) (fun bit => (known[bit]?).join) (List.range t.size) j 0
    (by
      intro bit _
      rw [find_indexedFrom, if_pos (Nat.zero_le _), Nat.sub_zero])
  unfold reducedRow at row
  rwa [weave, size, map_range_join, Nat.pow_zero, Nat.div_one, woven] at row

/-! ### Through the pins of an instance -/

theorem withLocalDependencies_spec (t t' : SNLTruthTable) (built : withLocalDependencies t = .ok t') :
    (Explicit t → Explicit t' ∧ t'.size = t.size ∧ ∀ i < 2 ^ t.size, t'.bits.bit i = t.bits.bit i) ∧
      (IsGate t → t.size < 2 ^ 32 → IsGate t' ∧ t'.size = t.size ∧ t'.genericType = t.genericType) := by
  unfold withLocalDependencies at built
  simp only at built
  by_cases sparse : 0 < t.size ∧ isSimple t.dependencies = false
  · rw [if_pos sparse] at built
    refine ⟨?_, ?_⟩
    · intro explicit
      have type := explicit.type
      rw [type, if_neg nofun, if_neg nofun, if_neg (by simp [isGeneric, type])] at built
      have kind := t.bits.kind
      by_cases small : t.size ≤ 6
      · rw [if_pos small] at built
        obtain ⟨short, -, -, shape⟩ := ofMask_spec _ _ _ _ built
        rw [shape]
        refine ⟨⟨oneShiftLeft_eq t.size (by omega), rfl⟩, rfl, ?_⟩
        intro i inside
        have word := (pow_le_64 t.size).mpr small
        unfold NLBitVecDynamic.bit maskValue
        cases data : t.bits.data with
        | mask value => rfl
        | vector bits =>
            rw [data] at kind
            simp [BitData.isMask, explicit.rows] at kind
            omega
      · rw [if_neg small] at built
        obtain ⟨long, -, -, shape⟩ := ofVector_spec _ _ _ _ built
        rw [shape]
        refine ⟨⟨oneShiftLeft_eq t.size (small_of_oneShiftLeft t.size (by omega)), rfl⟩, rfl, ?_⟩
        intro i inside
        simp [NLBitVecDynamic.bit, explicit.rows, inside]
    · intro gate small
      have type := gate.type
      have select : t.genericType ≠ .VECTOR_SELECT := by
        intro same
        rw [same] at type
        exact absurd type (by decide)
      have update : t.genericType ≠ .VECTOR_UPDATE := by
        intro same
        rw [same] at type
        exact absurd type (by decide)
      have generic : t.isGeneric = true := by
        unfold isGeneric
        rw [bne_iff_ne]
        intro same
        rw [same] at type
        exact absurd type (by decide)
      rw [if_neg select, if_neg update, if_pos generic] at built
      obtain ⟨noRows, sameType, sameSize⟩ := ofGeneric_noRows _ _ _ _ _ _ built
      rw [Nat.mod_eq_of_lt small] at sameSize
      exact ⟨⟨sameType ▸ type, noRows⟩, sameSize, sameType⟩
  · rw [if_neg sparse] at built
    rw [← Except.ok.inj built]
    exact ⟨fun explicit => ⟨explicit, rfl, fun _ _ => rfl⟩, fun gate _ => ⟨gate, rfl, rfl⟩⟩

/-- The constants of the pins with these IDs. -/
def constantPins (ids : List Nat) (known : List (Option Bool)) : List (Nat × Bool) :=
  (ids.zip known).filterMap (fun (id, constant) => constant.map (fun value => (id, value)))

theorem termIndex_of_nodup (ids : List Nat) (distinct : ids.Nodup) (i id : Nat) (here : ids[i]? = some id) :
    termIndex ids id = i := by
  have inside := (List.getElem?_eq_some_iff.mp here).1
  have only : (List.range ids.length).filter (fun j => ids[j]? == some id) = [i] := by
    have unique (j : Nat) (inRange : j ∈ List.range ids.length) : (ids[j]? == some id) = (j == i) := by
      rw [Bool.eq_iff_iff, beq_iff_eq, beq_iff_eq, ← here]
      exact List.getElem?_inj (List.mem_range.mp inRange) distinct
    rw [List.filter_congr unique, List.filter_beq, List.count_eq_one_of_mem List.nodup_range
      (List.mem_range.mpr inside)]
    rfl
  unfold termIndex
  rw [only]
  rfl

theorem map_constantPins (f : Nat → Nat) (start : Nat) (ids : List Nat) (known : List (Option Bool))
    (length : ids.length = known.length) (index : ∀ i id, ids[i]? = some id → f id = start + i) :
    (constantPins ids known).map (fun c => (f c.1, c.2)) = indexedFrom start known := by
  induction known generalizing start ids with
  | nil => cases ids <;> rfl
  | cons constant rest ih =>
      cases ids with
      | nil => contradiction
      | cons id ids =>
          have here := index 0 id rfl
          have later := ih (start + 1) ids (by simpa using length) (by
            intro i id' found
            rw [index (i + 1) id' found]
            omega)
          cases constant with
          | none =>
              rw [indexedFrom, ← later]
              rfl
          | some value =>
              rw [indexedFrom, ← later, ← Nat.add_zero start, ← here]
              rfl

theorem snd_constantPins (ids : List Nat) (known : List (Option Bool)) (length : ids.length = known.length) :
    (constantPins ids known).map Prod.snd = known.filterMap id := by
  induction known generalizing ids with
  | nil => cases ids <;> rfl
  | cons constant rest ih =>
      cases ids with
      | nil => contradiction
      | cons pin ids =>
          have later := ih ids (by simpa using length)
          cases constant with
          | none =>
              rw [List.filterMap_cons_none rfl, ← later]
              rfl
          | some value =>
              rw [List.filterMap_cons_some (f := id) rfl, ← later]
              rfl

/-- The reduction is right for gates, and for tables given by rows when the pins have distinct IDs. -/
theorem reduceTruthTable_sound (ids : List Nat) (t r : SNLTruthTable) (known : List (Option Bool))
    (values : List Bool) (value : Bool)
    (kind : IsGate t ∧ t.size < 2 ^ 32 ∨ Explicit t ∧ ids.Nodup) (length : ids.length = known.length)
    (size : t.size = known.length) (extends_ : Extends known values)
    (reduced : reduceTruthTable ids t (constantPins ids known) = .ok r)
    (found : tableOutcome r = some value) : evaluate t values = some value := by
  simp only [reduceTruthTable, bind, Except.bind] at reduced
  split at reduced
  · contradiction
  next t' built =>
    obtain ⟨ofRows, ofGate⟩ := withLocalDependencies_spec t t' built
    rcases kind with ⟨gate, small⟩ | ⟨explicit, distinct⟩
    · obtain ⟨gate', size', type'⟩ := ofGate gate small
      have same := gate_reduction t' r gate' _ known values value extends_
        (by rw [List.map_map]; exact snd_constantPins ids known length) (by omega) reduced found
      have type := gate.type
      simp only [List.mem_cons, List.not_mem_nil, or_false] at type
      unfold evaluate at same ⊢
      rw [type'] at same
      rcases type with type | type | type | type | type | type <;>
      · rw [type] at same ⊢
        exact same
    · obtain ⟨explicit', size', bits⟩ := ofRows explicit
      have indexes := map_constantPins (termIndex ids) 0 ids known length
        (fun i id here => by rw [termIndex_of_nodup ids distinct i id here, Nat.zero_add])
      rw [indexes] at reduced
      have row := explicit_reduction t' r explicit' known values value extends_ (by omega) reduced found
      have bound : rowIndex values < 2 ^ t.size := by
        rw [size, extends_.length_eq]
        exact rowIndex_lt values
      rw [bits _ bound] at row
      unfold evaluate
      rw [explicit.type, row]

end Naja.TruthTable
