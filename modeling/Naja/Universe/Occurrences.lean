import Naja.Universe.NLID
import Mathlib.Data.List.Chain

/-! The order of paths and occurrences. A path is a chain of instances from its tail to its
head; two paths of one length are compared level by level, and an occurrence by its
object before its path. -/

namespace Naja.Universe

/-- An instance of a design; its identifier stands for it. -/
structure SNLInstance where
  design : DesignReference
  id : Nat
deriving DecidableEq, Repr

namespace SNLInstance
variable (instance_ : SNLInstance)

def getNLID : NLID :=
  { type := .Instance, dbID := instance_.design.dbID, libraryID := instance_.design.libraryID,
    designID := instance_.design.designID, instanceID := instance_.id }

theorem getNLID_injective (a b : SNLInstance) (same : a.getNLID = b.getNLID) : a = b := by
  obtain ⟨⟨dbID, libraryID, designID⟩, id⟩ := a
  obtain ⟨⟨dbID', libraryID', designID'⟩, id'⟩ := b
  simp only [getNLID, NLID.mk.injEq] at same
  obtain ⟨-, rfl, rfl, rfl, -, rfl, -⟩ := same
  rfl

end SNLInstance

/-- The shared path of a path, from the tail instance through the shared paths of the heads. Instances keep their
shared paths by the shared path of the head, so that one chain has one shared path. The empty chain is the
null pointer. -/
@[ext]
structure SNLPath (getModel : SNLInstance → DesignReference) where
  sharedPath : List SNLInstance
  linked : sharedPath.IsChain (fun tail head => getModel head = tail.design)

/-- The loop from the tails to the heads. -/
def tailsLess : List SNLInstance → List SNLInstance → Bool
  | thisTail :: thisHead, otherTail :: otherHead =>
      if thisTail.getNLID.less otherTail.getNLID then true else tailsLess thisHead otherHead
  | _, _ => false

section paths
variable {getModel : SNLInstance → DesignReference}

namespace SNLPath

def size (p : SNLPath getModel) : Nat := p.sharedPath.length

def equal (p q : SNLPath getModel) : Bool := decide (p.sharedPath = q.sharedPath)

def less (p q : SNLPath getModel) : Bool :=
  if p.sharedPath ≠ [] then
    if q.sharedPath ≠ [] then
      if p.size ≠ q.size then decide (p.size < q.size) else tailsLess p.sharedPath q.sharedPath
    else false
  else decide (q.sharedPath ≠ [])

end SNLPath

/-- An occurrence of an object, which may be null; objects are compared by their identifiers. -/
structure SNLOccurrence (getModel : SNLInstance → DesignReference) where
  path : SNLPath getModel
  object : Option NLID

namespace SNLOccurrence

def equal (a b : SNLOccurrence getModel) : Bool :=
  match a.object, b.object with
  | none, other => other.isNone
  | some _, none => false
  | some object, some other => object.equal other && a.path.equal b.path

def less (a b : SNLOccurrence getModel) : Bool :=
  match a.object, b.object with
  | none, other => other.isSome
  | some _, none => false
  | some object, some other => object.less other || object.equal other && a.path.less b.path

end SNLOccurrence
end paths

/-! ### What is claimed -/

/-- Exactly one of the three comparisons of `a` and `b` holds, and the order goes on from `b` to `c`. -/
structure Compares {α : Type} (less equal : α → α → Bool) (a b c : α) : Prop where
  one : [less a b, less b a, equal a b].count true = 1
  trans : less a b = true → less b c = true → less a c = true

/-- At some level the instance of the first chain is before that of the second. -/
def Below (p q : List SNLInstance) : Prop :=
  ∃ (level : Nat) (a b : SNLInstance), p[level]? = some a ∧ q[level]? = some b ∧ a.getNLID.less b.getNLID = true

/-- Two paths of one length that are ordered one way at one level and the other way at another. -/
def Opposed {getModel : SNLInstance → DesignReference} (p q : SNLPath getModel) : Prop :=
  p.size = q.size ∧ Below p.sharedPath q.sharedPath ∧ Below q.sharedPath p.sharedPath

/-! ### The loop -/

theorem tailsLess_iff (p q : List SNLInstance) : tailsLess p q = true ↔ Below p q := by
  induction p generalizing q with
  | nil => exact iff_of_false nofun (fun ⟨_, _, _, here, _⟩ => nomatch here)
  | cons thisTail thisHead ih =>
      cases q with
      | nil => exact iff_of_false nofun (fun ⟨_, _, _, _, there, _⟩ => nomatch there)
      | cons otherTail otherHead =>
          rw [tailsLess]
          by_cases first : thisTail.getNLID.less otherTail.getNLID = true
          · rw [if_pos first]
            exact iff_of_true rfl ⟨0, thisTail, otherTail, rfl, rfl, first⟩
          · rw [if_neg first, ih]
            constructor
            · rintro ⟨level, a, b, here, there, before⟩
              exact ⟨level + 1, a, b, here, there, before⟩
            · rintro ⟨level, a, b, here, there, before⟩
              cases level with
              | zero =>
                  cases here
                  cases there
                  exact absurd before first
              | succ level => exact ⟨level, a, b, here, there, before⟩

theorem Below.of_ne (p q : List SNLInstance) (length : p.length = q.length) (other : p ≠ q) : Below p q ∨ Below q p := by
  by_contra nowhere
  refine other (List.ext_getElem? (fun level => ?_))
  rcases Nat.lt_or_ge level p.length with inside | outside
  · have here := List.getElem?_eq_getElem inside
    have there := List.getElem?_eq_getElem (length ▸ inside : level < q.length)
    rw [here, there]
    by_contra differ
    have distinct : p[level].getNLID.equal q[level].getNLID = false := by
      rw [Bool.eq_false_iff]
      intro same
      exact differ (congrArg some (SNLInstance.getNLID_injective _ _ ((NLID.equal_iff _ _).mp same)))
    rcases NLID.ordered.total _ _ distinct with before | after
    · exact nowhere (.inl ⟨level, _, _, here, there, before⟩)
    · exact nowhere (.inr ⟨level, _, _, there, here, after⟩)
  · rw [List.getElem?_eq_none outside, List.getElem?_eq_none (length ▸ outside)]

theorem Below.irrefl (p : List SNLInstance) : ¬Below p p := by
  rintro ⟨level, a, b, here, there, before⟩
  cases here.symm.trans there
  rw [NLID.ordered.irrefl] at before
  exact nomatch before

/-- What is not above at any level is below wherever the next is. -/
theorem Below.trans (p q r : List SNLInstance) (length : p.length = q.length) (above : ¬Below q p) (next : Below q r) :
    Below p r := by
  obtain ⟨level, b, c, there, further, before⟩ := next
  have inside : level < p.length := by
    rw [length]
    exact (List.getElem?_eq_some_iff.mp there).1
  have here := List.getElem?_eq_getElem inside
  refine ⟨level, p[level], c, here, further, ?_⟩
  by_cases same : p[level].getNLID.equal b.getNLID = true
  · rw [(NLID.equal_iff _ _).mp same]
    exact before
  · rcases NLID.ordered.total _ _ (Bool.eq_false_iff.mpr same) with first | back
    · exact NLID.ordered.trans _ _ _ first before
    · exact absurd ⟨level, b, p[level], there, here, back⟩ above

/-! ### Paths and occurrences -/

section claims
variable {getModel : SNLInstance → DesignReference}

namespace SNLPath
variable (p q r : SNLPath getModel)

theorem equal_iff : p.equal q = true ↔ p = q := by
  rw [equal, decide_eq_true_eq, SNLPath.ext_iff]

/-- Shorter paths are first. -/
theorem less_iff : p.less q = true ↔ p.size < q.size ∨ p.size = q.size ∧ Below p.sharedPath q.sharedPath := by
  unfold less size
  by_cases noPath : p.sharedPath = []
  · rw [if_neg (not_not_intro noPath), decide_eq_true_eq, noPath, List.length_nil, List.length_pos_iff]
    constructor
    · intro other
      exact .inl other
    · rintro (other | ⟨-, _, _, _, here, _⟩)
      · exact other
      · exact nomatch here
  rw [if_pos noPath]
  have positive := List.length_pos_iff.mpr noPath
  by_cases noOther : q.sharedPath = []
  · rw [if_neg (not_not_intro noOther), noOther, List.length_nil]
    exact iff_of_false nofun (by omega)
  rw [if_pos noOther]
  by_cases sizes : p.sharedPath.length = q.sharedPath.length
  · rw [if_neg (not_not_intro sizes), tailsLess_iff]
    exact ⟨fun below => .inr ⟨sizes, below⟩, fun either => either.elim (fun shorter => by omega) And.right⟩
  · rw [if_pos sizes, decide_eq_true_eq]
    exact ⟨.inl, fun either => either.elim id (fun both => absurd both.1 sizes)⟩

theorem one_iff : [p.less q, q.less p, p.equal q].count true = 1 ↔ ¬Opposed p q := by
  constructor
  · rintro one ⟨sizes, below, above⟩
    have first := (less_iff p q).mpr (.inr ⟨sizes, below⟩)
    have second := (less_iff q p).mpr (.inr ⟨sizes.symm, above⟩)
    rw [first, second] at one
    cases same : p.equal q <;> rw [same] at one <;> exact absurd one (by decide)
  · intro agree
    by_cases same : p = q
    · have notLess : p.less p = false := by
        rw [Bool.eq_false_iff, ne_eq, less_iff]
        rintro (shorter | ⟨-, below⟩)
        · exact Nat.lt_irrefl _ shorter
        · exact Below.irrefl _ below
      rw [← same, notLess, (equal_iff p p).mpr rfl]
      decide
    · have notEqual : p.equal q = false := by rwa [Bool.eq_false_iff, ne_eq, equal_iff]
      have either : p.less q = true ∧ q.less p = false ∨ p.less q = false ∧ q.less p = true := by
        rw [Bool.eq_false_iff, ne_eq, Bool.eq_false_iff, ne_eq, less_iff, less_iff]
        rcases Nat.lt_trichotomy p.size q.size with shorter | sizes | longer
        · exact .inl ⟨.inl shorter, by omega⟩
        · rcases Below.of_ne _ _ sizes (fun chains => same (SNLPath.ext chains)) with below | above
          · refine .inl ⟨.inr ⟨sizes, below⟩, ?_⟩
            rintro (longer | ⟨-, above⟩)
            · omega
            · exact agree ⟨sizes, below, above⟩
          · refine .inr ⟨?_, .inr ⟨sizes.symm, above⟩⟩
            rintro (shorter | ⟨-, below⟩)
            · omega
            · exact agree ⟨sizes, below, above⟩
        · exact .inr ⟨by omega, .inl longer⟩
      rw [notEqual]
      rcases either with ⟨first, second⟩ | ⟨first, second⟩ <;> rw [first, second] <;> decide

theorem less_trans (agree : ¬Opposed p q) (first : p.less q = true) (second : q.less r = true) : p.less r = true := by
  rw [less_iff] at first second ⊢
  rcases first with shorter | ⟨sizes, below⟩
  · rcases second with longer | ⟨sizes', -⟩ <;> exact .inl (by omega)
  · rcases second with longer | ⟨sizes', further⟩
    · exact .inl (by omega)
    · refine .inr ⟨sizes.trans sizes', Below.trans _ _ _ sizes ?_ further⟩
      exact fun above => agree ⟨sizes, below, above⟩

/-- The order is as claimed for all but opposed paths. -/
theorem compares_iff : Compares less equal p q r ↔ ¬Opposed p q :=
  ⟨fun compares => (one_iff p q).mp compares.one, fun agree => ⟨(one_iff p q).mpr agree, p.less_trans q r agree⟩⟩

end SNLPath

namespace SNLOccurrence
variable (a b c : SNLOccurrence getModel)

theorem less_some (object other : NLID) (isObject : a.object = some object) (isOther : b.object = some other) :
    a.less b = (object.less other || object.equal other && a.path.less b.path) := by
  rw [less, isObject, isOther]

theorem equal_some (object other : NLID) (isObject : a.object = some object) (isOther : b.object = some other) :
    a.equal b = (object.equal other && a.path.equal b.path) := by
  rw [equal, isObject, isOther]

/-- Two occurrences of one object are compared as their paths. -/
theorem one_of_same (object : NLID) (isObject : a.object = some object) (isOther : b.object = some object) :
    [a.less b, b.less a, a.equal b].count true = 1 ↔ ¬Opposed a.path b.path := by
  rw [less_some a b object object isObject isOther, less_some b a object object isOther isObject,
    equal_some a b object object isObject isOther, NLID.ordered.irrefl, (NLID.equal_iff object object).mpr rfl]
  exact a.path.one_iff b.path

theorem one_of_ne (object other : NLID) (isObject : a.object = some object) (isOther : b.object = some other)
    (distinct : object.equal other = false) : [a.less b, b.less a, a.equal b].count true = 1 := by
  have distinct' : other.equal object = false := by
    rw [Bool.eq_false_iff, ne_eq, NLID.equal_iff, eq_comm, ← NLID.equal_iff, distinct]
    exact Bool.false_ne_true
  rw [less_some a b object other isObject isOther, less_some b a other object isOther isObject,
    equal_some a b object other isObject isOther, distinct, distinct']
  rcases NLID.ordered.total object other distinct with before | after
  · have notAfter : other.less object = false := by
      rw [Bool.eq_false_iff]
      intro after
      have cycle := NLID.ordered.trans _ _ _ before after
      rw [NLID.ordered.irrefl] at cycle
      exact nomatch cycle
    rw [before, notAfter]
    rfl
  · have notBefore : object.less other = false := by
      rw [Bool.eq_false_iff]
      intro before
      have cycle := NLID.ordered.trans _ _ _ before after
      rw [NLID.ordered.irrefl] at cycle
      exact nomatch cycle
    rw [after, notBefore]
    rfl

theorem less_trans (agree : a.object = b.object → ¬Opposed a.path b.path) (first : a.less b = true)
    (second : b.less c = true) : a.less c = true := by
  cases isC : c.object with
  | none =>
      unfold less at second
      rw [isC] at second
      cases isB : b.object <;> rw [isB] at second <;> exact nomatch second
  | some further =>
      cases isA : a.object with
      | none =>
          rw [less, isA, isC]
          rfl
      | some object =>
          cases isB : b.object with
          | none =>
              rw [less, isA, isB] at first
              exact nomatch first
          | some other =>
              rw [less_some a b object other isA isB, Bool.or_eq_true, Bool.and_eq_true, NLID.equal_iff] at first
              rw [less_some b c other further isB isC, Bool.or_eq_true, Bool.and_eq_true, NLID.equal_iff] at second
              rw [less_some a c object further isA isC, Bool.or_eq_true, Bool.and_eq_true, NLID.equal_iff]
              rcases first with before | ⟨same, path⟩
              · rcases second with before' | ⟨same', -⟩
                · exact .inl (NLID.ordered.trans _ _ _ before before')
                · exact .inl (same' ▸ before)
              · rcases second with before' | ⟨same', path'⟩
                · exact .inl (same ▸ before')
                · have paths := agree (by rw [isA, isB, same])
                  exact .inr ⟨same.trans same', a.path.less_trans b.path c.path paths path path'⟩

/-- Occurrences are as claimed but those of one object whose paths are opposed. -/
theorem compares_iff : Compares less equal a b c ↔ ¬(a.object ≠ none ∧ a.object = b.object ∧ Opposed a.path b.path) := by
  cases isA : a.object with
  | none =>
      refine iff_of_true ⟨?_, ?_⟩ (fun opposed => opposed.1 rfl)
      · rw [less, less, equal, isA]
        cases b.object <;> rfl
      · intro first second
        refine less_trans a b c ?_ first second
        intro same
        rw [less, isA, ← same, isA] at first
        exact nomatch first
  | some object =>
      cases isB : b.object with
      | none =>
          refine iff_of_true ⟨?_, ?_⟩ (fun opposed => nomatch opposed.2.1)
          · rw [less, less, equal, isA, isB]
            rfl
          · intro first
            rw [less, isA, isB] at first
            exact nomatch first
      | some other =>
          by_cases same : object = other
          · rw [← same] at isB ⊢
            constructor
            · rintro compares ⟨-, -, opposed⟩
              exact (one_of_same a b object isA isB).mp compares.one opposed
            · intro agree
              have paths : ¬Opposed a.path b.path := fun opposed => agree ⟨nofun, rfl, opposed⟩
              exact ⟨(one_of_same a b object isA isB).mpr paths, less_trans a b c (fun _ => paths)⟩
          · have distinct : object.equal other = false := by rwa [Bool.eq_false_iff, ne_eq, NLID.equal_iff]
            refine iff_of_true ⟨one_of_ne a b object other isA isB distinct, ?_⟩
              (fun opposed => same (Option.some.inj opposed.2.1))
            exact less_trans a b c (fun objects => absurd (isA.symm.trans (objects.trans isB)) (by simpa using same))

end SNLOccurrence

/-- On which paths and occurrences the comparisons are a strict total order. -/
theorem occurrences_ordered_iff (p q r : SNLPath getModel) (a b c : SNLOccurrence getModel) :
    (Compares SNLPath.less SNLPath.equal p q r ↔ ¬Opposed p q) ∧
    (Compares SNLOccurrence.less SNLOccurrence.equal a b c ↔
      ¬(a.object ≠ none ∧ a.object = b.object ∧ Opposed a.path b.path)) :=
  ⟨p.compares_iff q r, a.compares_iff b c⟩

end claims

/-- Two instances of a design, each of a model with two instances. -/
def twoLevels : SNLInstance → DesignReference := fun instance_ => ⟨0, 0, instance_.design.designID + 1⟩

def crossing (head tail : Nat) : SNLPath twoLevels := ⟨[⟨⟨0, 0, 1⟩, tail⟩, ⟨⟨0, 0, 0⟩, head⟩], by simp [twoLevels]⟩

/-- Of 0/1 and 1/0 each is less than the other, and so are the occurrences of a net there. -/
theorem crossing_paths :
    (crossing 0 1).less (crossing 1 0) = true ∧ (crossing 1 0).less (crossing 0 1) = true ∧
    (SNLOccurrence.mk (crossing 0 1) (some { type := .Net, designID := 2 })).less
      ⟨crossing 1 0, some { type := .Net, designID := 2 }⟩ = true ∧
    (SNLOccurrence.mk (crossing 1 0) (some { type := .Net, designID := 2 })).less
      ⟨crossing 0 1, some { type := .Net, designID := 2 }⟩ = true := by
  decide

end Naja.Universe
