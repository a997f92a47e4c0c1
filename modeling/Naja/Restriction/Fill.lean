import Mathlib.Data.List.Find
import Mathlib.Data.List.Nodup
import Mathlib.Data.List.Perm.Basic

/-! Partial assignments. Some entries of a list are fixed by their positions, and
the others are filled from a shorter list, in order. Fixing in two rounds, with
the positions of the second counted among the entries that the first left, is
fixing in one. -/

namespace Naja.Restriction
variable {α : Type*}

/-- The unknown entries are taken from the list, in order. -/
def fill : List (Option α) → List α → List α
  | [], _ => []
  | some a :: known, free => a :: fill known free
  | none :: known, a :: free => a :: fill known free
  | none :: _, [] => []

def unknowns (known : List (Option α)) : Nat := known.countP Option.isNone

/-- The unknown entries are replaced, in order. -/
def overlay : List (Option α) → List (Option α) → List (Option α)
  | [], _ => []
  | some a :: known, more => some a :: overlay known more
  | none :: known, x :: more => x :: overlay known more
  | none :: _, [] => []

@[simp] theorem unknowns_nil : unknowns ([] : List (Option α)) = 0 := rfl

@[simp] theorem unknowns_some (a : α) (known : List (Option α)) : unknowns (some a :: known) = unknowns known :=
  List.countP_cons_of_neg (by simp)

@[simp] theorem unknowns_none (known : List (Option α)) : unknowns (none :: known) = unknowns known + 1 :=
  List.countP_cons_of_pos rfl

theorem unknowns_add_length (known : List (Option α)) :
    unknowns known + (known.filterMap id).length = known.length := by
  induction known with
  | nil => rfl
  | cons entry rest ih =>
      cases entry with
      | some a =>
          rw [unknowns_some, List.filterMap_cons_some (f := id) rfl, List.length_cons, List.length_cons, ← ih]
          omega
      | none =>
          rw [unknowns_none, List.filterMap_cons_none rfl, List.length_cons, ← ih]
          omega

/-- A filled list holds the known values and the others. -/
theorem fill_perm (known : List (Option α)) (free : List α) (enough : free.length = unknowns known) :
    (fill known free).Perm (known.filterMap id ++ free) := by
  induction known generalizing free with
  | nil =>
      rw [unknowns_nil, List.length_eq_zero_iff] at enough
      subst enough
      exact List.Perm.refl []
  | cons entry rest ih =>
      cases entry with
      | some a =>
          rw [unknowns_some] at enough
          exact (ih free enough).cons a
      | none =>
          cases free with
          | nil =>
              rw [unknowns_none, List.length_nil] at enough
              omega
          | cons a free =>
              rw [unknowns_none, List.length_cons] at enough
              exact ((ih free (by omega)).cons a).trans List.perm_middle.symm

theorem length_fill (known : List (Option α)) (free : List α) (enough : free.length = unknowns known) :
    (fill known free).length = known.length := by
  rw [(fill_perm known free enough).length_eq, List.length_append, enough, ← unknowns_add_length known]
  omega

theorem fill_nothing (free : List α) : fill (List.replicate free.length none) free = free := by
  induction free with
  | nil => rfl
  | cons a free ih => exact congrArg (a :: ·) ih

/-- Nothing is left to fill. -/
theorem fill_known (known : List (Option α)) (other : α) (full : unknowns known = 0) :
    fill known [] = known.map (fun entry => entry.getD other) := by
  induction known with
  | nil => rfl
  | cons entry rest ih =>
      cases entry with
      | some a =>
          rw [unknowns_some] at full
          exact congrArg (a :: ·) (ih full)
      | none => simp at full

theorem fill_fill (known more : List (Option α)) (free : List α) (enough : more.length = unknowns known)
    (rest : free.length = unknowns more) : fill known (fill more free) = fill (overlay known more) free := by
  induction known generalizing more free with
  | nil => rfl
  | cons entry known ih =>
      cases entry with
      | some a =>
          rw [unknowns_some] at enough
          exact congrArg (a :: ·) (ih more free enough rest)
      | none =>
          rw [unknowns_none] at enough
          cases more with
          | nil => nomatch enough
          | cons x more =>
              have shorter : more.length = unknowns known := by simpa using enough
              cases x with
              | some a =>
                  rw [unknowns_some] at rest
                  exact congrArg (a :: ·) (ih more free shorter rest)
              | none =>
                  rw [unknowns_none] at rest
                  cases free with
                  | nil => nomatch rest
                  | cons a free => exact congrArg (a :: ·) (ih more free shorter (by simpa using rest))

/-! ### Fixed positions -/

/-- The value that is fixed at a position. -/
def valueAt (fixed : List (Nat × α)) (position : Nat) : Option α :=
  (fixed.find? (fun c => c.1 == position)).map Prod.snd

def knownAt (positions : List Nat) (fixed : List (Nat × α)) : List (Option α) := positions.map (valueAt fixed)

/-- The positions that are left. -/
def remaining (positions : List Nat) (fixed : List (Nat × α)) : List Nat :=
  positions.filter (fun position => (valueAt fixed position).isNone)

/-- The fixed values by their places among the positions. -/
def reposition (positions : List Nat) (fixed : List (Nat × α)) : List (Nat × α) :=
  fixed.map (fun c => (positions.idxOf c.1, c.2))

/-- Every fixed position is among the positions, and is fixed once. -/
structure Fixes (positions : List Nat) (fixed : List (Nat × α)) : Prop where
  distinct : (fixed.map Prod.fst).Nodup
  inside : ∀ c ∈ fixed, c.1 ∈ positions

theorem find_position (fixed : List (Nat × α)) (position : Nat) (c : Nat × α)
    (found : fixed.find? (fun c => c.1 == position) = some c) : c.1 = position := by
  have met := List.find?_some found
  exact beq_iff_eq.mp met

theorem lookup_eq_valueAt (fixed : List (Nat × α)) (position : Nat) :
    fixed.lookup position = valueAt fixed position := by
  induction fixed with
  | nil => rfl
  | cons c rest ih =>
      unfold valueAt at ih ⊢
      rw [List.lookup_cons, List.find?_cons, Bool.beq_comm (a := position)]
      rw [ih]
      cases c.1 == position <;> rfl

theorem valueAt_append (first second : List (Nat × α)) (position : Nat) :
    valueAt (first ++ second) position = (valueAt first position).or (valueAt second position) := by
  unfold valueAt
  rw [List.find?_append, Option.map_or]

theorem valueAt_eq_none (fixed : List (Nat × α)) (position : Nat) (absent : position ∉ fixed.map Prod.fst) :
    valueAt fixed position = none := by
  unfold valueAt
  rw [Option.map_eq_none_iff, List.find?_eq_none]
  intro c member same
  exact absent (List.mem_map.mpr ⟨c, member, beq_iff_eq.mp same⟩)

theorem valueAt_eq_some (fixed : List (Nat × α)) (distinct : (fixed.map Prod.fst).Nodup) (c : Nat × α)
    (member : c ∈ fixed) : valueAt fixed c.1 = some c.2 := by
  induction fixed with
  | nil => nomatch member
  | cons first rest ih =>
      unfold valueAt at ih ⊢
      rw [List.map_cons, List.nodup_cons] at distinct
      rcases List.mem_cons.mp member with rfl | inside
      · rw [List.find?_cons, beq_self_eq_true]
        rfl
      · have apart : (first.1 == c.1) = false := by
          rw [beq_eq_false_iff_ne]
          intro same
          exact distinct.1 (same ▸ List.mem_map_of_mem inside)
        rw [List.find?_cons, apart]
        exact ih distinct.2 inside

/-- A value is fixed at a position exactly where the list says so. -/
theorem valueAt_iff (fixed : List (Nat × α)) (distinct : (fixed.map Prod.fst).Nodup) (position : Nat) (a : α) :
    valueAt fixed position = some a ↔ (position, a) ∈ fixed := by
  constructor
  · intro found
    obtain ⟨c, here, rfl⟩ := Option.map_eq_some_iff.mp found
    rw [← find_position fixed position c here]
    exact List.mem_of_find?_eq_some here
  · exact valueAt_eq_some fixed distinct (position, a)

/-- The order of the fixed values does not matter. -/
theorem valueAt_perm (fixed other : List (Nat × α)) (distinct : (fixed.map Prod.fst).Nodup)
    (perm : fixed.Perm other) : valueAt fixed = valueAt other := by
  funext position
  apply Option.ext
  intro a
  rw [valueAt_iff fixed distinct, valueAt_iff other ((perm.map Prod.fst).nodup_iff.mp distinct), perm.mem_iff]

theorem knownAt_perm (positions : List Nat) (fixed other : List (Nat × α)) (distinct : (fixed.map Prod.fst).Nodup)
    (perm : fixed.Perm other) : knownAt positions fixed = knownAt positions other := by
  unfold knownAt
  rw [valueAt_perm fixed other distinct perm]

theorem Fixes.perm (positions : List Nat) (fixed other : List (Nat × α)) (fixes : Fixes positions fixed)
    (perm : fixed.Perm other) : Fixes positions other :=
  ⟨(perm.map Prod.fst).nodup_iff.mp fixes.distinct, fun c member => fixes.inside c (perm.mem_iff.mpr member)⟩

theorem unknowns_knownAt (positions : List Nat) (fixed : List (Nat × α)) :
    unknowns (knownAt positions fixed) = (remaining positions fixed).length := by
  unfold unknowns knownAt remaining
  rw [List.countP_map, List.countP_eq_length_filter]
  rfl

theorem overlay_knownAt (positions : List Nat) (first second : List (Nat × α)) :
    overlay (knownAt positions first) (knownAt (remaining positions first) second) =
      knownAt positions (first ++ second) := by
  induction positions with
  | nil => rfl
  | cons position rest ih =>
      unfold knownAt remaining at ih ⊢
      rw [List.map_cons, List.map_cons, valueAt_append]
      cases found : valueAt first position with
      | some a =>
          rw [List.filter_cons_of_neg (by simp [found])]
          exact congrArg (some a :: ·) ih
      | none =>
          rw [List.filter_cons_of_pos (by simp [found])]
          exact congrArg (valueAt second position :: ·) ih

theorem remaining_append (positions : List Nat) (first second : List (Nat × α)) :
    remaining (remaining positions first) second = remaining positions (first ++ second) := by
  unfold remaining
  rw [List.filter_filter]
  congr 1
  funext position
  rw [valueAt_append]
  cases valueAt first position with
  | some a => simp
  | none => simp

theorem remaining_nodup (positions : List Nat) (fixed : List (Nat × α)) (nodup : positions.Nodup) :
    (remaining positions fixed).Nodup := nodup.filter _

/-- The values that are known are the fixed ones. -/
theorem values_perm (positions : List Nat) (fixed : List (Nat × α)) (nodup : positions.Nodup)
    (fixes : Fixes positions fixed) : ((knownAt positions fixed).filterMap id).Perm (fixed.map Prod.snd) := by
  have pairs : (positions.filterMap (fun position => fixed.find? (fun c => c.1 == position))).Perm fixed := by
    refine (List.perm_ext_iff_of_nodup ?_ fixes.distinct.of_map).mpr ?_
    · refine nodup.filterMap ?_
      intro p q c atP atQ
      exact (find_position fixed p c atP).symm.trans (find_position fixed q c atQ)
    · intro c
      rw [List.mem_filterMap]
      constructor
      · rintro ⟨position, -, found⟩
        exact List.mem_of_find?_eq_some found
      · intro member
        refine ⟨c.1, fixes.inside c member, ?_⟩
        obtain ⟨d, found, same⟩ := Option.map_eq_some_iff.mp (valueAt_eq_some fixed fixes.distinct c member)
        rw [found, Prod.ext (find_position fixed c.1 d found) same]
  have same : (knownAt positions fixed).filterMap id =
      (positions.filterMap (fun position => fixed.find? (fun c => c.1 == position))).map Prod.snd := by
    unfold knownAt
    rw [List.filterMap_map, List.map_filterMap]
    rfl
  rw [same]
  exact pairs.map Prod.snd

theorem length_remaining (positions : List Nat) (fixed : List (Nat × α)) (nodup : positions.Nodup)
    (fixes : Fixes positions fixed) : (remaining positions fixed).length + fixed.length = positions.length := by
  have values := (values_perm positions fixed nodup fixes).length_eq
  have total := unknowns_add_length (knownAt positions fixed)
  rw [unknowns_knownAt, values, List.length_map] at total
  rw [total]
  exact List.length_map _

theorem mem_remaining (positions : List Nat) (first second : List (Nat × α)) (fixes : Fixes positions (first ++ second))
    (c : Nat × α) (member : c ∈ second) : c.1 ∈ remaining positions first := by
  refine List.mem_filter.mpr ⟨fixes.inside c (List.mem_append_right _ member), ?_⟩
  have distinct := fixes.distinct
  rw [List.map_append] at distinct
  rw [valueAt_eq_none first c.1 ?_]
  · rfl
  · intro inside
    exact List.disjoint_of_nodup_append distinct inside (List.mem_map_of_mem member)

/-- The part of the second round fixes what the first round has left. -/
theorem Fixes.second (positions : List Nat) (first second : List (Nat × α))
    (fixes : Fixes positions (first ++ second)) : Fixes (remaining positions first) second := by
  refine ⟨?_, mem_remaining positions first second fixes⟩
  have distinct := fixes.distinct
  rw [List.map_append] at distinct
  exact distinct.of_append_right

/-- Fixed values at their places are the fixed values at their positions. -/
theorem knownAt_reposition (positions : List Nat) (fixed : List (Nat × α)) (nodup : positions.Nodup)
    (fixes : Fixes positions fixed) :
    knownAt (List.range positions.length) (reposition positions fixed) = knownAt positions fixed := by
  unfold knownAt
  apply List.ext_getElem (by simp)
  intro i inside inside'
  rw [List.getElem_map, List.getElem_map, List.getElem_range]
  have small : i < positions.length := by simpa using inside'
  unfold valueAt reposition
  rw [List.find?_map, Option.map_map]
  have same : fixed.find? ((fun c => c.1 == i) ∘ fun c => (positions.idxOf c.1, c.2)) =
      fixed.find? (fun c => c.1 == positions[i]) := by
    refine List.find?_congr (fun c member => ?_)
    change (positions.idxOf c.1 == i) = (c.1 == positions[i])
    have here := fixes.inside c member
    rw [Bool.eq_iff_iff, beq_iff_eq, beq_iff_eq]
    constructor
    · intro place
      rw [← List.getElem_idxOf (List.idxOf_lt_length_of_mem here)]
      simp only [place]
    · rintro at_i
      rw [at_i]
      exact nodup.idxOf_getElem i small
  rw [same]
  rfl

theorem Fixes.reposition (positions : List Nat) (fixed : List (Nat × α)) (fixes : Fixes positions fixed) :
    Fixes (List.range positions.length) (reposition positions fixed) := by
  unfold Restriction.reposition
  refine ⟨?_, fun c member => ?_⟩
  · rw [List.map_map]
    refine (List.nodup_map_iff_inj_on fixes.distinct.of_map).mpr ?_
    intro c member d member' same
    have places : positions.idxOf c.1 = positions.idxOf d.1 := same
    have keys : c.1 = d.1 := (List.idxOf_inj (fixes.inside c member)).mp places
    exact List.inj_on_of_nodup_map fixes.distinct member member' keys
  · obtain ⟨d, inside, rfl⟩ := List.mem_map.mp member
    exact List.mem_range.mpr (List.idxOf_lt_length_of_mem (fixes.inside d inside))

end Naja.Restriction
