import Mathlib.Data.Prod.Lex
import Mathlib.Data.List.Basic
import Mathlib.Data.List.Pairwise

/-! Sets kept in the order of a key, as lists, and what is built by inserting the
elements of such a list one after the other. -/

namespace Naja.Registry
variable {α κ : Type} [LinearOrder κ] (key : α → κ)

/-- An element whose key is taken is not inserted. -/
def insertByKey (x : α) : List α → List α
  | [] => [x]
  | y :: rest =>
      if key x < key y then x :: y :: rest
      else if key x = key y then y :: rest
      else y :: insertByKey x rest

def OrderedBy (xs : List α) : Prop := xs.Pairwise (fun x y => key x < key y)

variable {key}

/-- The element with the largest key comes last. -/
theorem insertByKey_last (x : α) (xs : List α) (below : ∀ y ∈ xs, key y < key x) :
    insertByKey key x xs = xs ++ [x] := by
  induction xs with
  | nil => rfl
  | cons y rest ih =>
      have less := below y List.mem_cons_self
      unfold insertByKey
      rw [if_neg (not_lt_of_gt less), if_neg (ne_of_gt less),
        ih (fun z member => below z (List.mem_cons_of_mem _ member))]
      rfl

theorem OrderedBy.below (before after : List α) (x : α) (ordered : OrderedBy key (before ++ x :: after)) :
    ∀ y ∈ before, key y < key x := by
  intro y member
  exact (List.pairwise_append.mp ordered).2.2 y member x List.mem_cons_self

theorem OrderedBy.eq_of_key (xs : List α) (ordered : OrderedBy key xs) (x y : α) (inX : x ∈ xs) (inY : y ∈ xs)
    (same : key x = key y) : x = y := by
  induction xs with
  | nil => contradiction
  | cons z rest ih =>
      obtain ⟨first, later⟩ := List.pairwise_cons.mp ordered
      rcases List.mem_cons.mp inX with rfl | restX <;> rcases List.mem_cons.mp inY with rfl | restY
      · rfl
      · exact absurd same (ne_of_lt (first y restY))
      · exact absurd same (ne_of_gt (first x restX))
      · exact ih later restX restY

/-- A loop over the messages of a list, with the state after each of its front parts. -/
theorem foldlM_dump {μ β ε : Type} (dump : α → μ) (step : β → μ → Except ε β) (state : List α → β) (xs : List α)
    (each : ∀ before x after, xs = before ++ x :: after → step (state before) (dump x) = .ok (state (before ++ [x]))) :
    (xs.map dump).foldlM step (state []) = .ok (state xs) := by
  have rest (before : List α) : ∀ after, xs = before ++ after →
      (after.map dump).foldlM step (state before) = .ok (state (before ++ after)) := by
    intro after
    induction after generalizing before with
    | nil =>
        intro _
        rw [List.append_nil]
        rfl
    | cons x later ih =>
        intro whole
        rw [List.map_cons, List.foldlM_cons, each before x later whole]
        have next := ih (before ++ [x]) (by rw [whole, List.append_assoc, List.singleton_append])
        rw [List.append_assoc, List.singleton_append] at next
        exact next
  exact rest [] xs rfl

/-- What every step keeps holds at the end of a loop. -/
theorem foldlM_invariant {μ β ε : Type} (step : β → μ → Except ε β) (holds : β → Prop) (xs : List μ)
    (keeps : ∀ s x s', x ∈ xs → holds s → step s x = .ok s' → holds s') (s s' : β) (start : holds s)
    (ran : xs.foldlM step s = .ok s') : holds s' := by
  induction xs generalizing s with
  | nil => exact Except.ok.inj ran ▸ start
  | cons x rest ih =>
      rw [List.foldlM_cons] at ran
      cases first : step s x with
      | error reason =>
          rw [first] at ran
          contradiction
      | ok middle =>
          rw [first] at ran
          exact ih (fun t y t' member => keeps t y t' (List.mem_cons_of_mem _ member)) middle
            (keeps s x middle List.mem_cons_self start first) ran

/-- A loop that ends has passed all its steps. -/
theorem foldlM_passed {μ β ε : Type} (step : β → μ → Except ε β) (xs : List μ) (s s' : β)
    (ran : xs.foldlM step s = .ok s') : ∀ x ∈ xs, ∃ t t', step t x = .ok t' := by
  induction xs generalizing s with
  | nil =>
      intro x member
      contradiction
  | cons y rest ih =>
      rw [List.foldlM_cons] at ran
      cases first : step s y with
      | error reason =>
          rw [first] at ran
          contradiction
      | ok middle =>
          rw [first] at ran
          intro x member
          rcases List.mem_cons.mp member with rfl | later
          · exact ⟨s, middle, first⟩
          · exact ih middle ran x later

theorem bind_eq_ok {β γ ε : Type} (x : Except ε β) (f : β → Except ε γ) (r : γ) :
    (x >>= f) = .ok r ↔ ∃ a, x = .ok a ∧ f a = .ok r := by
  cases x with
  | error reason => exact ⟨nofun, fun found => by obtain ⟨a, made, -⟩ := found; contradiction⟩
  | ok a =>
      constructor
      · intro ran
        exact ⟨a, rfl, ran⟩
      · intro found
        obtain ⟨b, same, ran⟩ := found
        obtain rfl := Except.ok.inj same
        exact ran

theorem mem_insertByKey (x y : α) (xs : List α) (member : y ∈ insertByKey key x xs) : y = x ∨ y ∈ xs := by
  induction xs with
  | nil => exact Or.inl (List.mem_singleton.mp member)
  | cons z rest ih =>
      unfold insertByKey at member
      split at member
      · exact List.mem_cons.mp member
      · split at member
        · exact Or.inr member
        · rcases List.mem_cons.mp member with rfl | later
          · exact Or.inr List.mem_cons_self
          · exact (ih later).imp_right (List.mem_cons_of_mem _)

/-- An element with a new key is added, and the order is kept. -/
theorem insertByKey_perm (x : α) (xs : List α) (fresh : key x ∉ xs.map key) : (insertByKey key x xs).Perm (x :: xs) := by
  induction xs with
  | nil => exact List.Perm.refl _
  | cons y rest ih =>
      rw [List.map_cons, List.mem_cons, not_or] at fresh
      unfold insertByKey
      split
      · exact List.Perm.refl _
      · rw [if_neg fresh.1]
        exact ((ih fresh.2).cons y).trans (List.Perm.swap x y rest)

theorem insertByKey_ordered (x : α) (xs : List α) (ordered : OrderedBy key xs) :
    OrderedBy key (insertByKey key x xs) := by
  induction xs with
  | nil => exact List.pairwise_singleton _ _
  | cons y rest ih =>
      obtain ⟨first, later⟩ := List.pairwise_cons.mp ordered
      unfold insertByKey
      split
      · next less =>
          apply List.pairwise_cons.mpr ⟨_, ordered⟩
          intro z member
          rcases List.mem_cons.mp member with rfl | inside
          · exact less
          · exact less.trans (first z inside)
      · next notLess =>
          split
          · exact ordered
          · next different =>
              apply List.pairwise_cons.mpr ⟨_, ih later⟩
              intro z member
              rcases mem_insertByKey x z rest member with rfl | inside
              · exact lt_of_le_of_ne (not_lt.mp notLess) (Ne.symm different)
              · exact first z inside

/-- The element with a given key, found by it. -/
theorem find?_of_nodup {β : Type} [DecidableEq β] (f : α → β) (xs : List α) (distinct : (xs.map f).Nodup) (x : α)
    (member : x ∈ xs) : xs.find? (fun y => f y == f x) = some x := by
  induction xs with
  | nil => contradiction
  | cons y rest ih =>
      obtain ⟨first, later⟩ := List.nodup_cons.mp distinct
      rcases List.mem_cons.mp member with rfl | inside
      · exact List.find?_cons_of_pos (by simp)
      · have other : f y ≠ f x := by
          intro same
          exact first (same ▸ List.mem_map_of_mem inside)
        rw [List.find?_cons_of_neg (by simpa using other)]
        exact ih later inside

theorem OrderedBy.nodup (xs : List α) (ordered : OrderedBy key xs) : (xs.map key).Nodup :=
  List.pairwise_map.mpr (ordered.imp ne_of_lt)

end Naja.Registry
