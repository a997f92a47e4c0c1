import Mathlib.Data.List.Basic
import Mathlib.Data.List.Nodup

/-! Components with a pointer to their net, and nets with an ordered set of their
components. Insertion and erasure in such a set compare keys and not addresses, so
both sides agree as long as keys tell the components of a net apart. -/

namespace Naja.Registry

structure Links (C N : Type) where
  netOf : C → Option N
  components : N → List C

namespace Links
variable {C N : Type} [DecidableEq C] [DecidableEq N]

def none : Links C N := ⟨fun _ => .none, fun _ => []⟩

/-- The components of the nets once `c` has left its own one; `same` compares keys. -/
def withoutComponent (same : C → C → Bool) (l : Links C N) (c : C) (n : N) : List C :=
  if l.netOf c = some n then (l.components n).filter (fun x => !same c x) else l.components n

/-- A component moves to another net, or to none. -/
def setNet (same : C → C → Bool) (l : Links C N) (c : C) (target : Option N) : Links C N :=
  if l.netOf c = target then l
  else
    { netOf := fun x => if x = c then target else l.netOf x
      components := match target with
        | .none => l.withoutComponent same c
        | some new => fun n =>
            if n = new ∧ ¬ (l.withoutComponent same c n).any (same c) then c :: l.withoutComponent same c n
            else l.withoutComponent same c n }

/-- Both sides tell the same. -/
structure Paired (l : Links C N) : Prop where
  iff : ∀ c n, c ∈ l.components n ↔ l.netOf c = some n
  nodup : ∀ n, (l.components n).Nodup

theorem paired_none : (none : Links C N).Paired := by
  refine ⟨?_, fun _ => List.nodup_nil⟩
  intro c n
  simp [none]

section setNet
variable (same : C → C → Bool) (l : Links C N) (c : C) (target : Option N)

theorem netOf_setNet (x : C) : (l.setNet same c target).netOf x = if x = c then target else l.netOf x := by
  unfold setNet
  split
  · next already =>
      split
      · next hit => rw [hit, already]
      · rfl
  · rfl

/-- Only the component itself can be new in a list. -/
theorem components_setNet (x : C) (n : N) (member : x ∈ (l.setNet same c target).components n) :
    x = c ∨ x ∈ l.components n := by
  have left (m : N) (inside : x ∈ l.withoutComponent same c m) : x ∈ l.components m := by
    unfold withoutComponent at inside
    split at inside
    · exact List.mem_of_mem_filter inside
    · exact inside
  unfold setNet at member
  split at member
  · exact .inr member
  · cases target with
    | none => exact .inr (left n member)
    | some new =>
        simp only at member
        split at member
        · rcases List.mem_cons.mp member with here | inside
          · exact .inl here
          · exact .inr (left n inside)
        · exact .inr (left n member)

variable (paired : l.Paired) (exact : ∀ x, (l.netOf x).isSome → (same c x = true ↔ x = c))
include paired exact

theorem mem_withoutComponent (x : C) (n : N) :
    x ∈ l.withoutComponent same c n ↔ x ≠ c ∧ l.netOf x = some n := by
  unfold withoutComponent
  split
  · rw [List.mem_filter, paired.iff, and_comm]
    refine and_congr_left ?_
    intro attached
    have key := exact x (by rw [attached]; rfl)
    rw [Bool.not_eq_true', ← Bool.not_eq_true, key]
  · next elsewhere =>
      rw [paired.iff]
      refine ⟨fun attached => ⟨?_, attached⟩, And.right⟩
      intro hit
      rw [hit] at attached
      exact elsewhere attached

omit exact in
theorem nodup_withoutComponent (n : N) : (l.withoutComponent same c n).Nodup := by
  unfold withoutComponent
  split
  · exact (paired.nodup n).filter _
  · exact paired.nodup n

theorem paired_setNet : (l.setNet same c target).Paired := by
  unfold setNet
  split
  · exact paired
  · next moves =>
      have members := mem_withoutComponent same l c paired exact
      have nodup := nodup_withoutComponent same l c paired
      have absent (n : N) : (l.withoutComponent same c n).any (same c) = false := by
        rw [List.any_eq_false]
        intro x member equal
        obtain ⟨other, attached⟩ := (members x n).mp member
        exact other ((exact x (by rw [attached]; rfl)).mp equal)
      refine ⟨?_, ?_⟩
      · intro x n
        cases target with
        | none =>
            rw [members x n]
            by_cases hit : x = c <;> simp [hit]
        | some new =>
            simp only [absent, Bool.false_eq_true, not_false_eq_true, and_true]
            by_cases here : n = new
            · rw [if_pos here, List.mem_cons, members x n]
              by_cases hit : x = c <;> simp [hit, here]
            · rw [if_neg here, members x n]
              by_cases hit : x = c <;> simp [hit, Ne.symm here]
      · intro n
        cases target with
        | none => exact nodup n
        | some new =>
            by_cases here : n = new
            · simp only [absent, here, Bool.false_eq_true, not_false_eq_true, and_self, if_true]
              refine List.nodup_cons.mpr ⟨?_, nodup new⟩
              intro member
              exact ((members c new).mp member).1 rfl
            · simp only [here, false_and, if_false]
              exact nodup n

end setNet

/-! ### One component in the place of another -/

/-- `target` takes over the net of `source`. -/
def move (l : Links C N) (source target : C) : Links C N :=
  { netOf := fun c => if c = target then l.netOf source else if c = source then .none else l.netOf c
    components := fun n => (l.components n).map (fun c => if c = source then target else c) }

end Links

end Naja.Registry
