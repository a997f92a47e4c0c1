import Mathlib.Data.List.Nodup
import Mathlib.Logic.Relation

/-! Forests on numbers whose children come after their parents, and the intervals that
the preorder gives to their subtrees: a node is below another one exactly when
its place is in the interval of the other. -/

namespace Naja.Unfolding

/-- Every node but the roots has one parent, with a smaller number. -/
structure Forest where
  size : Nat
  children : Nat → List Nat
  later : ∀ v, ∀ c ∈ children v, v < c ∧ c < size
  single : ∀ v w c, c ∈ children v → c ∈ children w → v = w
  distinct : ∀ v, (children v).Nodup

namespace Forest
variable (forest : Forest)

/-- The nodes below a node, itself first, each before its own children. -/
def preorder (v : Nat) : List Nat :=
  v :: (forest.children v).attach.flatMap (fun child => preorder child.1)
termination_by forest.size - v
decreasing_by
  have after := forest.later v child.1 child.2
  omega

theorem preorder_eq (v : Nat) : forest.preorder v = v :: (forest.children v).flatMap forest.preorder := by
  rw [preorder]
  congr 1
  exact List.flatMap_subtype (fun _ _ => rfl) |>.trans (by rw [List.unattach_attach])

/-- The second node is the first one or below it. -/
def Above : Nat → Nat → Prop := Relation.ReflTransGen (fun v c => c ∈ forest.children v)

theorem Above.le (v w : Nat) (above : forest.Above v w) : v ≤ w := by
  induction above with
  | refl => exact Nat.le_refl v
  | tail _ edge ih => exact Nat.le_trans ih (Nat.le_of_lt (forest.later _ _ edge).1)

theorem mem_preorder (v w : Nat) : w ∈ forest.preorder v ↔ forest.Above v w := by
  constructor
  · intro member
    induction remaining : forest.size - v using Nat.strongRecOn generalizing v with
    | ind n ih =>
        rw [preorder_eq] at member
        rcases List.mem_cons.mp member with rfl | below
        · exact .refl
        · obtain ⟨child, edge, inside⟩ := List.mem_flatMap.mp below
          have after := forest.later v child edge
          exact .head edge (ih (forest.size - child) (by omega) child inside rfl)
  · intro above
    induction above using Relation.ReflTransGen.head_induction_on with
    | refl =>
        rw [preorder_eq]
        exact List.mem_cons_self
    | head edge _ ih =>
        rw [preorder_eq]
        exact List.mem_cons_of_mem _ (List.mem_flatMap.mpr ⟨_, edge, ih⟩)

/-- Two nodes above a third one are on one line. -/
theorem Above.comparable (u v w : Nat) (first : forest.Above u w) (second : forest.Above v w) :
    forest.Above u v ∨ forest.Above v u := by
  apply Relation.ReflTransGen.total_of_right_unique (r := Function.swap fun v c => c ∈ forest.children v)
      _ first.swap second.swap |>.symm.imp (fun h => h.swap) (fun h => h.swap)
  intro a b c up up'
  exact forest.single b c a up up'

theorem nodup_preorder (v : Nat) : (forest.preorder v).Nodup := by
  induction remaining : forest.size - v using Nat.strongRecOn generalizing v with
  | ind n ih =>
      rw [preorder_eq]
      refine List.nodup_cons.mpr ⟨?_, List.nodup_flatMap.mpr ⟨?_, ?_⟩⟩
      · intro member
        obtain ⟨child, edge, inside⟩ := List.mem_flatMap.mp member
        have after := forest.later v child edge
        have back := Above.le forest child v ((forest.mem_preorder child v).mp inside)
        omega
      · intro child edge
        have after := forest.later v child edge
        exact ih (forest.size - child) (by omega) child rfl
      · -- two children share nothing: a child below another one would have its parent below it
        have apart (c d : Nat) (edge : c ∈ forest.children v) (edge' : d ∈ forest.children v) (above : forest.Above c d) :
            c = d := by
          cases above with
          | refl => rfl
          | tail above last =>
              have up := forest.single _ _ _ last edge'
              have back := Above.le forest _ _ above
              have after := forest.later v c edge
              omega
        apply (forest.distinct v).imp_of_mem
        intro c d inC inD different x left right
        have fromC := (forest.mem_preorder c x).mp left
        have fromD := (forest.mem_preorder d x).mp right
        rcases Above.comparable forest c d x fromC fromD with down | up
        · exact different (apart c d inC inD down)
        · exact different (apart d c inD inC up).symm

/-- The subtrees of `v` and `w` start at two places of the preorder of the root. -/
theorem above_iff_between (root v w : Nat) (front back front' back' : List Nat)
    (first : forest.preorder root = front ++ forest.preorder v ++ back)
    (second : forest.preorder root = front' ++ forest.preorder w ++ back') :
    forest.Above v w ↔ front.length ≤ front'.length ∧ front'.length < front.length + (forest.preorder v).length := by
  have place : (forest.preorder root)[front'.length]? = some w := by
    rw [second, preorder_eq, List.append_assoc, List.getElem?_append_right (Nat.le_refl _), Nat.sub_self]
    rfl
  have nodup := forest.nodup_preorder root
  rw [← mem_preorder]
  constructor
  · intro member
    obtain ⟨k, inside, found⟩ := List.mem_iff_getElem.mp member
    have also : (forest.preorder root)[front.length + k]? = some w := by
      rw [first, List.append_assoc, List.getElem?_append_right (by omega), Nat.add_sub_cancel_left,
        List.getElem?_append_left inside, List.getElem?_eq_getElem inside, found]
    obtain ⟨bound, _⟩ := List.getElem?_eq_some_iff.mp place
    have same := (List.getElem?_inj bound nodup).mp (place.trans also.symm)
    omega
  · intro between
    rw [first, List.append_assoc, List.getElem?_append_right between.1, List.getElem?_append_left (by omega)] at place
    exact List.mem_of_getElem? place

end Forest
end Naja.Unfolding
