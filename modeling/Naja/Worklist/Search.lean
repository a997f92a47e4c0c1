import Mathlib.Algebra.Ring.Nat
import Mathlib.Data.List.Nodup
import Mathlib.Logic.Relation

/-! Depth-first search on a stack with the set of visited nodes: it ends, and it finds a
node exactly when one on the stack leads to it. -/

namespace Naja.Worklist

variable {α : Type} [DecidableEq α]

/-- What is left to spend on the items that are not done. -/
def remaining (cost : α → Nat) (items done : List α) : Nat :=
  ((items.filter (fun item => item ∉ done)).map cost).sum

theorem remaining_head (cost : α → Nat) (head : α) (rest done : List α) :
    remaining cost (head :: rest) done = (if head ∈ done then 0 else cost head) + remaining cost rest done := by
  unfold remaining
  by_cases known : head ∈ done
  · rw [if_pos known, List.filter_cons_of_neg (by simpa using known), Nat.zero_add]
  · rw [if_neg known, List.filter_cons_of_pos (by simpa using known), List.map_cons, List.sum_cons]

theorem remaining_cons_le (cost : α → Nat) (items done : List α) (item : α) :
    remaining cost items (item :: done) ≤ remaining cost items done := by
  induction items with
  | nil => exact Nat.le_refl 0
  | cons head rest ih =>
      rw [remaining_head, remaining_head]
      apply Nat.add_le_add _ ih
      by_cases known : head ∈ done
      · rw [if_pos (List.mem_cons_of_mem _ known)]
        exact Nat.zero_le _
      · rw [if_neg known]
        split
        · exact Nat.zero_le _
        · exact Nat.le_refl _

theorem remaining_cons (cost : α → Nat) (items done : List α) (item : α) (member : item ∈ items)
    (fresh : item ∉ done) : cost item + remaining cost items (item :: done) ≤ remaining cost items done := by
  induction items with
  | nil => nomatch member
  | cons head rest ih =>
      rw [remaining_head, remaining_head]
      by_cases same : head = item
      · rw [same, if_pos List.mem_cons_self, if_neg fresh, Nat.zero_add]
        exact Nat.add_le_add_left (remaining_cons_le cost rest done item) _
      · have inRest : item ∈ rest := (List.mem_cons.mp member).resolve_left (fun equal => same equal.symm)
        have tail := ih inRest
        by_cases known : head ∈ done
        · rw [if_pos known, if_pos (List.mem_cons_of_mem _ known)]
          omega
        · rw [if_neg known, if_neg (fun found => known ((List.mem_cons.mp found).resolve_left same))]
          omega

/-- Looks for `target` from the nodes of the stack on; `none` when the fuel runs out. -/
def search (next : α → List α) (target : α) : Nat → List α → List α → Option Bool
  | 0, _, _ => none
  | _ + 1, [], _ => some false
  | fuel + 1, current :: stack, visited =>
      if current = target then some true
      else if current ∈ visited then search next target fuel stack visited
      else search next target fuel ((next current).reverse ++ stack) (current :: visited)

variable (next : α → List α) (target : α)

/-- Some node of the stack leads to the target. -/
def Leads (stack : List α) : Prop := ∃ a ∈ stack, Relation.ReflTransGen (fun a b => b ∈ next a) a target

omit [DecidableEq α] in
/-- A way out of the visited nodes passes the stack. -/
theorem leads_of_visited (stack visited : List α) (closed : ∀ a ∈ visited, ∀ b ∈ next a, b ∈ visited ∨ b ∈ stack)
    (apart : target ∉ visited) (a : α) (member : a ∈ visited)
    (path : Relation.ReflTransGen (fun a b => b ∈ next a) a target) : Leads next target stack := by
  induction path using Relation.ReflTransGen.head_induction_on with
  | refl => exact absurd member apart
  | head edge path ih =>
      rcases closed _ member _ edge with inside | outside
      · exact ih inside
      · exact ⟨_, outside, path⟩

theorem search_spec (items : List α) (inside : ∀ a, next a ≠ [] → a ∈ items) (fuel : Nat)
    (stack visited : List α) (closed : ∀ a ∈ visited, ∀ b ∈ next a, b ∈ visited ∨ b ∈ stack) (apart : target ∉ visited)
    (enough : stack.length + remaining (fun a => (next a).length) items visited < fuel) :
    ∃ found, search next target fuel stack visited = some found ∧ (found = true ↔ Leads next target stack) := by
  induction fuel generalizing stack visited with
  | zero => contradiction
  | succ fuel ih =>
      cases stack with
      | nil =>
          refine ⟨false, rfl, iff_of_false Bool.false_ne_true ?_⟩
          intro leads
          obtain ⟨a, member, -⟩ := leads
          nomatch member
      | cons current stack =>
          unfold search
          rw [List.length_cons] at enough
          by_cases here : current = target
          · rw [if_pos here]
            exact ⟨true, rfl, iff_of_true rfl ⟨current, List.mem_cons_self, here ▸ Relation.ReflTransGen.refl⟩⟩
          · rw [if_neg here]
            by_cases known : current ∈ visited
            · rw [if_pos known]
              have closed' : ∀ a ∈ visited, ∀ b ∈ next a, b ∈ visited ∨ b ∈ stack := by
                intro a member b edge
                rcases closed a member b edge with old | onStack
                · exact Or.inl old
                · rcases List.mem_cons.mp onStack with rfl | later
                  · exact Or.inl known
                  · exact Or.inr later
              obtain ⟨found, ran, exact_⟩ := ih stack visited closed' apart (by omega)
              refine ⟨found, ran, exact_.trans ⟨?_, ?_⟩⟩
              · intro leads
                obtain ⟨a, member, path⟩ := leads
                exact ⟨a, List.mem_cons_of_mem _ member, path⟩
              · intro leads
                obtain ⟨a, member, path⟩ := leads
                rcases List.mem_cons.mp member with rfl | later
                · exact leads_of_visited next target stack visited closed' apart a known path
                · exact ⟨a, later, path⟩
            · rw [if_neg known]
              have closed' : ∀ a ∈ current :: visited, ∀ b ∈ next a,
                  b ∈ current :: visited ∨ b ∈ (next current).reverse ++ stack := by
                intro a member b edge
                rcases List.mem_cons.mp member with rfl | old
                · exact Or.inr (List.mem_append_left _ (List.mem_reverse.mpr edge))
                · rcases closed a old b edge with older | onStack
                  · exact Or.inl (List.mem_cons_of_mem _ older)
                  · rcases List.mem_cons.mp onStack with rfl | later
                    · exact Or.inl List.mem_cons_self
                    · exact Or.inr (List.mem_append_right _ later)
              have apart' : target ∉ current :: visited := by
                intro member
                rcases List.mem_cons.mp member with same | old
                · exact here same.symm
                · exact apart old
              have spent : (next current).length + remaining (fun a => (next a).length) items (current :: visited)
                  ≤ remaining (fun a => (next a).length) items visited := by
                by_cases empty : next current = []
                · rw [empty, List.length_nil, Nat.zero_add]
                  exact remaining_cons_le _ items visited current
                · exact remaining_cons (fun a => (next a).length) items visited current (inside current empty) known
              obtain ⟨found, ran, exact_⟩ := ih ((next current).reverse ++ stack) (current :: visited) closed' apart'
                (by rw [List.length_append, List.length_reverse]; omega)
              refine ⟨found, ran, exact_.trans ⟨?_, ?_⟩⟩
              · intro leads
                obtain ⟨a, member, path⟩ := leads
                rcases List.mem_append.mp member with new | old
                · exact ⟨current, List.mem_cons_self, Relation.ReflTransGen.head (List.mem_reverse.mp new) path⟩
                · exact ⟨a, List.mem_cons_of_mem _ old, path⟩
              · intro leads
                obtain ⟨a, member, path⟩ := leads
                rcases List.mem_cons.mp member with rfl | old
                · rcases Relation.ReflTransGen.cases_head path with same | ⟨b, edge, rest⟩
                  · exact absurd same here
                  · exact ⟨b, List.mem_append_left _ (List.mem_reverse.mpr edge), rest⟩
                · exact ⟨a, List.mem_append_right _ old, path⟩

/-! ### One more edge -/

section Insert
variable {β : Type} (R : β → β → Prop) (a b : β)

def WithEdge (x y : β) : Prop := R x y ∨ (x = a ∧ y = b)

theorem transGen_withEdge (apart : ¬ Relation.ReflTransGen R b a) (x y : β)
    (path : Relation.TransGen (WithEdge R a b) x y) :
    Relation.TransGen R x y ∨ (Relation.ReflTransGen R x a ∧ Relation.ReflTransGen R b y) := by
  induction path with
  | single edge =>
      rcases edge with old | ⟨rfl, rfl⟩
      · exact Or.inl (Relation.TransGen.single old)
      · exact Or.inr ⟨Relation.ReflTransGen.refl, Relation.ReflTransGen.refl⟩
  | tail _ edge ih =>
      rcases edge with old | ⟨rfl, rfl⟩
      · rcases ih with before | ⟨front, back⟩
        · exact Or.inl (before.tail old)
        · exact Or.inr ⟨front, back.tail old⟩
      · rcases ih with before | ⟨front, back⟩
        · exact Or.inr ⟨before.to_reflTransGen, Relation.ReflTransGen.refl⟩
        · exact absurd back apart

/-- An edge against which nothing leads closes no cycle. -/
theorem acyclic_withEdge (acyclic : ∀ x, ¬ Relation.TransGen R x x) (apart : ¬ Relation.ReflTransGen R b a) (x : β) :
    ¬ Relation.TransGen (WithEdge R a b) x x := by
  intro cycle
  rcases transGen_withEdge R a b apart x x cycle with old | ⟨front, back⟩
  · exact acyclic x old
  · exact apart (back.trans front)

end Insert

end Naja.Worklist
