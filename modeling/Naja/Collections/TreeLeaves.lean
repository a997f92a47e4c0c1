import Naja.Collections.Iteration

/-! The run of the tree leaves: the search on a stack comes to the leaves in the order of the list,
and a null leaf ends it or leaves the iterator where it is. -/

namespace Naja.Collections
open Worklist

variable {α : Type}

/-- From a stack the search comes to these leaves one after the other, and is then at another stack. -/
def Leads (tree : Tree α) : List (Option α) → List (Option α) → List (Option α) → Prop
  | stack, [], last => ∀ outcome, Settles (fun fuel => findLeaf tree fuel last) outcome →
      Settles (fun fuel => findLeaf tree fuel stack) outcome
  | stack, leaf :: rest, last =>
      ∃ after : List (Option α), Gives (fun fuel => findLeaf tree fuel stack) (after, leaf) ∧ Leads tree after rest last

theorem Leads.refl (tree : Tree α) (stack : List (Option α)) : Leads tree stack [] stack :=
  fun _ settles => settles

theorem Leads.trans {tree : Tree α} {stack middle last first second : List (Option α)}
    (start : Leads tree stack first middle) (more : Leads tree middle second last) :
    Leads tree stack (first ++ second) last := by
  induction first generalizing stack with
  | nil =>
      cases second with
      | nil => exact fun outcome settles => start outcome (more outcome settles)
      | cons leaf rest =>
          obtain ⟨after, found, onward⟩ := more
          exact ⟨after, start _ found, onward⟩
  | cons leaf rest ih =>
      obtain ⟨after, found, onward⟩ := start
      exact ⟨after, found, ih onward⟩

theorem pushed_eq (children stack : List (Option α)) :
    children.foldl (fun stack child => child :: stack) stack = children.reverse ++ stack := by
  induction children generalizing stack with
  | nil => rfl
  | cons child rest ih => rw [List.foldl_cons, ih, List.reverse_cons, List.append_assoc, List.singleton_append]

theorem Leads.flatMap {tree : Tree α} (leaves : Option α → List (Option α)) (objects stack : List (Option α))
    (each : ∀ object ∈ objects, ∀ stack, Leads tree (object :: stack) (leaves object) stack) :
    Leads tree (objects ++ stack) (objects.flatMap leaves) stack := by
  induction objects with
  | nil => exact Leads.refl tree stack
  | cons object rest ih =>
      rw [List.flatMap_cons]
      exact (each object List.mem_cons_self (rest ++ stack)).trans
        (ih fun other member => each other (List.mem_cons_of_mem _ member))

/-- An object on the stack leads to its leaves. -/
theorem leads_object (tree : Tree α) (depth : Nat) (object : Option α) (stack : List (Option α))
    (within : Within tree.childrenGetter tree.leafCriterion depth object) :
    Leads tree (object :: stack) (leavesWithin tree.childrenGetter tree.leafCriterion depth object) stack := by
  induction depth generalizing object stack with
  | zero => exact within.elim
  | succ depth ih =>
      unfold leavesWithin
      by_cases leaf : tree.leafCriterion object = true
      · rw [if_pos leaf]
        refine ⟨stack, ?_, Leads.refl tree stack⟩
        exact Settles.succ (f := fun _ => some (stack, object)) (fun fuel => if_pos leaf) (Settles.const _)
      · rw [if_neg leaf]
        have below := within.resolve_left leaf
        have opened : Leads tree (object :: stack) [] ((tree.childrenGetter object).reverse ++ stack) := by
          intro outcome settles
          refine Settles.succ (fun fuel => ?_) settles
          rw [← pushed_eq]
          exact if_neg leaf
        refine opened.trans (Leads.flatMap _ _ stack fun child member stack => ?_)
        exact ih child stack (below child (List.mem_reverse.mp member))

variable [DecidableEq α]

/-- The run arrives with all leaves exactly when none of them is null. -/
theorem leads_runs (tree : Tree α) (list stack : List (Option α)) (leads : Leads tree stack list []) :
    ∃ found visited arrives, Gives (fun fuel => findLeaf tree fuel stack) found ∧
      Runs (.treeLeaves tree [] none) (.treeLeaves tree found.1 found.2) visited arrives ∧
      ((arrives = true ∧ visited = list) ↔ none ∉ list) := by
  induction list generalizing stack with
  | nil =>
      refine ⟨([], none), [], true, leads _ (Settles.succ (f := fun _ => some ([], none)) (fun _ => rfl)
        (Settles.const _)), Runs.ends _ (decide_eq_true ⟨rfl, rfl, rfl⟩) rfl, ?_⟩
      exact iff_of_true ⟨rfl, rfl⟩ List.not_mem_nil
  | cons leaf rest ih =>
      obtain ⟨after, found, onward⟩ := leads
      cases leaf with
      | none =>
          have null : ¬ none ∉ (none : Option α) :: rest := fun absent => absent List.mem_cons_self
          cases after with
          | nil =>
              refine ⟨([], none), [], true, found, Runs.ends _ (decide_eq_true ⟨rfl, rfl, rfl⟩) rfl, ?_⟩
              exact iff_of_false (fun both => List.cons_ne_nil _ _ both.2.symm) null
          | cons object stack =>
              refine ⟨(object :: stack, none), [], false, found, Runs.stuck _ rfl ?_ ?_, ?_⟩
              · exact decide_eq_false fun same => List.cons_ne_nil _ _ same.2.2
              · intro fuel next moved
                cases fuel with
                | zero => cases moved
                | succ fuel => exact (Option.some.inj moved).symm
              · exact iff_of_false (fun both => Bool.noConfusion both.1) null
      | some object =>
          obtain ⟨next, visited, arrives, moved, runs, exact⟩ := ih after onward
          refine ⟨(after, some object), some object :: visited, arrives, found, ?_, ?_⟩
          · refine Runs.step (.treeLeaves tree after (some object)) (.treeLeaves tree next.1 next.2) visited arrives
              ?_ rfl ?_ runs
            · exact decide_eq_false fun same => Option.some_ne_none _ same.2.1
            · refine Settles.succ (f := fun fuel => (findLeaf tree fuel after).bind fun found =>
                some (.treeLeaves tree found.1 found.2)) (fun _ => rfl) ?_
              exact Settles.bind (f := fun _ found => some (BaseIterator.treeLeaves tree found.1 found.2)) moved
                (Settles.const _)
          · have absent : none ∉ some object :: rest ↔ none ∉ rest := by simp
            rw [absent, ← exact, List.cons_eq_cons, and_iff_right rfl]

/-- The same from `begin()`. -/
theorem treeLeaves_runs (tree : Tree α) :
    ∃ it visited arrives, Gives (fun fuel => begin_ fuel (.treeLeaves tree)) it ∧
      Runs (BaseCollection.treeLeaves tree).end_ it visited arrives ∧
      ((arrives = true ∧ visited = tree.leaves) ↔ none ∉ tree.leaves) := by
  by_cases rooted : tree.root.isSome = true
  · have leads := leads_object tree tree.depth tree.root [] (tree.finite rooted)
    obtain ⟨found, visited, arrives, moved, runs, exact⟩ := leads_runs tree _ _ leads
    refine ⟨.treeLeaves tree found.1 found.2, visited, arrives, ?_, runs, ?_⟩
    · refine Settles.succ (f := fun fuel => (findLeaf tree fuel [tree.root]).bind fun found =>
        some (.treeLeaves tree found.1 found.2)) (fun _ => (if_pos rooted).trans rfl) ?_
      exact Settles.bind (f := fun _ found => some (BaseIterator.treeLeaves tree found.1 found.2)) moved
        (Settles.const _)
    · unfold Tree.leaves
      rw [if_pos rooted]
      exact exact
  · refine ⟨.treeLeaves tree [] none, [], true, ?_, Runs.ends _ (decide_eq_true ⟨rfl, rfl, rfl⟩) rfl, ?_⟩
    · exact Settles.succ (f := fun _ => some (.treeLeaves tree [] none)) (fun _ => (if_neg rooted).trans rfl)
        (Settles.const _)
    · unfold Tree.leaves
      rw [if_neg rooted]
      exact iff_of_true ⟨rfl, rfl⟩ List.not_mem_nil

end Naja.Collections
