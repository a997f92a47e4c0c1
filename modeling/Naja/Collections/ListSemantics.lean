import Naja.Collections.Flattening
import Naja.Collections.TreeLeaves

/-! When the collections of a tower behave as the lists they stand for. -/

namespace Naja.Collections
open Worklist

variable {α : Type} [DecidableEq α]

/-- A collection that behaves as its list: a loop goes through its elements and ends, `size()` and
`empty()` tell their number, and a copied iterator has the elements left that the original has. -/
structure HasList (collection : Collection α) : Prop where
  visits : Gives (fun fuel => collection.visit fuel) collection.elements
  size : Gives (fun fuel => collection.size fuel) collection.elements.length
  empty : ∃ result, Gives (fun fuel => collection.empty fuel) result ∧
    (result = true ↔ collection.elements.length = 0)
  copies : ∀ steps, steps ≤ collection.elements.length →
    ∃ it, Gives (fun fuel => collection.iteratorAt fuel steps) it ∧
      Gives (fun fuel => Collection.visitFrom fuel (Iterator.copy it) collection.end_) (collection.elements.drop steps)

/-- The comparison of two collections ends and tells whether their lists are equal. -/
def ComparesLists (collection r : Collection α) : Prop :=
  ∃ result, Gives (fun fuel => collection.equals fuel r) result ∧ (result = true ↔ collection.elements = r.elements)

omit [DecidableEq α] in
theorem end_there (collection : BaseCollection α) : collection.end_.isNull = false := by
  cases collection <;> rfl

section Begin

variable (collection : BaseCollection α)

/-- The iterator of `begin()` runs through the elements. -/
def Begins : Prop :=
  ∃ it, Gives (fun fuel => begin_ fuel collection) it ∧ Remains collection.end_ it collection.elements

variable {collection}

theorem begins_parentType (below : Begins collection) : Begins (.parentType collection) := by
  obtain ⟨it, begun, remains⟩ := below
  refine ⟨.parentType it collection.end_, ?_, parentType_remains remains⟩
  refine Settles.succ (f := fun fuel => (begin_ fuel collection).bind fun it =>
    some (.parentType it collection.end_)) (fun _ => rfl) ?_
  exact Settles.bind (f := fun _ it => some (BaseIterator.parentType it collection.end_)) begun (Settles.const _)

theorem begins_subType (isSubType : α → Bool) (below : Begins collection) :
    Begins (.subType collection isSubType) := by
  obtain ⟨it, begun, remains⟩ := below
  obtain ⟨found, skipped, runs⟩ := (subType_selects isSubType collection.end_).remains remains
  refine ⟨.subType isSubType found collection.end_, ?_, runs⟩
  refine Settles.succ (f := fun fuel => (begin_ fuel collection).bind fun it =>
    (skip fuel (fun e => e.any isSubType) it collection.end_).bind fun it =>
      some (.subType isSubType it collection.end_)) (fun _ => rfl) ?_
  refine Settles.bind (f := fun fuel it => (skip fuel (fun e => e.any isSubType) it collection.end_).bind fun it =>
    some (BaseIterator.subType isSubType it collection.end_)) begun ?_
  exact Settles.bind (f := fun _ it => some (BaseIterator.subType isSubType it collection.end_)) skipped
    (Settles.const _)

theorem begins_filtered (filter : Option α → Bool) (below : Begins collection) :
    Begins (.filtered collection filter) := by
  obtain ⟨it, begun, remains⟩ := below
  obtain ⟨found, skipped, runs⟩ := (filtered_selects filter collection.end_).remains remains
  refine ⟨.filtered filter found collection.end_, ?_, runs⟩
  refine Settles.succ (f := fun fuel => (begin_ fuel collection).bind fun it =>
    (skip fuel filter it collection.end_).bind fun it => some (.filtered filter it collection.end_)) (fun _ => rfl) ?_
  refine Settles.bind (f := fun fuel it => (skip fuel filter it collection.end_).bind fun it =>
    some (BaseIterator.filtered filter it collection.end_)) begun ?_
  exact Settles.bind (f := fun _ it => some (BaseIterator.filtered filter it collection.end_)) skipped
    (Settles.const _)

theorem begin_transformer (transform : Option α → Option α) {it : BaseIterator α}
    (begun : Gives (fun fuel => begin_ fuel collection) it) :
    Gives (fun fuel => begin_ fuel (.transformer collection transform)) (transformed transform collection.end_ it) := by
  refine Settles.succ (f := fun fuel => (begin_ fuel collection).bind fun it =>
    some (transformed transform collection.end_ it)) (fun _ => rfl) ?_
  exact Settles.bind (f := fun _ it => some (transformed transform collection.end_ it)) begun (Settles.const _)

/-- What `begin()` of the flat collection takes over from the search. -/
theorem begin_flat (isReturnType : α → Bool) (flattener : Option α → Collection α) {it : BaseIterator α}
    (begun : Gives (fun fuel => begin_ fuel collection) it)
    (found : Option (BaseIterator α × BaseIterator α × Option α))
    (settles : Settles (fun fuel => findMaster fuel isReturnType flattener it) found) :
    Settles (fun fuel => begin_ fuel (.flat collection isReturnType flattener))
      (found.map (flatOver isReturnType flattener collection.end_)) := by
  refine Settles.succ (f := fun fuel => (begin_ fuel collection).bind fun it =>
    (findNextElement fuel isReturnType flattener it .null false).map
      (flatOver isReturnType flattener collection.end_)) (fun fuel => ?_) ?_
  · show ((begin_ fuel collection).bind fun it =>
      (findNextElement fuel isReturnType flattener it .null false).bind _) = _
    congr 1
    funext it
    cases findNextElement fuel isReturnType flattener it .null false <;> rfl
  · refine Settles.bind (f := fun fuel it => (findNextElement fuel isReturnType flattener it .null false).map
      (flatOver isReturnType flattener collection.end_)) begun (Settles.map _ ?_)
    exact Settles.succ (fun _ => rfl) settles

end Begin

mutual

theorem BaseCollection.begins : ∀ collection : BaseCollection α, collection.NullFree → Begins collection
  | .singleton object, _ =>
      ⟨_, Settles.succ (f := fun _ => some (.singleton object object.isSome)) (fun _ => rfl) (Settles.const _),
        singleton_remains object⟩
  | .stl container, _ =>
      ⟨_, Settles.succ (f := fun _ => some (.stl container 0)) (fun _ => rfl) (Settles.const _),
        stl_remains container 0 (Nat.zero_le _)⟩
  | .parentType collection, nullFree => begins_parentType (collection.begins nullFree)
  | .subType collection isSubType, nullFree => begins_subType isSubType (collection.begins nullFree)
  | .filtered collection filter, nullFree => begins_filtered filter (collection.begins nullFree)
  | .transformer collection transform, nullFree => by
      obtain ⟨it, begun, remains⟩ := collection.begins nullFree.1
      exact ⟨_, begin_transformer transform begun, transformer_remains transform remains nullFree.2⟩
  | .flat collection isReturnType flattener, nullFree => by
      obtain ⟨it, begun, remains⟩ := collection.begins nullFree.1
      obtain ⟨visited, arrives, ⟨found, settles, runs⟩, exact, full⟩ := finds_elements remains
        fun e member notReturned => (flattener e).begins (nullFree.2 e member notReturned).1
      have arrived : arrives = true := exact.mpr fun e member => by
        cases returned : e.any isReturnType with
        | true => exact Or.inl returned
        | false => exact Or.inr (nullFree.2 e member returned).2
      cases found with
      | none => exact absurd (runs.2.symm.trans arrived) Bool.false_ne_true
      | some found =>
          subst arrived
          have runs : Runs _ _ visited true := runs
          rw [full rfl] at runs
          exact ⟨_, begin_flat isReturnType flattener begun _ settles, runs⟩
  | .treeLeaves tree, nullFree => by
      obtain ⟨it, visited, arrives, begun, runs, exact⟩ := treeLeaves_runs tree
      obtain ⟨arrived, full⟩ := exact.mpr nullFree
      subst arrived
      subst full
      exact ⟨it, begun, runs⟩

theorem Collection.begins : ∀ collection : Collection α, collection.NullFree →
    ∀ base, collection = .of base → Begins base
  | .unset, _ => fun _ wrong => nomatch wrong
  | .of collection, nullFree => fun base same => by
      cases same
      exact collection.begins nullFree

end

section HasList

variable (collection : BaseCollection α)

theorem visit_gives {it : BaseIterator α} {list : List (Option α)} (begun : Gives (fun fuel => begin_ fuel collection) it)
    (remains : Remains collection.end_ it list) : Gives (fun fuel => (Collection.of collection).visit fuel) list :=
  Settles.bind (f := fun fuel it => Collection.visitFrom fuel it collection.end_) begun
    (remains.visitFrom (end_there collection))

theorem visit_fails {it : BaseIterator α} {list : List (Option α)} (begun : Gives (fun fuel => begin_ fuel collection) it)
    (lost : Runs collection.end_ it list false) : Fails (fun fuel => (Collection.of collection).visit fuel) :=
  Settles.bind (f := fun fuel it => Collection.visitFrom fuel it collection.end_) begun
    (lost.visitFrom_fails (end_there collection))

variable {collection}

theorem counted_gives {it : BaseIterator α} {list : List (Option α)}
    (begun : Gives (fun fuel => begin_ fuel collection) it) (remains : Remains collection.end_ it list) :
    Gives (fun fuel => (begin_ fuel collection).bind fun it => countElements fuel it collection.end_) list.length :=
  Settles.bind (f := fun fuel it => countElements fuel it collection.end_) begun remains.countElements

theorem invalid_gives {it : BaseIterator α} {list : List (Option α)}
    (begun : Gives (fun fuel => begin_ fuel collection) it) (remains : Remains collection.end_ it list) :
    Gives (fun fuel => (begin_ fuel collection).bind fun it => some (!it.isValid)) list.isEmpty := by
  refine Settles.bind (f := fun _ it => some (!it.isValid)) begun ?_
  rw [remains.isValid_eq, Bool.not_not]
  exact Settles.const _

theorem BaseCollection.size_gives : ∀ collection : BaseCollection α, collection.NullFree →
    Gives (fun fuel => collection.size fuel) collection.elements.length
  | .singleton none, _ => Settles.const (some 0)
  | .singleton (some _), _ => Settles.const (some 1)
  | .stl container, _ => Settles.const (some container.length)
  | .parentType collection, nullFree => collection.size_gives nullFree
  | .subType collection isSubType, nullFree => by
      obtain ⟨it, begun, remains⟩ := (BaseCollection.subType collection isSubType).begins nullFree
      exact counted_gives begun remains
  | .filtered collection filter, nullFree => by
      obtain ⟨it, begun, remains⟩ := (BaseCollection.filtered collection filter).begins nullFree
      exact counted_gives begun remains
  | .flat collection isReturnType flattener, nullFree => by
      obtain ⟨it, begun, remains⟩ := (BaseCollection.flat collection isReturnType flattener).begins nullFree
      exact counted_gives begun remains
  | .transformer collection transform, nullFree => by
      obtain ⟨it, begun, remains⟩ := (BaseCollection.transformer collection transform).begins nullFree
      exact counted_gives begun remains
  | .treeLeaves tree, nullFree => by
      obtain ⟨it, begun, remains⟩ := (BaseCollection.treeLeaves tree).begins nullFree
      by_cases rooted : tree.root.isSome = true
      · unfold BaseCollection.size
        simp only [if_pos rooted]
        exact counted_gives begun remains
      · unfold BaseCollection.size
        simp only [if_neg rooted, BaseCollection.elements, Tree.leaves]
        exact Settles.const (some 0)

theorem BaseCollection.empty_gives : ∀ collection : BaseCollection α, collection.NullFree →
    Gives (fun fuel => collection.empty fuel) collection.elements.isEmpty
  | .singleton none, _ => Settles.const (some true)
  | .singleton (some _), _ => Settles.const (some false)
  | .stl container, _ => Settles.const (some container.isEmpty)
  | .parentType collection, nullFree => collection.empty_gives nullFree
  | .subType collection isSubType, nullFree => by
      obtain ⟨it, begun, remains⟩ := (BaseCollection.subType collection isSubType).begins nullFree
      exact invalid_gives begun remains
  | .filtered collection filter, nullFree => by
      obtain ⟨it, begun, remains⟩ := (BaseCollection.filtered collection filter).begins nullFree
      exact invalid_gives begun remains
  | .flat collection isReturnType flattener, nullFree => by
      obtain ⟨it, begun, remains⟩ := (BaseCollection.flat collection isReturnType flattener).begins nullFree
      exact invalid_gives begun remains
  | .transformer collection transform, nullFree => by
      obtain ⟨it, begun, remains⟩ := (BaseCollection.transformer collection transform).begins nullFree
      exact invalid_gives begun remains
  | .treeLeaves tree, nullFree => by
      obtain ⟨it, begun, remains⟩ := (BaseCollection.treeLeaves tree).begins nullFree
      by_cases rooted : tree.root.isSome = true
      · unfold BaseCollection.empty
        simp only [if_pos rooted]
        exact invalid_gives begun remains
      · unfold BaseCollection.empty
        simp only [if_neg rooted, BaseCollection.elements, Tree.leaves]
        exact Settles.const (some true)

/-- The iterator some steps after `begin()` has the rest of the list left. -/
theorem iteratorAt_gives {it : BaseIterator α} {list : List (Option α)}
    (begun : Gives (fun fuel => begin_ fuel collection) it) (remains : Remains collection.end_ it list) (steps : Nat)
    (within : steps ≤ list.length) :
    ∃ at', Gives (fun fuel => (Collection.of collection).iteratorAt fuel steps) at' ∧
      Remains collection.end_ at' (list.drop steps) := by
  induction steps with
  | zero => exact ⟨it, begun, remains⟩
  | succ steps ih =>
      obtain ⟨at', reached, left⟩ := ih (by omega)
      have less : steps < list.length := by omega
      rw [List.drop_eq_getElem_cons less] at left
      generalize split : list[steps] :: list.drop (steps + 1) = rest at left
      cases left with
      | ends _ equal invalid => cases split
      | step _ next after _ apart valid moves onward =>
          obtain ⟨_, same⟩ := List.cons_eq_cons.mp split
          rw [same]
          refine ⟨next, ?_, onward⟩
          exact Settles.bind (f := fun fuel it => Iterator.increment fuel it) reached
            (increment_gives (isNull_of_valid at' valid) moves)

theorem hasList_of (collection : BaseCollection α) (nullFree : collection.NullFree) : HasList (.of collection) := by
  obtain ⟨it, begun, remains⟩ := collection.begins nullFree
  refine ⟨visit_gives collection begun remains, collection.size_gives nullFree, ?_, fun steps within => ?_⟩
  · refine ⟨_, collection.empty_gives nullFree, ?_⟩
    rw [List.isEmpty_iff_length_eq_zero]
    rfl
  · obtain ⟨at', reached, left⟩ := iteratorAt_gives begun remains steps within
    refine ⟨at', reached, ?_⟩
    simp only [copy_eq]
    exact left.visitFrom (end_there collection)

theorem begin_unset : Gives (fun fuel => (Collection.unset : Collection α).begin fuel) .null :=
  Settles.const _

theorem hasList_unset : HasList (.unset : Collection α) := by
  have stopped : Gives (fun fuel => forLoop (.null : BaseIterator α) fuel (.null, [])) (.null, []) :=
    whileDo_stop _ rfl
  have loop : Gives (fun fuel => Collection.visitFrom fuel (.null : BaseIterator α) .null) [] :=
    stopped.map Prod.snd
  refine ⟨?_, Settles.const _, ⟨true, Settles.const _, iff_of_true rfl rfl⟩, fun steps within => ?_⟩
  · exact Settles.bind (f := fun fuel it => Collection.visitFrom fuel it .null) begin_unset loop
  · have none_left : steps = 0 := Nat.le_zero.mp within
    subst none_left
    exact ⟨.null, Settles.const _, loop⟩

end HasList

section Compare

theorem compareFrom_stop (it rit endIt : BaseIterator α) (equal : Iterator.equals it endIt = true) :
    Gives (fun fuel => Collection.compareFrom fuel it rit endIt) true := by
  refine Settles.succ (f := fun _ => some true) (fun fuel => if_neg ?_) (Settles.const _)
  rw [equal]
  exact Bool.false_ne_true

theorem compareFrom_gives {endIt rEnd it : BaseIterator α} {list : List (Option α)} (remains : Remains endIt it list)
    (endThere : endIt.isNull = false) :
    ∀ (rit : BaseIterator α) (rList : List (Option α)), Remains rEnd rit rList → list.length = rList.length →
      Gives (fun fuel => Collection.compareFrom fuel it rit endIt) (decide (list = rList)) := by
  refine Remains.induct (fun it equal invalid => ?_) (fun it next rest apart valid moves after ih => ?_) remains
  · intro rit rList _ same
    have empty : rList = [] := List.eq_nil_of_length_eq_zero same.symm
    rw [decide_eq_true empty.symm]
    exact compareFrom_stop it rit endIt
      ((equals_of_there it endIt (isNull_of_equal it endIt equal).1 endThere).trans equal)
  · intro rit rList rRemains same
    cases rRemains with
    | ends _ rEqual rInvalid => exact absurd same (by simp)
    | step _ rNext rRest _ rApart rValid rMoves rAfter =>
        have there := isNull_of_valid it valid
        have rThere := isNull_of_valid rit rValid
        have goes : (!Iterator.equals it endIt) = true := Runs.equals_step endThere apart there
        by_cases head : it.getElement = rit.getElement
        · have tails : decide (it.getElement :: rest = rit.getElement :: rRest) = decide (rest = rRest) := by
            rw [head]
            simp
          rw [tails]
          refine Settles.succ (f := fun fuel => (Iterator.increment fuel it).bind fun it =>
            (Iterator.increment fuel rit).bind fun rit => Collection.compareFrom fuel it rit endIt) (fun fuel => ?_) ?_
          · exact (if_pos goes).trans (if_neg fun differ => differ head)
          · refine Settles.bind (f := fun fuel it => (Iterator.increment fuel rit).bind fun rit =>
              Collection.compareFrom fuel it rit endIt) (increment_gives there moves) ?_
            exact Settles.bind (f := fun fuel rit => Collection.compareFrom fuel next rit endIt)
              (increment_gives rThere rMoves) (ih rNext rRest rAfter (Nat.succ.inj same))
        · rw [decide_eq_false fun lists => head (List.cons_eq_cons.mp lists).1]
          refine Settles.succ (f := fun _ => some false) (fun fuel => ?_) (Settles.const _)
          exact (if_pos goes).trans (if_pos head)

theorem Collection.size_gives (collection : Collection α) (nullFree : collection.NullFree) :
    Gives (fun fuel => collection.size fuel) collection.elements.length := by
  cases collection with
  | unset => exact Settles.const (some 0)
  | of collection => exact BaseCollection.size_gives collection nullFree

/-- The loop of the comparison, for two collections of one size. -/
theorem loop_gives (collection r : Collection α) (nullFree : collection.NullFree) (rNullFree : r.NullFree)
    (same : collection.elements.length = r.elements.length) :
    Gives (fun fuel => (collection.begin fuel).bind fun it =>
      (r.begin fuel).bind fun rit => Collection.compareFrom fuel it rit collection.end_)
      (decide (collection.elements = r.elements)) := by
  have begins : ∀ c : Collection α, c.NullFree → ∃ it, Gives (fun fuel => c.begin fuel) it := by
    intro c nullFree
    cases c with
    | unset => exact ⟨.null, Settles.const _⟩
    | of c =>
        obtain ⟨it, begun, _⟩ := BaseCollection.begins c nullFree
        exact ⟨it, begun⟩
  cases collection with
  | unset =>
      obtain ⟨rit, rBegun⟩ := begins r rNullFree
      have empty : r.elements = [] := List.eq_nil_of_length_eq_zero same.symm
      rw [empty]
      refine Settles.bind (f := fun fuel it => (r.begin fuel).bind fun rit =>
        Collection.compareFrom fuel it rit .null) begin_unset ?_
      exact Settles.bind (f := fun fuel rit => Collection.compareFrom fuel .null rit .null) rBegun
        (compareFrom_stop .null rit .null rfl)
  | of base =>
      obtain ⟨it, begun, remains⟩ := BaseCollection.begins base nullFree
      refine Settles.bind (f := fun fuel it => (r.begin fuel).bind fun rit =>
        Collection.compareFrom fuel it rit base.end_) begun ?_
      cases r with
      | unset =>
          have empty : base.elements = [] := List.eq_nil_of_length_eq_zero same
          rw [empty] at remains
          have equal := remains.isEqual_eq
          have elements : decide ((Collection.of base).elements = (Collection.unset : Collection α).elements) = true :=
            decide_eq_true empty
          rw [elements]
          refine Settles.bind (f := fun fuel rit => Collection.compareFrom fuel it rit base.end_) begin_unset ?_
          exact compareFrom_stop it .null base.end_
            ((equals_of_there it base.end_ (isNull_of_equal it base.end_ equal).1 (end_there base)).trans equal)
      | of rBase =>
          obtain ⟨rit, rBegun, rRemains⟩ := BaseCollection.begins rBase rNullFree
          exact Settles.bind (f := fun fuel rit => Collection.compareFrom fuel it rit base.end_) rBegun
            (compareFrom_gives remains (end_there base) rit rBase.elements rRemains same)

theorem comparesLists_of (collection r : Collection α) (nullFree : collection.NullFree) (rNullFree : r.NullFree) :
    ComparesLists collection r := by
  refine ⟨decide (collection.elements = r.elements), ?_, decide_eq_true_iff⟩
  refine Settles.bind (f := fun fuel size => (r.size fuel).bind fun rSize =>
    if size = rSize then
      (collection.begin fuel).bind fun it =>
        (r.begin fuel).bind fun rit => Collection.compareFrom fuel it rit collection.end_
    else some false) (collection.size_gives nullFree) ?_
  refine Settles.bind (f := fun fuel rSize =>
    if collection.elements.length = rSize then
      (collection.begin fuel).bind fun it =>
        (r.begin fuel).bind fun rit => Collection.compareFrom fuel it rit collection.end_
    else some false) (r.size_gives rNullFree) ?_
  by_cases same : collection.elements.length = r.elements.length
  · simp only [if_pos same]
    exact loop_gives collection r nullFree rNullFree same
  · simp only [if_neg same]
    rw [decide_eq_false fun equal => same (congrArg List.length equal)]
    exact Settles.const _

end Compare

section Exact

mutual

theorem BaseCollection.throughout : ∀ collection : BaseCollection α, collection.NullFree →
    collection.Throughout HasList
  | .singleton object, nullFree => hasList_of (.singleton object) nullFree
  | .stl container, nullFree => hasList_of (.stl container) nullFree
  | .parentType collection, nullFree => ⟨hasList_of (.parentType collection) nullFree, collection.throughout nullFree⟩
  | .subType collection isSubType, nullFree =>
      ⟨hasList_of (.subType collection isSubType) nullFree, collection.throughout nullFree⟩
  | .filtered collection filter, nullFree =>
      ⟨hasList_of (.filtered collection filter) nullFree, collection.throughout nullFree⟩
  | .flat collection isReturnType flattener, nullFree =>
      ⟨hasList_of (.flat collection isReturnType flattener) nullFree, collection.throughout nullFree.1,
        fun e member notReturned => (flattener e).throughout (nullFree.2 e member notReturned).1⟩
  | .transformer collection transform, nullFree =>
      ⟨hasList_of (.transformer collection transform) nullFree, collection.throughout nullFree.1⟩
  | .treeLeaves tree, nullFree => hasList_of (.treeLeaves tree) nullFree

theorem Collection.throughout : ∀ collection : Collection α, collection.NullFree → collection.Throughout HasList
  | .unset, _ => hasList_unset
  | .of collection, nullFree => collection.throughout nullFree

end

theorem transformer_nonNull (collection : BaseCollection α) (transform : Option α → Option α)
    (nullFree : collection.NullFree) (lists : HasList (.of (.transformer collection transform))) :
    ∀ e ∈ collection.elements, transform e ≠ none := by
  obtain ⟨it, begun, remains⟩ := collection.begins nullFree
  intro e member null
  obtain ⟨visited, lost⟩ := transformer_stuck transform remains ⟨e, member, null⟩
  have fails := visit_fails (.transformer collection transform) (begin_transformer transform begun) lost
  exact Option.some_ne_none _ (lists.visits.unique fails)

theorem flat_flattens (collection : BaseCollection α) (isReturnType : α → Bool)
    (flattener : Option α → Collection α) (nullFree : collection.NullFree)
    (inner : ∀ e ∈ collection.elements, e.any isReturnType = false → (flattener e).NullFree)
    (lists : HasList (.of (.flat collection isReturnType flattener))) :
    ∀ e ∈ collection.elements, Flattens isReturnType flattener e := by
  obtain ⟨it, begun, remains⟩ := collection.begins nullFree
  obtain ⟨visited, arrives, ⟨found, settles, runs⟩, exact, _⟩ := finds_elements remains
    fun e member notReturned => (flattener e).begins (inner e member notReturned)
  refine exact.mp ?_
  have flatBegun := begin_flat isReturnType flattener begun found settles
  cases found with
  | none =>
      have fails := Settles.bind_none
        (fun fuel it => Collection.visitFrom fuel it (BaseCollection.flat collection isReturnType flattener).end_) flatBegun
      exact absurd (lists.visits.unique fails) (Option.some_ne_none _)
  | some found =>
      by_contra lost
      have lost : arrives = false := Bool.eq_false_iff.mpr lost
      subst lost
      have fails := visit_fails (.flat collection isReturnType flattener) flatBegun runs
      exact Option.some_ne_none _ (lists.visits.unique fails)

theorem treeLeaves_nonNull (tree : Tree α) (lists : HasList (.of (.treeLeaves tree))) : none ∉ tree.leaves := by
  obtain ⟨it, visited, arrives, begun, runs, exact⟩ := treeLeaves_runs tree
  refine exact.mp ?_
  cases arrives with
  | false =>
      have fails := visit_fails (.treeLeaves tree) begun runs
      exact absurd (lists.visits.unique fails) (Option.some_ne_none _)
  | true =>
      have visits := visit_gives (.treeLeaves tree) begun runs
      exact ⟨rfl, Option.some.inj (visits.unique lists.visits)⟩

mutual

theorem BaseCollection.nullFree : ∀ collection : BaseCollection α, collection.Throughout HasList →
    collection.NullFree
  | .singleton _, _ => trivial
  | .stl _, _ => trivial
  | .parentType collection, lists => collection.nullFree lists.2
  | .subType collection _, lists => collection.nullFree lists.2
  | .filtered collection _, lists => collection.nullFree lists.2
  | .flat collection isReturnType flattener, lists => by
      have below := collection.nullFree lists.2.1
      have inner : ∀ e ∈ collection.elements, e.any isReturnType = false → (flattener e).NullFree :=
        fun e member notReturned => (flattener e).nullFree (lists.2.2 e member notReturned)
      refine ⟨below, fun e member notReturned => ⟨inner e member notReturned, ?_⟩⟩
      refine (flat_flattens collection isReturnType flattener below inner lists.1 e member).resolve_left fun returned => ?_
      rw [notReturned] at returned
      cases returned
  | .transformer collection transform, lists => by
      have below := collection.nullFree lists.2
      exact ⟨below, transformer_nonNull collection transform below lists.1⟩
  | .treeLeaves tree, lists => treeLeaves_nonNull tree lists

theorem Collection.nullFree : ∀ collection : Collection α, collection.Throughout HasList → collection.NullFree
  | .unset, _ => trivial
  | .of collection, lists => collection.nullFree lists

end

/-- Two towers behave as lists, in all their parts and in their comparison, exactly when no null
pointer comes up among the results of transformers, the leaves and the flattened elements. -/
theorem collections_are_lists (collection r : Collection α) :
    (collection.Throughout HasList ∧ r.Throughout HasList ∧ ComparesLists collection r) ↔
      collection.NullFree ∧ r.NullFree := by
  constructor
  · rintro ⟨lists, rLists, _⟩
    exact ⟨collection.nullFree lists, r.nullFree rLists⟩
  · rintro ⟨nullFree, rNullFree⟩
    exact ⟨collection.throughout nullFree, r.throughout rNullFree, comparesLists_of collection r nullFree rNullFree⟩

/-- A transformer with a null result for the only element. -/
def nullResult : BaseCollection Nat :=
  .transformer (.stl [some 0]) fun _ => none

def nullIterator : BaseIterator Nat :=
  .transformer (fun _ => none) (.stl [some 0] 0) (.stl [some 0] 1) none

theorem progress_nullIterator (fuel : Nat) (next : BaseIterator Nat) (moved : progress fuel nullIterator = some next) :
    next = nullIterator := by
  cases fuel with
  | zero => cases moved
  | succ fuel => exact (Option.some.inj moved).symm

theorem size_nullResult (fuel : Nat) : nullResult.size fuel = none := by
  have counts : countElements fuel nullIterator nullResult.end_ = none := by
    have never : countLoop nullResult.end_ fuel (nullIterator, 0) = none := by
      refine whileDo_forever (fun s => s.1 = nullIterator) ?_ ?_ fuel (nullIterator, 0) rfl
      · intro s same
        rw [same]
        rfl
      · intro s fuel s' same step
        rw [same] at step
        cases moved : progress fuel nullIterator with
        | none =>
            rw [moved] at step
            cases step
        | some next =>
            rw [moved] at step
            cases step
            exact progress_nullIterator fuel next moved
    show (countLoop nullResult.end_ fuel (nullIterator, 0)).map (·.2) = none
    rw [never]
    rfl
  match fuel, counts with
  | 0, _ => rfl
  | 1, _ => rfl
  | _ + 2, counts => exact counts

/-- Its list has one element, yet `empty()` holds and `size()` never ends. -/
theorem nullResult_not_list :
    ¬ HasList (.of nullResult) ∧ nullResult.elements = [none] ∧ (∀ fuel, nullResult.size fuel = none) ∧
      Gives (fun fuel => nullResult.empty fuel) true := by
  refine ⟨fun lists => ?_, rfl, size_nullResult, 2, fun fuel bound => ?_⟩
  · obtain ⟨enough, given⟩ := lists.size
    have counted := given enough le_rfl
    exact Option.some_ne_none _ (counted.symm.trans (size_nullResult enough))
  · match fuel, bound with
    | _ + 2, _ => rfl

end Exact

end Naja.Collections
