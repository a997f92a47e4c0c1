import Naja.Collections.Combinators

/-! The runs of the flat collection: its iterator goes through the collection of one element after
the other, and a null element of such a collection is what it stops at for good. -/

namespace Naja.Collections
open Worklist

variable {α : Type} [DecidableEq α] (isReturnType : α → Bool) (flattener : Option α → Collection α)

/-- The elements the list has in the place of one element. -/
def flattened (e : Option α) : List (Option α) :=
  if e.any isReturnType then [e] else (flattener e).elements

/-- The collection of an element is set and has no null element. -/
def Flattens (e : Option α) : Prop :=
  e.any isReturnType = true ∨ (flattener e).isSet = true ∧ none ∉ (flattener e).elements

/-- The iterator of the flat collection with what `findNextElement` has found. -/
def flatOver (endIt : BaseIterator α) (found : BaseIterator α × BaseIterator α × Option α) : BaseIterator α :=
  .flat isReturnType flattener found.1 endIt found.2.1 found.2.2

/-- The end iterator of the flat collection. -/
abbrev flatEnd (endIt : BaseIterator α) : BaseIterator α :=
  .flat isReturnType flattener endIt endIt .null none

/-- The run after a search for the next element, which crashes or finds an iterator. -/
def Finds (endIt it : BaseIterator α) (list : List (Option α)) (arrives : Bool) : Prop :=
  ∃ found, Settles (fun fuel => findMaster fuel isReturnType flattener it) found ∧
    match found with
    | some found => Runs (flatEnd isReturnType flattener endIt) (flatOver isReturnType flattener endIt found) list arrives
    | none => list = [] ∧ arrives = false

variable {isReturnType flattener} {endIt : BaseIterator α}

theorem flat_apart (it flattenIt : BaseIterator α) (element : Option α) (apart : it.isEqual endIt = false) :
    (BaseIterator.flat isReturnType flattener it endIt flattenIt element).isEqual
      (flatEnd isReturnType flattener endIt) = false := by
  show (it.isEqual endIt && _) = false
  rw [apart]
  rfl

/-- What `progress` of the flat iterator takes over from the search. -/
theorem progress_flat (it flattenIt : BaseIterator α) (element : Option α) (isSome : element.isSome = true)
    (found : Option (BaseIterator α × BaseIterator α × Option α))
    (settles : Settles (fun fuel => findNextElement fuel isReturnType flattener it flattenIt true) found) :
    Settles (fun fuel => progress fuel (.flat isReturnType flattener it endIt flattenIt element))
      (found.map (flatOver isReturnType flattener endIt)) := by
  refine Settles.succ (f := fun fuel => (findNextElement fuel isReturnType flattener it flattenIt true).map
    (flatOver isReturnType flattener endIt)) (fun fuel => ?_) (settles.map _)
  refine (if_pos isSome).trans ?_
  cases findNextElement fuel isReturnType flattener it flattenIt true <;> rfl

/-- The collection of the current element is exhausted, or the element has none. -/
def Exhausted (flattenIt : BaseIterator α) : Prop :=
  flattenIt.isNull = true ∨
    flattenIt.isNull = false ∧ ∃ last : BaseIterator α, Gives (fun fuel => progress fuel flattenIt) last ∧ last.isValid = false

theorem findNextElement_inside (it flattenIt : BaseIterator α) (there : flattenIt.isNull = false) (fuel : Nat) :
    findNextElement (fuel + 1) isReturnType flattener it flattenIt true =
      (progress fuel flattenIt).bind fun flattenIt =>
        if flattenIt.isValid then some (it, flattenIt, flattenIt.getElement)
        else (if it.isValid then progress fuel it else some it).bind fun it =>
          findMaster fuel isReturnType flattener it := by
  refine (if_neg (Bool.eq_false_iff.mp there)).trans ?_
  simp only [if_true, Bool.true_and]

theorem findNextElement_exhausted (it next flattenIt : BaseIterator α) (valid : it.isValid = true)
    (moves : Gives (fun fuel => progress fuel it) next) (exhausted : Exhausted flattenIt)
    (found : Option (BaseIterator α × BaseIterator α × Option α))
    (settles : Settles (fun fuel => findMaster fuel isReturnType flattener next) found) :
    Settles (fun fuel => findNextElement fuel isReturnType flattener it flattenIt true) found := by
  have onward : Settles (fun fuel => (if it.isValid then progress fuel it else some it).bind fun it =>
      findMaster fuel isReturnType flattener it) found := by
    simp only [valid, if_true]
    exact Settles.bind (f := fun fuel it => findMaster fuel isReturnType flattener it) moves settles
  cases exhausted with
  | inl isNull =>
      refine Settles.succ (fun fuel => (if_pos isNull).trans ?_) onward
      simp only [Bool.true_and]
  | inr ended =>
      obtain ⟨there, last, moved, invalid⟩ := ended
      refine Settles.succ (findNextElement_inside it flattenIt there) (Settles.bind (f := fun fuel flattenIt =>
        if flattenIt.isValid then some (it, flattenIt, flattenIt.getElement)
        else (if it.isValid then progress fuel it else some it).bind fun it =>
          findMaster fuel isReturnType flattener it) moved ?_)
      simp only [invalid, if_false, Bool.false_eq_true]
      exact onward

/-- From an element with nothing left in its collection the run goes on with the search below. -/
theorem runs_onward (it next flattenIt : BaseIterator α) (element : Option α) (isSome : element.isSome = true)
    (apart : it.isEqual endIt = false) (valid : it.isValid = true) (moves : Gives (fun fuel => progress fuel it) next)
    (exhausted : Exhausted flattenIt) (list : List (Option α)) (arrives : Bool)
    (finds : Finds isReturnType flattener endIt next list arrives) :
    ∃ visited, Runs (flatEnd isReturnType flattener endIt)
        (.flat isReturnType flattener it endIt flattenIt element) visited arrives ∧
      (arrives = true → visited = element :: list) := by
  obtain ⟨found, settles, after⟩ := finds
  have moved : Settles (fun fuel => progress fuel (.flat isReturnType flattener it endIt flattenIt element))
      (found.map (flatOver isReturnType flattener endIt)) := progress_flat it flattenIt element isSome found
    (findNextElement_exhausted it next flattenIt valid moves exhausted found settles)
  have distinct : (BaseIterator.flat isReturnType flattener it endIt flattenIt element).isEqual
      (flatEnd isReturnType flattener endIt) = false := flat_apart it flattenIt element apart
  cases found with
  | none =>
      obtain ⟨_, lost⟩ := after
      subst lost
      exact ⟨[], Runs.crashes _ rfl distinct moved, fun wrong => Bool.noConfusion wrong⟩
  | some found => exact ⟨element :: list, Runs.step _ _ _ _ distinct isSome moved after, fun _ => rfl⟩

/-- The run through the collection of one element, and on with the search below after it. -/
theorem runs_inside (it next : BaseIterator α) (apart : it.isEqual endIt = false) (valid : it.isValid = true)
    (moves : Gives (fun fuel => progress fuel it) next) (list : List (Option α)) (arrives : Bool)
    (finds : Finds isReturnType flattener endIt next list arrives) {innerEnd flattenIt : BaseIterator α}
    {inner : List (Option α)} (run : Remains innerEnd flattenIt inner) :
    inner ≠ [] → ∃ visited, Runs (flatEnd isReturnType flattener endIt)
        (.flat isReturnType flattener it endIt flattenIt flattenIt.getElement) visited (arrives && decide (none ∉ inner)) ∧
      ((arrives && decide (none ∉ inner)) = true → visited = inner ++ list) := by
  refine Remains.induct (fun flattenIt equal invalid => ?_)
    (fun flattenIt after rest innerApart innerValid innerMoves remains ih => ?_) run
  · intro nonempty
    exact absurd rfl nonempty
  · intro _
    have distinct : (BaseIterator.flat isReturnType flattener it endIt flattenIt flattenIt.getElement).isEqual
        (flatEnd isReturnType flattener endIt) = false := flat_apart it flattenIt flattenIt.getElement apart
    cases element : flattenIt.getElement with
    | none =>
        have lost : (arrives && decide (none ∉ (none : Option α) :: rest)) = false := by
          rw [decide_eq_false (fun absent => absent List.mem_cons_self), Bool.and_false]
        rw [lost]
        refine ⟨[], Runs.stuck _ rfl (by rw [← element]; exact distinct) fun fuel next moved => ?_,
          fun wrong => Bool.noConfusion wrong⟩
        cases fuel with
        | zero => cases moved
        | succ fuel => exact (Option.some.inj moved).symm
    | some object =>
        have same : decide (none ∉ some object :: rest) = decide (none ∉ rest) := by simp
        rw [same, ← element]
        have isSome : flattenIt.getElement.isSome = true := by rw [element]; rfl
        have there := isNull_of_valid flattenIt innerValid
        cases rest with
        | nil =>
            have exhausted : Exhausted flattenIt := Or.inr ⟨there, after, innerMoves, remains.isValid_eq⟩
            rw [decide_eq_true List.not_mem_nil, Bool.and_true]
            exact runs_onward it next flattenIt _ isSome apart valid moves exhausted list arrives finds
        | cons second rest =>
            obtain ⟨visited, runs, full⟩ := ih (List.cons_ne_nil _ _)
            have moved : Gives (fun fuel => progress fuel
                (.flat isReturnType flattener it endIt flattenIt flattenIt.getElement))
                (.flat isReturnType flattener it endIt after after.getElement) := by
              refine progress_flat it flattenIt _ isSome (some (it, after, after.getElement)) ?_
              refine Settles.succ (findNextElement_inside it flattenIt there) (Settles.bind (f := fun fuel flattenIt =>
                if flattenIt.isValid then some (it, flattenIt, flattenIt.getElement)
                else (if it.isValid then progress fuel it else some it).bind fun it =>
                  findMaster fuel isReturnType flattener it) innerMoves ?_)
              simp only [remains.isValid_eq]
              exact Settles.const _
            refine ⟨flattenIt.getElement :: visited, Runs.step _ _ _ _ distinct isSome moved runs, fun both => ?_⟩
            rw [full both]
            rfl

/-- The collection of every element gives its list, if the element needs one. -/
def Readable (isReturnType : α → Bool) (flattener : Option α → Collection α) (e : Option α) : Prop :=
  e.any isReturnType = false → ∀ collection, flattener e = .of collection →
    ∃ it, Gives (fun fuel => begin_ fuel collection) it ∧ Remains collection.end_ it collection.elements

/-- The search and the run after it go through the list exactly when every element flattens. -/
theorem finds_elements {it : BaseIterator α} {list : List (Option α)} (run : Remains endIt it list) :
    (∀ e ∈ list, Readable isReturnType flattener e) →
      ∃ visited arrives, Finds isReturnType flattener endIt it visited arrives ∧
        (arrives = true ↔ ∀ e ∈ list, Flattens isReturnType flattener e) ∧
        (arrives = true → visited = list.flatMap (flattened isReturnType flattener)) := by
  refine Remains.induct (fun it equal invalid => ?_) (fun it next rest apart valid moves after ih => ?_) run
  · intro _
    refine ⟨[], true, ⟨some (it, .null, none), ?_, ?_⟩, ?_, fun _ => rfl⟩
    · refine Settles.succ (f := fun _ => some (it, .null, none)) (fun fuel => ?_) (Settles.const _)
      exact (if_neg (Bool.eq_false_iff.mp invalid)).trans rfl
    · refine Runs.ends _ ?_ rfl
      show (it.isEqual endIt && true) = true
      rw [equal]
      rfl
    · exact ⟨fun _ e member => absurd member List.not_mem_nil, fun _ => rfl⟩
  · intro readable
    obtain ⟨visited, arrives, finds, exact, full⟩ := ih fun e member => readable e (List.mem_cons_of_mem _ member)
    have head := readable it.getElement List.mem_cons_self
    have forall_cons : (∀ e ∈ it.getElement :: rest, Flattens isReturnType flattener e) ↔
        Flattens isReturnType flattener it.getElement ∧ arrives = true := by
      rw [List.forall_mem_cons, exact]
    cases returned : it.getElement.any isReturnType with
    | true =>
        have isSome : it.getElement.isSome = true := by
          cases element : it.getElement with
          | none =>
              rw [element] at returned
              cases returned
          | some _ => rfl
        obtain ⟨visited', runs, full'⟩ := runs_onward it next .null it.getElement isSome apart valid moves
          (Or.inl rfl) visited arrives finds
        refine ⟨visited', arrives, ⟨some (it, .null, it.getElement), ?_, runs⟩, ?_, fun arrived => ?_⟩
        · refine Settles.succ (f := fun _ => some (it, .null, it.getElement)) (fun fuel => ?_) (Settles.const _)
          exact (if_pos valid).trans (if_pos returned)
        · rw [forall_cons]
          exact ⟨fun arrived => ⟨Or.inl returned, arrived⟩, fun both => both.2⟩
        · rw [full' arrived, full arrived, List.flatMap_cons, flattened, if_pos returned]
          rfl
    | false =>
        have notReturned : ¬ it.getElement.any isReturnType = true := by rw [returned]; exact Bool.false_ne_true
        have step : ∀ fuel, findMaster (fuel + 1) isReturnType flattener it = _ :=
          fun fuel => (if_pos valid).trans (if_neg notReturned)
        cases given : flattener it.getElement with
        | unset =>
            refine ⟨[], false, ⟨none, ?_, rfl, rfl⟩, ?_, fun wrong => Bool.noConfusion wrong⟩
            · refine Settles.succ (f := fun _ => none) (fun fuel => ?_) (Settles.const none)
              rw [step fuel, given]
            · rw [forall_cons]
              refine iff_of_false Bool.false_ne_true fun both => ?_
              cases both.1 with
              | inl wrong => exact notReturned wrong
              | inr set =>
                  rw [given] at set
                  exact Bool.false_ne_true set.1
        | of collection =>
            obtain ⟨flattenIt, begun, remains⟩ := head returned collection given
            have decided : (arrives && decide (none ∉ collection.elements)) = true ↔
                ∀ e ∈ it.getElement :: rest, Flattens isReturnType flattener e := by
              rw [forall_cons, Bool.and_eq_true, decide_eq_true_eq, Flattens, given]
              constructor
              · intro both
                exact ⟨Or.inr ⟨rfl, both.2⟩, both.1⟩
              · intro both
                exact ⟨both.2, (both.1.resolve_left notReturned).2⟩
            have list_cons : (it.getElement :: rest).flatMap (flattened isReturnType flattener) =
                collection.elements ++ rest.flatMap (flattened isReturnType flattener) := by
              rw [List.flatMap_cons, flattened, if_neg notReturned, given]
              rfl
            cases empty : collection.elements.isEmpty with
            | true =>
                have none_left : collection.elements = [] := List.isEmpty_iff.mp empty
                obtain ⟨found, settles, runs⟩ := finds
                refine ⟨visited, arrives, ⟨found, ?_, runs⟩, ?_, fun arrived => ?_⟩
                · refine Settles.succ step ?_
                  simp only [given]
                  refine Settles.bind (f := fun fuel flattenIt => if flattenIt.isValid then
                    some (it, flattenIt, flattenIt.getElement)
                    else (progress fuel it).bind fun it => findMaster fuel isReturnType flattener it) begun ?_
                  simp only [remains.isValid_eq, empty, Bool.not_true, Bool.false_eq_true, if_false]
                  exact Settles.bind (f := fun fuel it => findMaster fuel isReturnType flattener it) moves settles
                · rw [← decided, none_left, decide_eq_true List.not_mem_nil, Bool.and_true]
                · rw [full arrived, list_cons, none_left]
                  rfl
            | false =>
                have nonempty : collection.elements ≠ [] := fun nil => by
                  rw [nil] at empty
                  cases empty
                obtain ⟨visited', runs, full'⟩ := runs_inside it next apart valid moves visited arrives finds remains nonempty
                refine ⟨visited', _, ⟨some (it, flattenIt, flattenIt.getElement), ?_, runs⟩, decided, fun arrived => ?_⟩
                · refine Settles.succ step ?_
                  simp only [given]
                  refine Settles.bind (f := fun fuel flattenIt => if flattenIt.isValid then
                    some (it, flattenIt, flattenIt.getElement)
                    else (progress fuel it).bind fun it => findMaster fuel isReturnType flattener it) begun ?_
                  simp only [remains.isValid_eq, empty, Bool.not_false, if_true]
                  exact Settles.const _
                · rw [full' arrived, full ((Bool.and_eq_true _ _).mp arrived).1, list_cons]

end Naja.Collections
