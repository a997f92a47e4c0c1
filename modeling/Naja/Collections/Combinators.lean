import Naja.Collections.Iteration

/-! The runs of the iterators of the base collections, the conversions, the filters and the
transformers, from the runs of the iterators below them. -/

namespace Naja.Collections
open Worklist

variable {α : Type} [DecidableEq α]

section Bases

theorem stl_remains (container : List (Option α)) (it : Nat) (inside : it ≤ container.length) :
    Remains (BaseCollection.stl container).end_ (.stl container it) (container.drop it) := by
  induction left : container.length - it generalizing it with
  | zero =>
      have last : it = container.length := by omega
      subst last
      rw [List.drop_length]
      refine Runs.ends _ ?_ ?_
      · exact decide_eq_true rfl
      · exact decide_eq_false (fun differs => differs rfl)
  | succ left ih =>
      have less : it < container.length := by omega
      have next := ih (it + 1) (by omega) (by omega)
      have element : (BaseIterator.stl container it).getElement = container[it] := by
        show (container[it]?).join = container[it]
        rw [List.getElem?_eq_getElem less]
        rfl
      rw [List.drop_eq_getElem_cons less, ← element]
      refine Runs.step _ _ _ _ ?_ ?_ ?_ next
      · exact decide_eq_false (Nat.ne_of_lt less)
      · exact decide_eq_true (Nat.ne_of_lt less)
      · exact Settles.succ (fun _ => rfl) (Settles.const _)

theorem singleton_remains (object : Option α) :
    Remains (BaseCollection.singleton object).end_ (.singleton object object.isSome)
      (BaseCollection.singleton object).elements := by
  cases object with
  | none => exact Runs.ends _ (decide_eq_true ⟨rfl, rfl⟩) rfl
  | some object =>
      refine Runs.step _ (.singleton (some object) false) [] true ?_ rfl ?_ ?_
      · exact decide_eq_false (fun same => Bool.noConfusion same.2)
      · exact Settles.succ (fun _ => rfl) (Settles.const _)
      · exact Runs.ends _ (decide_eq_true ⟨rfl, rfl⟩) rfl

end Bases

section Conversions

variable {endIt : BaseIterator α}

theorem parentType_remains {it : BaseIterator α} {list : List (Option α)} (run : Remains endIt it list) :
    Remains (.parentType endIt endIt) (.parentType it endIt) list := by
  refine Remains.induct (fun it equal invalid => ?_) (fun it next rest apart valid moves after ih => ?_) run
  · refine Runs.ends _ equal ?_
    show (!it.isEqual endIt) = false
    rw [equal]
    rfl
  · have goes : (BaseIterator.parentType it endIt).isValid = true := by
      show (!it.isEqual endIt) = true
      rw [apart]
      rfl
    refine Runs.step (.parentType it endIt) (.parentType next endIt) rest true apart goes ?_ ih
    refine Settles.succ (f := fun fuel => (progress fuel it).bind fun it => some (.parentType it endIt)) ?_ ?_
    · intro fuel
      exact if_pos goes
    · exact Settles.bind (f := fun _ it => some (BaseIterator.parentType it endIt)) moves (Settles.const _)

theorem skip_stop (filter : Option α → Bool) (it : BaseIterator α)
    (stops : (!it.isEqual endIt && !filter it.getElement) = false) :
    Gives (fun fuel => skip fuel filter it endIt) it := by
  refine Settles.succ (f := fun _ => some it) (fun fuel => ?_) (Settles.const (some it))
  refine if_neg ?_
  rw [stops]
  exact Bool.false_ne_true

theorem skip_next (filter : Option α → Bool) (it next found : BaseIterator α) (apart : it.isEqual endIt = false)
    (refused : filter it.getElement = false) (moves : Gives (fun fuel => progress fuel it) next)
    (given : Gives (fun fuel => skip fuel filter next endIt) found) :
    Gives (fun fuel => skip fuel filter it endIt) found := by
  refine Settles.succ (f := fun fuel => (progress fuel it).bind fun it => skip fuel filter it endIt) ?_ ?_
  · intro fuel
    refine if_pos ?_
    rw [apart, refused]
    rfl
  · exact Settles.bind (f := fun fuel it => skip fuel filter it endIt) moves given

/-- The iterators of the sub-type and of the filtered collection: they stand on an iterator below and
move it past what they do not accept. -/
structure Selects (filter : Option α → Bool) (endIt : BaseIterator α) (wrap : BaseIterator α → BaseIterator α) :
    Prop where
  isEqual (it : BaseIterator α) : (wrap it).isEqual (wrap endIt) = it.isEqual endIt
  isValid (it : BaseIterator α) : (wrap it).isValid = !it.isEqual endIt
  getElement (it : BaseIterator α) : (wrap it).getElement = it.getElement
  progress (it : BaseIterator α) (apart : it.isEqual endIt = false) (fuel : Nat) :
    Collections.progress (fuel + 1) (wrap it) =
      (Collections.progress fuel it).bind fun it => (skip fuel filter it endIt).bind fun it => some (wrap it)

theorem subType_selects (isSubType : α → Bool) (endIt : BaseIterator α) :
    Selects (fun e => e.any isSubType) endIt (fun it => .subType isSubType it endIt) where
  isEqual _ := rfl
  isValid _ := rfl
  getElement _ := rfl
  progress it apart fuel := by
    refine if_pos ?_
    show (!it.isEqual endIt) = true
    rw [apart]
    rfl

theorem filtered_selects (filter : Option α → Bool) (endIt : BaseIterator α) :
    Selects filter endIt (fun it => .filtered filter it endIt) where
  isEqual _ := rfl
  isValid _ := rfl
  getElement _ := rfl
  progress it apart fuel := by
    refine if_pos ?_
    show (!it.isEqual endIt) = true
    rw [apart]
    rfl

/-- From an iterator below, skipping gives a run over the accepted elements. -/
theorem Selects.remains {filter : Option α → Bool} {wrap : BaseIterator α → BaseIterator α}
    (selects : Selects filter endIt wrap) {it : BaseIterator α} {list : List (Option α)} (run : Remains endIt it list) :
    ∃ found, Gives (fun fuel => skip fuel filter it endIt) found ∧
      Remains (wrap endIt) (wrap found) (list.filter filter) := by
  refine Remains.induct (fun it equal invalid => ?_) (fun it next rest apart valid moves after ih => ?_) run
  · refine ⟨it, skip_stop filter it ?_, Runs.ends _ ?_ ?_⟩
    · rw [equal]
      rfl
    · rw [selects.isEqual, equal]
    · rw [selects.isValid, equal]
      rfl
  · obtain ⟨found, given, remains⟩ := ih
    by_cases accepted : filter it.getElement = true
    · refine ⟨it, skip_stop filter it ?_, ?_⟩
      · rw [accepted, Bool.not_true, Bool.and_false]
      · rw [List.filter_cons_of_pos accepted, ← selects.getElement it]
        refine Runs.step (wrap it) (wrap found) _ true ?_ ?_ ?_ remains
        · rw [selects.isEqual, apart]
        · rw [selects.isValid, apart]
          rfl
        · refine Settles.succ (selects.progress it apart) ?_
          refine Settles.bind
            (f := fun fuel it => (skip fuel filter it endIt).bind fun it => some (wrap it)) moves ?_
          exact Settles.bind (f := fun _ it => some (wrap it)) given (Settles.const _)
    · have refused : filter it.getElement = false := Bool.eq_false_iff.mpr accepted
      refine ⟨found, skip_next filter it next found apart refused moves given, ?_⟩
      rw [List.filter_cons_of_neg accepted]
      exact remains

end Conversions

section Transformers

variable {endIt : BaseIterator α} (transform : Option α → Option α)

/-- The iterator of the transformer over an iterator below. -/
def transformed (endIt : BaseIterator α) (it : BaseIterator α) : BaseIterator α :=
  .transformer transform it endIt (if it.isValid then transform it.getElement else none)

theorem progress_transformed (it next : BaseIterator α) (valid : it.isValid = true)
    (element : (transform it.getElement).isSome = true) (moves : Gives (fun fuel => progress fuel it) next) :
    Gives (fun fuel => progress fuel (transformed transform endIt it)) (transformed transform endIt next) := by
  have goes : (transformed transform endIt it).isValid = true := by
    show (if it.isValid then transform it.getElement else none).isSome = true
    rw [if_pos valid]
    exact element
  refine Settles.succ (f := fun fuel => (if it.isValid then progress fuel it else some it).bind fun it =>
    some (transformed transform endIt it)) (fun fuel => if_pos goes) ?_
  simp only [if_pos valid]
  exact Settles.bind (f := fun _ it => some (transformed transform endIt it)) moves (Settles.const _)

theorem transformer_remains {it : BaseIterator α} {list : List (Option α)} (run : Remains endIt it list) :
    (∀ e ∈ list, transform e ≠ none) →
      Remains (.transformer transform endIt endIt none) (transformed transform endIt it) (list.map transform) := by
  refine Remains.induct (fun it equal invalid => ?_) (fun it next rest apart valid moves after ih => ?_) run
  · intro _
    refine Runs.ends _ equal ?_
    show (if it.isValid then transform it.getElement else none).isSome = false
    rw [invalid]
    rfl
  · intro nonNull
    have element := Option.isSome_iff_ne_none.mpr (nonNull _ List.mem_cons_self)
    have shown : (transformed transform endIt it).getElement = transform it.getElement := if_pos valid
    rw [List.map_cons, ← shown]
    refine Runs.step _ (transformed transform endIt next) _ true apart ?_
      (progress_transformed transform it next valid element moves)
      (ih fun e member => nonNull e (List.mem_cons_of_mem _ member))
    show (if it.isValid then transform it.getElement else none).isSome = true
    rw [if_pos valid]
    exact element

/-- At the first null result the iterator is not at the end and does not move any more. -/
theorem transformer_stuck {it : BaseIterator α} {list : List (Option α)} (run : Remains endIt it list) :
    (∃ e ∈ list, transform e = none) →
      ∃ visited, Runs (.transformer transform endIt endIt none) (transformed transform endIt it) visited false := by
  refine Remains.induct (fun it equal invalid => ?_) (fun it next rest apart valid moves after ih => ?_) run
  · rintro ⟨e, member, _⟩
    cases member
  · rintro ⟨e, member, null⟩
    cases element : transform it.getElement with
    | none =>
        have stops : (transformed transform endIt it).isValid = false := by
          show (if it.isValid then transform it.getElement else none).isSome = false
          rw [if_pos valid, element]
          rfl
        refine ⟨[], Runs.stuck _ rfl apart fun fuel next moved => ?_⟩
        cases fuel with
        | zero => cases moved
        | succ fuel =>
            have still : progress (fuel + 1) (transformed transform endIt it) =
                some (transformed transform endIt it) := if_neg (Bool.eq_false_iff.mp stops)
            rw [still] at moved
            exact (Option.some.inj moved).symm
    | some _ =>
        have inRest : e ∈ rest := by
          refine (List.mem_cons.mp member).resolve_left fun same => ?_
          rw [same, element] at null
          cases null
        obtain ⟨visited, lost⟩ := ih ⟨e, inRest, null⟩
        have isSome : (transform it.getElement).isSome = true := by rw [element]; rfl
        refine ⟨(transformed transform endIt it).getElement :: visited,
          Runs.step _ (transformed transform endIt next) _ false apart ?_
            (progress_transformed transform it next valid isSome moves) lost⟩
        show (if it.isValid then transform it.getElement else none).isSome = true
        rw [if_pos valid]
        exact isSome

end Transformers

end Naja.Collections
