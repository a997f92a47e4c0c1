import Naja.Collections.Lists

/-! What the loops over a collection do, from a description of the run of its iterator. -/

namespace Naja.Collections
open Worklist

variable {α : Type} [DecidableEq α]

/-- The run of an iterator against an end iterator: the elements it goes through, and whether it
arrives at the end. It does not when it stays where it is or when its `progress` fails. -/
inductive Runs (endIt : BaseIterator α) : BaseIterator α → List (Option α) → Bool → Prop
  | ends (it : BaseIterator α) (equal : it.isEqual endIt = true) (invalid : it.isValid = false) : Runs endIt it [] true
  | stuck (it : BaseIterator α) (there : it.isNull = false) (apart : it.isEqual endIt = false)
      (stays : ∀ fuel next, progress fuel it = some next → next = it) : Runs endIt it [] false
  | crashes (it : BaseIterator α) (there : it.isNull = false) (apart : it.isEqual endIt = false)
      (fails : Fails fun fuel => progress fuel it) : Runs endIt it [] false
  | step (it next : BaseIterator α) (rest : List (Option α)) (arrives : Bool) (apart : it.isEqual endIt = false)
      (valid : it.isValid = true) (moves : Gives (fun fuel => progress fuel it) next)
      (after : Runs endIt next rest arrives) : Runs endIt it (it.getElement :: rest) arrives

/-- The run arrives after these elements. -/
abbrev Remains (endIt it : BaseIterator α) (list : List (Option α)) : Prop :=
  Runs endIt it list true

/-- Induction over a run that arrives. -/
@[elab_as_elim]
theorem Remains.induct {endIt : BaseIterator α} {motive : BaseIterator α → List (Option α) → Prop}
    (ends : ∀ it : BaseIterator α, it.isEqual endIt = true → it.isValid = false → motive it [])
    (step : ∀ (it next : BaseIterator α) (rest : List (Option α)), it.isEqual endIt = false → it.isValid = true →
      Gives (fun fuel => progress fuel it) next → Remains endIt next rest → motive next rest →
      motive it (it.getElement :: rest))
    {it : BaseIterator α} {list : List (Option α)} (run : Remains endIt it list) : motive it list := by
  have whole : Runs endIt it list true := run
  generalize arrived : true = arrives at whole
  clear run
  induction whole with
  | ends it equal invalid => exact ends it equal invalid
  | stuck it there apart stays => cases arrived
  | crashes it there apart fails => cases arrived
  | step it next rest arrives apart valid moves after ih =>
      subst arrived
      exact step it next rest apart valid moves after (ih rfl)

theorem isNull_of_valid (it : BaseIterator α) (valid : it.isValid = true) : it.isNull = false := by
  cases it with
  | null => cases valid
  | _ => rfl

theorem isNull_of_equal (it r : BaseIterator α) (equal : it.isEqual r = true) :
    it.isNull = false ∧ r.isNull = false := by
  cases it with
  | null => cases r <;> cases equal
  | _ => cases r <;> first | exact ⟨rfl, rfl⟩ | exact absurd equal (by simp [BaseIterator.isEqual])

theorem equals_of_there (it r : BaseIterator α) (there : it.isNull = false) (rThere : r.isNull = false) :
    Iterator.equals it r = it.isEqual r := by
  unfold Iterator.equals
  rw [there, rThere]
  rfl

theorem increment_of_there (it : BaseIterator α) (there : it.isNull = false) (fuel : Nat) :
    Iterator.increment fuel it = progress fuel it := by
  unfold Iterator.increment
  rw [there]
  rfl

theorem increment_gives {it : BaseIterator α} (there : it.isNull = false) {outcome : Option (BaseIterator α)}
    (moves : Settles (fun fuel => progress fuel it) outcome) :
    Settles (fun fuel => Iterator.increment fuel it) outcome := by
  simp only [increment_of_there it there]
  exact moves

omit [DecidableEq α] in
theorem copy_eq (it : BaseIterator α) : Iterator.copy it = it := by
  unfold Iterator.copy
  rw [BaseIterator.clone_eq]
  cases it <;> rfl

section Loops

variable {endIt : BaseIterator α}

theorem Runs.equals_step (endThere : endIt.isNull = false) {it : BaseIterator α} (apart : it.isEqual endIt = false)
    (there : it.isNull = false) :
    (!Iterator.equals it endIt) = true := by
  rw [equals_of_there it endIt there endThere, apart]
  rfl

theorem Remains.equals_end (endThere : endIt.isNull = false) {it : BaseIterator α} (equal : it.isEqual endIt = true) :
    (!Iterator.equals it endIt) = false := by
  rw [equals_of_there it endIt (isNull_of_equal it endIt equal).1 endThere, equal]
  rfl

/-- The loop of `for` with what it has gone through so far. -/
def forLoop (endIt : BaseIterator α) (fuel : Nat) (s : BaseIterator α × List (Option α)) :
    Option (BaseIterator α × List (Option α)) :=
  whileDo (fun s : BaseIterator α × List (Option α) => !Iterator.equals s.1 endIt)
    (fun fuel s => (Iterator.increment fuel s.1).bind fun it => some (it, s.2 ++ [s.1.getElement])) fuel s

theorem Runs.forLoop_gives (endThere : endIt.isNull = false) {it : BaseIterator α} {list : List (Option α)}
    {arrives : Bool}
    (run : Runs endIt it list arrives) (arrived : arrives = true) (sofar : List (Option α)) :
    ∃ last : BaseIterator α, Gives (fun fuel => forLoop endIt fuel (it, sofar)) (last, sofar ++ list) := by
  induction run generalizing sofar with
  | ends it equal invalid =>
      refine ⟨it, ?_⟩
      rw [List.append_nil]
      exact whileDo_stop (it, sofar) (Remains.equals_end endThere equal)
  | stuck it there apart stays => cases arrived
  | crashes it there apart fails => cases arrived
  | step it next rest arrives apart valid moves after ih =>
      obtain ⟨last, given⟩ := ih arrived (sofar ++ [it.getElement])
      refine ⟨last, ?_⟩
      have there := isNull_of_valid it valid
      rw [List.append_assoc] at given
      refine whileDo_next (it, sofar) (next, sofar ++ [it.getElement]) _ (Runs.equals_step endThere apart there) ?_ given
      exact Settles.bind (f := fun _ it' => some (it', sofar ++ [it.getElement])) (increment_gives there moves)
        (Settles.const _)

theorem Runs.forLoop_fails (endThere : endIt.isNull = false) {it : BaseIterator α} {list : List (Option α)}
    {arrives : Bool}
    (run : Runs endIt it list arrives) (lost : arrives = false) (sofar : List (Option α)) :
    Fails (fun fuel => forLoop endIt fuel (it, sofar)) := by
  induction run generalizing sofar with
  | ends it equal invalid => cases lost
  | stuck it there apart stays =>
      refine ⟨0, fun fuel _ => whileDo_forever (fun s => s.1 = it) ?_ ?_ fuel (it, sofar) rfl⟩
      · intro s same
        rw [same]
        exact Runs.equals_step endThere apart there
      · intro s fuel s' same step
        rw [same, increment_of_there it there] at step
        cases moved : progress fuel it with
        | none =>
            rw [moved] at step
            cases step
        | some next =>
            rw [moved] at step
            cases step
            exact stays fuel next moved
  | crashes it there apart fails =>
      exact whileDo_fails (it, sofar) (Runs.equals_step endThere apart there)
        (Settles.bind_none _ (increment_gives there fails))
  | step it next rest arrives apart valid moves after ih =>
      have there := isNull_of_valid it valid
      refine whileDo_next (it, sofar) (next, sofar ++ [it.getElement]) _ (Runs.equals_step endThere apart there)
        ?_ (ih lost _)
      exact Settles.bind (f := fun _ it' => some (it', sofar ++ [it.getElement])) (increment_gives there moves)
        (Settles.const _)

theorem Remains.visitFrom (endThere : endIt.isNull = false) {it : BaseIterator α} {list : List (Option α)}
    (run : Remains endIt it list) :
    Gives (fun fuel => Collection.visitFrom fuel it endIt) list := by
  obtain ⟨last, given⟩ := run.forLoop_gives endThere rfl []
  exact given.map (·.2)

theorem Runs.visitFrom_fails (endThere : endIt.isNull = false) {it : BaseIterator α} {list : List (Option α)}
    (run : Runs endIt it list false) :
    Fails (fun fuel => Collection.visitFrom fuel it endIt) := by
  exact (run.forLoop_fails endThere rfl []).map (·.2)

/-- The loop of `size()` with its count so far. -/
def countLoop (endIt : BaseIterator α) (fuel : Nat) (s : BaseIterator α × Nat) : Option (BaseIterator α × Nat) :=
  whileDo (fun s : BaseIterator α × Nat => !s.1.isEqual endIt)
    (fun fuel s => (progress fuel s.1).bind fun it => some (it, s.2 + 1)) fuel s

theorem Runs.countLoop_gives {it : BaseIterator α} {list : List (Option α)} {arrives : Bool}
    (run : Runs endIt it list arrives) (arrived : arrives = true) (count : Nat) :
    ∃ last : BaseIterator α, Gives (fun fuel => countLoop endIt fuel (it, count)) (last, count + list.length) := by
  induction run generalizing count with
  | ends it equal invalid =>
      refine ⟨it, whileDo_stop (it, count) ?_⟩
      show (!it.isEqual endIt) = false
      rw [equal]
      rfl
  | stuck it there apart stays => cases arrived
  | crashes it there apart fails => cases arrived
  | step it next rest arrives apart valid moves after ih =>
      obtain ⟨last, given⟩ := ih arrived (count + 1)
      refine ⟨last, ?_⟩
      rw [List.length_cons, show count + (rest.length + 1) = count + 1 + rest.length by omega]
      refine whileDo_next (it, count) (next, count + 1) _ ?_ ?_ given
      · show (!it.isEqual endIt) = true
        rw [apart]
        rfl
      · exact Settles.bind (f := fun _ it' => some (it', count + 1)) moves (Settles.const _)

theorem Remains.countElements {it : BaseIterator α} {list : List (Option α)} (run : Remains endIt it list) :
    Gives (fun fuel => Collections.countElements fuel it endIt) list.length := by
  obtain ⟨last, given⟩ := run.countLoop_gives rfl 0
  have counted := given.map (·.2)
  rw [Nat.zero_add] at counted
  exact counted

theorem Remains.isValid_eq {it : BaseIterator α} {list : List (Option α)} (run : Remains endIt it list) :
    it.isValid = !list.isEmpty := by
  cases run with
  | ends _ equal invalid => exact invalid
  | step _ next rest _ apart valid moves after => exact valid

theorem Remains.isEqual_eq {it : BaseIterator α} {list : List (Option α)} (run : Remains endIt it list) :
    it.isEqual endIt = list.isEmpty := by
  cases run with
  | ends _ equal invalid => exact equal
  | step _ next rest _ apart valid moves after => exact apart

end Loops

end Naja.Collections
