import Mathlib.Data.Nat.Basic

/-! Computations that take fuel, and what they give once there is enough of it. -/

namespace Naja.Worklist

variable {σ β γ : Type}

/-- What a computation comes to from some fuel on. -/
def Settles (run : Nat → Option β) (outcome : Option β) : Prop :=
  ∃ enough, ∀ fuel, enough ≤ fuel → run fuel = outcome

abbrev Gives (run : Nat → Option β) (result : β) : Prop := Settles run (some result)

abbrev Fails (run : Nat → Option β) : Prop := Settles run none

/-- Runs the body as long as the condition holds; `none` when the fuel runs out or the body gives
nothing. -/
def whileDo (goesOn : σ → Bool) (body : Nat → σ → Option σ) : Nat → σ → Option σ
  | 0, _ => none
  | fuel + 1, s => if goesOn s then (body fuel s).bind (whileDo goesOn body fuel) else some s

namespace Settles

theorem const (outcome : Option β) : Settles (fun _ => outcome) outcome :=
  ⟨0, fun _ _ => rfl⟩

theorem bind {run : Nat → Option β} {f : Nat → β → Option γ} {middle : β} {outcome : Option γ}
    (first : Gives run middle) (second : Settles (fun fuel => f fuel middle) outcome) :
    Settles (fun fuel => (run fuel).bind (f fuel)) outcome := by
  obtain ⟨enough, given⟩ := first
  obtain ⟨more, after⟩ := second
  refine ⟨max enough more, fun fuel bound => ?_⟩
  have left : enough ≤ fuel := le_trans (le_max_left _ _) bound
  have right : more ≤ fuel := le_trans (le_max_right _ _) bound
  show (run fuel).bind (f fuel) = outcome
  rw [given fuel left]
  exact after fuel right

theorem bind_none {run : Nat → Option β} (f : Nat → β → Option γ) (fails : Fails run) :
    Fails (fun fuel => (run fuel).bind (f fuel)) := by
  obtain ⟨enough, nothing⟩ := fails
  refine ⟨enough, fun fuel bound => ?_⟩
  show (run fuel).bind (f fuel) = none
  rw [nothing fuel bound]
  rfl

theorem map {run : Nat → Option β} {outcome : Option β} (f : β → γ) (settles : Settles run outcome) :
    Settles (fun fuel => (run fuel).map f) (outcome.map f) := by
  obtain ⟨enough, given⟩ := settles
  refine ⟨enough, fun fuel bound => ?_⟩
  show (run fuel).map f = outcome.map f
  rw [given fuel bound]

/-- A call that passes on one unit less. -/
theorem succ {run f : Nat → Option β} {outcome : Option β} (step : ∀ fuel, run (fuel + 1) = f fuel)
    (settles : Settles f outcome) : Settles run outcome := by
  obtain ⟨enough, given⟩ := settles
  refine ⟨enough + 1, fun fuel bound => ?_⟩
  cases fuel with
  | zero => exact absurd bound (by omega)
  | succ fuel =>
      rw [step fuel]
      exact given fuel (by omega)

theorem unique {run : Nat → Option β} {a b : Option β} (first : Settles run a) (second : Settles run b) : a = b := by
  obtain ⟨enough, given⟩ := first
  obtain ⟨more, also⟩ := second
  have left := given (max enough more) (le_max_left _ _)
  have right := also (max enough more) (le_max_right _ _)
  exact left.symm.trans right

end Settles

section While

variable {goesOn : σ → Bool} {body : Nat → σ → Option σ}

theorem whileDo_stop (s : σ) (stops : goesOn s = false) : Gives (fun fuel => whileDo goesOn body fuel s) s := by
  refine Settles.succ (fun fuel => ?_) (Settles.const (some s))
  show (if goesOn s then (body fuel s).bind (whileDo goesOn body fuel) else some s) = some s
  rw [stops]
  rfl

theorem whileDo_succ (s : σ) (more : goesOn s = true) (fuel : Nat) :
    whileDo goesOn body (fuel + 1) s = (body fuel s).bind (whileDo goesOn body fuel) := by
  show (if goesOn s then (body fuel s).bind (whileDo goesOn body fuel) else some s) = _
  rw [if_pos more]

theorem whileDo_next (s s' : σ) (outcome : Option σ) (more : goesOn s = true)
    (step : Gives (fun fuel => body fuel s) s') (rest : Settles (fun fuel => whileDo goesOn body fuel s') outcome) :
    Settles (fun fuel => whileDo goesOn body fuel s) outcome :=
  Settles.succ (whileDo_succ s more) (step.bind rest)

theorem whileDo_fails (s : σ) (more : goesOn s = true) (step : Fails (fun fuel => body fuel s)) :
    Fails (fun fuel => whileDo goesOn body fuel s) :=
  Settles.succ (whileDo_succ s more) (step.bind_none _)

/-- A loop over states from which every step stays among them never ends. -/
theorem whileDo_forever (Among : σ → Prop) (goes : ∀ s, Among s → goesOn s = true)
    (stays : ∀ s fuel s', Among s → body fuel s = some s' → Among s') (fuel : Nat) (s : σ) (start : Among s) :
    whileDo goesOn body fuel s = none := by
  induction fuel generalizing s with
  | zero => rfl
  | succ fuel ih =>
      rw [whileDo_succ s (goes s start) fuel]
      cases step : body fuel s with
      | none => rfl
      | some s' => exact ih s' (stays s fuel s' start step)

end While

end Naja.Worklist
