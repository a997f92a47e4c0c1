import Mathlib.Data.Nat.Basic

/-! A loop given by its step: `none` ends it. The fuel bounds the number of steps;
a measure that goes down shows that it is enough. -/

namespace Naja.Worklist

variable {σ : Type}

/-- Runs the steps until the loop ends; `none` when the fuel runs out before. -/
def whileSome (step : σ → Option σ) : Nat → σ → Option σ
  | 0, _ => none
  | fuel + 1, s =>
      match step s with
      | none => some s
      | some s' => whileSome step fuel s'

/-- A step that keeps an invariant and lowers a measure ends in a state of the invariant. -/
theorem whileSome_ends (step : σ → Option σ) (Inv : σ → Prop) (measure : σ → Nat)
    (each : ∀ s s', Inv s → step s = some s' → Inv s' ∧ measure s' < measure s) (fuel : Nat) (s : σ)
    (start : Inv s) (enough : measure s < fuel) :
    ∃ s', whileSome step fuel s = some s' ∧ Inv s' ∧ step s' = none := by
  induction fuel generalizing s with
  | zero => contradiction
  | succ fuel ih =>
      unfold whileSome
      cases taken : step s with
      | none => exact ⟨s, rfl, start, taken⟩
      | some s' =>
          obtain ⟨kept, less⟩ := each s s' start taken
          exact ih s' kept (by omega)

/-- A loop that ends does so in a state of every invariant of its step. -/
theorem whileSome_keeps (step : σ → Option σ) (Inv : σ → Prop) (each : ∀ s s', Inv s → step s = some s' → Inv s')
    (fuel : Nat) (s s' : σ) (start : Inv s) (ended : whileSome step fuel s = some s') : Inv s' := by
  induction fuel generalizing s with
  | zero => contradiction
  | succ fuel ih =>
      unfold whileSome at ended
      cases taken : step s with
      | none =>
          rw [taken] at ended
          cases ended
          exact start
      | some next =>
          rw [taken] at ended
          exact ih next (each s next start taken) ended

end Naja.Worklist
