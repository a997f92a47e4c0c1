import Mathlib.Data.List.Chain
import Mathlib.Data.Nat.Find
import Mathlib.Logic.Relation
import Mathlib.Data.List.Perm.Subperm

/-! Worklists processed in rounds. A round consumes the whole worklist and builds
the next one; the loop ends on an empty worklist, or with an error. Nothing
forbids a round to put back an item that was there before. -/

namespace Naja.Worklist

variable {α σ ε : Type}

section Folds
variable {β : Type} (f : σ → β → Except ε σ)

theorem foldlM_cons_ok (x : β) (rest : List β) (s s' : σ) :
    (x :: rest).foldlM f s = .ok s' ↔ ∃ middle, f s x = .ok middle ∧ rest.foldlM f middle = .ok s' := by
  rw [List.foldlM_cons]
  cases first : f s x with
  | error message =>
      refine iff_of_false nofun ?_
      intro found
      obtain ⟨middle, same, -⟩ := found
      contradiction
  | ok middle =>
      constructor
      · intro later
        exact ⟨middle, rfl, later⟩
      · intro found
        obtain ⟨other, same, later⟩ := found
        rw [Except.ok.inj same]
        exact later

/-- What every step keeps, the fold keeps. -/
theorem foldlM_keeps (P : σ → Prop) (items : List β)
    (step : ∀ x ∈ items, ∀ s s', P s → f s x = .ok s' → P s') (s s' : σ) (start : P s)
    (done : items.foldlM f s = .ok s') : P s' := by
  induction items generalizing s with
  | nil =>
      rw [← Except.ok.inj done]
      exact start
  | cons x rest ih =>
      obtain ⟨middle, first, later⟩ := (foldlM_cons_ok f x rest s s').mp done
      apply ih (fun y member => step y (List.mem_cons_of_mem x member)) middle _ later
      exact step x List.mem_cons_self s middle start first

/-- A fold whose steps succeed under an invariant succeeds. -/
theorem foldlM_total (P : σ → Prop) (items : List β)
    (step : ∀ x ∈ items, ∀ s, P s → ∃ s', f s x = .ok s' ∧ P s') (s : σ) (start : P s) :
    ∃ s', items.foldlM f s = .ok s' ∧ P s' := by
  induction items generalizing s with
  | nil => exact ⟨s, rfl, start⟩
  | cons x rest ih =>
      obtain ⟨middle, first, kept⟩ := step x List.mem_cons_self s start
      obtain ⟨s', later, held⟩ := ih (fun y member => step y (List.mem_cons_of_mem x member)) middle kept
      exact ⟨s', (foldlM_cons_ok f x rest s s').mpr ⟨middle, first, later⟩, held⟩

/-- In a fold whose steps move up a preorder, every item is met at a state between both ends. -/
theorem foldlM_visits (R : σ → σ → Prop) (refl : ∀ s, R s s) (trans : ∀ s t u, R s t → R t u → R s u)
    (up : ∀ s x s', f s x = .ok s' → R s s') (items : List β) (s s' : σ)
    (done : items.foldlM f s = .ok s') :
    R s s' ∧ ∀ x ∈ items, ∃ before after, R s before ∧ f before x = .ok after ∧ R after s' := by
  induction items generalizing s with
  | nil =>
      rw [← Except.ok.inj done]
      exact ⟨refl s, fun x member => absurd member List.not_mem_nil⟩
  | cons y rest ih =>
      obtain ⟨middle, first, later⟩ := (foldlM_cons_ok f y rest s s').mp done
      obtain ⟨onward, visits⟩ := ih middle later
      have start := up s y middle first
      refine ⟨trans _ _ _ start onward, ?_⟩
      intro x member
      rcases List.mem_cons.mp member with rfl | inRest
      · exact ⟨s, middle, refl s, first, onward⟩
      · obtain ⟨before, after, reached, visited, rest⟩ := visits x inRest
        exact ⟨before, after, trans _ _ _ start reached, visited, rest⟩

end Folds

variable (round : σ → List α → Except ε (σ × List α))

/-- At most `fuel` rounds; `none` when they do not empty the worklist. -/
def run : Nat → σ → List α → Except ε (Option σ)
  | _, s, [] => .ok (some s)
  | 0, _, _ :: _ => .ok none
  | fuel + 1, s, a :: rest =>
      match round s (a :: rest) with
      | .error message => .error message
      | .ok (s', worklist) => run fuel s' worklist

/-! ### Ending -/

section Ending
variable (E : α → α → Prop) (items : List α) (Inv : σ → List α → Prop)

/-- A chain along an acyclic relation has no repetition. -/
theorem nodup_of_chain (acyclic : ∀ a, ¬ Relation.TransGen E a a) (chain : List α)
    (linked : chain.IsChain (fun later earlier => E earlier later)) : chain.Nodup := by
  have reached : chain.IsChain (fun later earlier => Relation.TransGen E earlier later) :=
    linked.imp (fun _ _ edge => Relation.TransGen.single edge)
  have pairs : chain.Pairwise (fun later earlier => Relation.TransGen E earlier later) := by
    have : IsTrans α (fun later earlier => Relation.TransGen E earlier later) :=
      ⟨fun _ _ _ first second => Relation.TransGen.trans second first⟩
    exact List.isChain_iff_pairwise.mp reached
  apply pairs.imp
  intro later earlier path same
  exact acyclic later (same ▸ path)

variable {round E items Inv}

private theorem run_ne_none_aux (acyclic : ∀ a, ¬ Relation.TransGen E a a)
    (within : ∀ s w, Inv s w → ∀ a ∈ w, a ∈ items)
    (step : ∀ s w s' w', Inv s w → round s w = .ok (s', w') →
      Inv s' w' ∧ ∀ b ∈ w', ∃ a ∈ w, E a b)
    (fuel length : Nat) (s : σ) (w : List α) (inv : Inv s w)
    (chains : ∀ a ∈ w, ∃ chain : List α, chain.length = length ∧
      (a :: chain).IsChain (fun later earlier => E earlier later) ∧ ∀ x ∈ chain, x ∈ items)
    (enough : items.length < length + fuel + 1) : run round fuel s w ≠ .ok none := by
  induction fuel generalizing length s w with
  | zero =>
      cases w with
      | nil => nofun
      | cons a rest =>
          intro _
          obtain ⟨chain, count, linked, inItems⟩ := chains a List.mem_cons_self
          have distinct := nodup_of_chain E acyclic (a :: chain) linked
          have inside : ∀ x ∈ a :: chain, x ∈ items := by
            intro x member
            rcases List.mem_cons.mp member with rfl | later
            · exact within s _ inv x List.mem_cons_self
            · exact inItems x later
          have bound := (distinct.subperm inside).length_le
          rw [List.length_cons] at bound
          omega
  | succ fuel ih =>
      cases w with
      | nil => nofun
      | cons a rest =>
          unfold run
          split
          · nofun
          next s' w' done =>
            obtain ⟨inv', edges⟩ := step s (a :: rest) s' w' inv done
            apply ih (length + 1) s' w' inv'
            · intro b member
              obtain ⟨earlier, inWorklist, edge⟩ := edges b member
              obtain ⟨chain, count, linked, inItems⟩ := chains earlier inWorklist
              refine ⟨earlier :: chain, by simp [count], ?_, ?_⟩
              · exact List.isChain_cons_cons.mpr ⟨edge, linked⟩
              · intro x inChain
                rcases List.mem_cons.mp inChain with rfl | later
                · exact within s _ inv x inWorklist
                · exact inItems x later
            · omega

/-- Where every item of the next worklist comes from one of the present by an acyclic relation on
finitely many items, the loop ends. -/
theorem run_ne_none (acyclic : ∀ a, ¬ Relation.TransGen E a a)
    (within : ∀ s w, Inv s w → ∀ a ∈ w, a ∈ items)
    (step : ∀ s w s' w', Inv s w → round s w = .ok (s', w') →
      Inv s' w' ∧ ∀ b ∈ w', ∃ a ∈ w, E a b)
    (s : σ) (w : List α) (inv : Inv s w) : run round items.length s w ≠ .ok none := by
  apply run_ne_none_aux acyclic within step items.length 0 s w inv
  · intro a member
    exact ⟨[], rfl, List.isChain_singleton a, fun x inNil => absurd inNil List.not_mem_nil⟩
  · omega

end Ending

/-! ### The rounds of a run that ended -/

/-- The states and worklists of the rounds, up to the empty worklist of round `last`. -/
structure Trace (s : σ) (w : List α) where
  last : Nat
  at_ : Nat → σ × List α
  start : at_ 0 = (s, w)
  rounds : ∀ t < last, round (at_ t).1 (at_ t).2 = .ok (at_ (t + 1))
  ended : (at_ last).2 = []

/-- Rounds that succeed under an invariant never end the loop with an error. -/
theorem run_total (Inv : σ → List α → Prop)
    (step : ∀ s w, Inv s w → ∃ s' w', round s w = .ok (s', w') ∧ Inv s' w') (fuel : Nat) (s : σ)
    (w : List α) (inv : Inv s w) : ∃ result, run round fuel s w = .ok result := by
  induction fuel generalizing s w with
  | zero =>
      cases w with
      | nil => exact ⟨some s, rfl⟩
      | cons a rest => exact ⟨none, rfl⟩
  | succ fuel ih =>
      cases w with
      | nil => exact ⟨some s, rfl⟩
      | cons a rest =>
          obtain ⟨s', w', done, kept⟩ := step s (a :: rest) inv
          unfold run
          rw [done]
          exact ih s' w' kept

/-- What every round keeps holds when the loop ends. -/
theorem run_keeps (Inv : σ → List α → Prop)
    (step : ∀ s w s' w', Inv s w → round s w = .ok (s', w') → Inv s' w') (fuel : Nat) (s s' : σ)
    (w : List α) (start : Inv s w) (done : run round fuel s w = .ok (some s')) : ∃ w', Inv s' w' := by
  induction fuel generalizing s w with
  | zero =>
      cases w with
      | nil =>
          rw [← Option.some.inj (Except.ok.inj done)]
          exact ⟨[], start⟩
      | cons a rest => exact absurd (Except.ok.inj done) nofun
  | succ fuel ih =>
      cases w with
      | nil =>
          rw [← Option.some.inj (Except.ok.inj done)]
          exact ⟨[], start⟩
      | cons a rest =>
          unfold run at done
          split at done
          · contradiction
          next s₁ w₁ first => exact ih s₁ w₁ (step s _ s₁ w₁ start first) done

theorem exists_trace (fuel : Nat) (s s' : σ) (w : List α) (done : run round fuel s w = .ok (some s')) :
    Nonempty (Trace round s w) := by
  induction fuel generalizing s w with
  | zero =>
      cases w with
      | nil => exact ⟨⟨0, fun _ => (s, []), rfl, fun t less => absurd less (Nat.not_lt_zero t), rfl⟩⟩
      | cons a rest => exact absurd (Except.ok.inj done) nofun
  | succ fuel ih =>
      cases w with
      | nil => exact ⟨⟨0, fun _ => (s, []), rfl, fun t less => absurd less (Nat.not_lt_zero t), rfl⟩⟩
      | cons a rest =>
          unfold run at done
          split at done
          · contradiction
          next s₁ w₁ first =>
            obtain ⟨later⟩ := ih s₁ w₁ done
            refine ⟨⟨later.last + 1, fun t => if t = 0 then (s, a :: rest) else later.at_ (t - 1), rfl, ?_,
              later.ended⟩⟩
            intro t less
            cases t with
            | zero => exact first.trans (congrArg Except.ok later.start.symm)
            | succ t => exact later.rounds t (by omega)

theorem Trace.keeps {round : σ → List α → Except ε (σ × List α)} {s : σ} {w : List α}
    (trace : Trace round s w) (Inv : σ → List α → Prop)
    (step : ∀ s w s' w', Inv s w → round s w = .ok (s', w') → Inv s' w') (inv : Inv s w) (t : Nat)
    (le : t ≤ trace.last) : Inv (trace.at_ t).1 (trace.at_ t).2 := by
  induction t with
  | zero =>
      rw [trace.start]
      exact inv
  | succ t ih => exact step _ _ _ _ (ih (by omega)) (trace.rounds t (by omega))

/-- The last round up to `bound` at which something holds. -/
theorem exists_last (P : Nat → Prop) (bound : Nat) (some_ : ∃ t ≤ bound, P t) :
    ∃ t ≤ bound, P t ∧ ∀ t', t < t' → t' ≤ bound → ¬ P t' := by
  classical
  obtain ⟨t, le, holds⟩ := some_
  refine ⟨Nat.findGreatest P bound, Nat.findGreatest_le bound, Nat.findGreatest_spec le holds, ?_⟩
  intro t' after le'
  exact Nat.findGreatest_is_greatest after le'

end Naja.Worklist
