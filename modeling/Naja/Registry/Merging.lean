import Mathlib.Logic.Relation

/-! Things merged pair by pair, each class under one of its members. -/

namespace Naja.Registry
variable {N : Type}

/-- The classes the pairs make. -/
def Joined (pairs : List (N × N)) : N → N → Prop := Relation.EqvGen (fun a b => (a, b) ∈ pairs)

/-- No pair joins what the pairs before it have joined. -/
def Forest (pairs : List (N × N)) : Prop :=
  ∀ before pair after, pairs = before ++ pair :: after → ¬Joined before pair.1 pair.2

/-- Two things have one representative exactly when they are joined. -/
def Represents (pairs : List (N × N)) (f : N → N) : Prop := ∀ a b, f a = f b ↔ Joined pairs a b

theorem Joined.mono (pairs more : List (N × N)) (a b : N) (joined : Joined pairs a b) : Joined (pairs ++ more) a b :=
  Relation.EqvGen.mono (fun _ _ inPairs => List.mem_append_left _ inPairs) a b joined

theorem represents_nil : Represents [] (id : N → N) := by
  intro a b
  constructor
  · rintro rfl
    exact .refl _
  · intro joined
    induction joined with
    | rel _ _ inPairs => exact absurd inPairs List.not_mem_nil
    | refl _ => rfl
    | symm _ _ _ ih => exact ih.symm
    | trans _ _ _ _ _ first second => exact first.trans second

variable [DecidableEq N]

/-- The class of the second goes to the representative of the first. -/
def redirect (f : N → N) (pair : N × N) (n : N) : N := if f n = f pair.2 then f pair.1 else f n

theorem Represents.redirect (pairs : List (N × N)) (f : N → N) (represents : Represents pairs f) (pair : N × N) :
    Represents (pairs ++ [pair]) (redirect f pair) := by
  have old (x y : N) (same : f x = f y) : Joined (pairs ++ [pair]) x y :=
    Joined.mono pairs [pair] x y ((represents x y).mp same)
  have new : Joined (pairs ++ [pair]) pair.1 pair.2 := .rel _ _ (List.mem_append_right _ List.mem_cons_self)
  intro a b
  constructor
  · intro same
    unfold Registry.redirect at same
    by_cases fromA : f a = f pair.2 <;> by_cases fromB : f b = f pair.2
    · exact old a b (fromA.trans fromB.symm)
    · rw [if_pos fromA, if_neg fromB] at same
      exact .trans _ _ _ (old a pair.2 fromA) (.trans _ _ _ (.symm _ _ new) (old pair.1 b same))
    · rw [if_neg fromA, if_pos fromB] at same
      exact .trans _ _ _ (old a pair.1 same) (.trans _ _ _ new (old pair.2 b fromB.symm))
    · rw [if_neg fromA, if_neg fromB] at same
      exact old a b same
  · intro joined
    induction joined with
    | rel x y inPairs =>
        rcases List.mem_append.mp inPairs with inOld | isNew
        · have same := (represents x y).mpr (.rel _ _ inOld)
          rw [Registry.redirect, Registry.redirect, same]
        · cases List.mem_singleton.mp isNew
          rw [Registry.redirect, Registry.redirect, if_pos rfl]
          split <;> rfl
    | refl _ => rfl
    | symm _ _ _ ih => exact ih.symm
    | trans _ _ _ _ _ first second => exact first.trans second

theorem redirect_stays (f : N → N) (pair : N × N) (stays : ∀ n, f (f n) = f n) (n : N) :
    redirect f pair (redirect f pair n) = redirect f pair n := by
  unfold redirect
  split
  · rw [stays]
    split <;> rfl
  · next other => rw [stays, if_neg other]

end Naja.Registry
