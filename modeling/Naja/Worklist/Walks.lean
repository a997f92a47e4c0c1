import Naja.Worklist.Rounds
import Mathlib.Algebra.Order.BigOperators.Group.List
import Mathlib.Algebra.Order.Ring.Nat

/-! Walks of counted length along a relation. Without a cycle and with finitely many
targets, every start has a longest walk. -/

namespace Naja.Worklist

variable {α : Type} (R : α → α → Prop)

/-- A walk of `n` edges. -/
def Walk : Nat → α → α → Prop
  | 0, a, b => a = b
  | n + 1, a, c => ∃ b, R a b ∧ Walk n b c

namespace Walk
variable {R}

theorem concat {n : Nat} {a b c : α} (walk : Walk R n a b) (edge : R b c) : Walk R (n + 1) a c := by
  induction n generalizing a with
  | zero =>
      have same : a = b := walk
      exact ⟨c, same ▸ edge, rfl⟩
  | succ n ih =>
      obtain ⟨next, first, rest⟩ := walk
      exact ⟨next, first, ih rest⟩

/-- The nodes a walk passes after its start. -/
theorem exists_chain {n : Nat} {a b : α} (walk : Walk R n a b) :
    ∃ chain : List α, chain.length = n ∧ (a :: chain).IsChain R ∧ ∀ c ∈ chain, ∃ d, R d c := by
  induction n generalizing a with
  | zero => exact ⟨[], rfl, List.isChain_singleton a, fun c inNil => absurd inNil List.not_mem_nil⟩
  | succ n ih =>
      obtain ⟨next, first, rest⟩ := walk
      obtain ⟨chain, count, linked, entered⟩ := ih rest
      refine ⟨next :: chain, by rw [List.length_cons, count], ?_, ?_⟩
      · exact List.isChain_cons_cons.mpr ⟨first, linked⟩
      · intro c member
        rcases List.mem_cons.mp member with rfl | later
        · exact ⟨a, first⟩
        · exact entered c later

/-- Without a cycle a walk is no longer than the list of all targets. -/
theorem length_le {n : Nat} {a b : α} (walk : Walk R n a b) (acyclic : ∀ c, ¬ Relation.TransGen R c c)
    (targets : List α) (inside : ∀ c d, R c d → d ∈ targets) : n ≤ targets.length := by
  obtain ⟨chain, count, linked, entered⟩ := walk.exists_chain
  have free : ∀ c, ¬ Relation.TransGen (Function.swap R) c c := by
    intro c cycle
    exact acyclic c (Relation.transGen_swap.mp cycle)
  have distinct : chain.Nodup := (nodup_of_chain (Function.swap R) free (a :: chain) linked).of_cons
  have subset : chain ⊆ targets := by
    intro c member
    obtain ⟨d, edge⟩ := entered c member
    exact inside d c edge
  rw [← count]
  exact (distinct.subperm subset).length_le

end Walk

/-- A walk of `n` edges leaves the node. -/
def Deep (n : Nat) (a : α) : Prop := ∃ b, Walk R n a b

variable {R}

theorem deep_zero (a : α) : Deep R 0 a := ⟨a, rfl⟩

theorem deep_succ (n : Nat) (a : α) : Deep R (n + 1) a ↔ ∃ b, R a b ∧ Deep R n b := by
  constructor
  · intro deep
    obtain ⟨c, b, edge, walk⟩ := deep
    exact ⟨b, edge, c, walk⟩
  · intro later
    obtain ⟨b, edge, c, walk⟩ := later
    exact ⟨c, b, edge, walk⟩

theorem exists_deepest (acyclic : ∀ c, ¬ Relation.TransGen R c c) (targets : List α)
    (inside : ∀ c d, R c d → d ∈ targets) (a : α) :
    ∃ n, Deep R n a ∧ ∀ m, Deep R m a → m ≤ n := by
  obtain ⟨n, -, deep, last⟩ := exists_last (fun n => Deep R n a) targets.length ⟨0, Nat.zero_le _, deep_zero a⟩
  refine ⟨n, deep, ?_⟩
  intro m other
  by_contra further
  obtain ⟨b, walk⟩ := other
  exact last m (by omega) (walk.length_le acyclic targets inside) ⟨b, walk⟩

/-- Finitely many items of lower ranks weigh less than the item they come from. -/
theorem weight_lt (bound rank : Nat) (spawned : List Nat) (few : spawned.length ≤ bound)
    (lower : ∀ k ∈ spawned, k < rank) :
    (spawned.map (fun k => (bound + 1) ^ k)).sum < (bound + 1) ^ rank := by
  cases rank with
  | zero =>
      cases spawned with
      | nil => simp
      | cons k rest => exact absurd (lower k List.mem_cons_self) (Nat.not_lt_zero k)
  | succ rank =>
      have each : ∀ weight ∈ spawned.map (fun k => (bound + 1) ^ k), weight ≤ (bound + 1) ^ rank := by
        intro weight member
        obtain ⟨k, inSpawned, rfl⟩ := List.mem_map.mp member
        exact Nat.pow_le_pow_right (Nat.succ_pos bound) (Nat.le_of_lt_succ (lower k inSpawned))
      calc (spawned.map (fun k => (bound + 1) ^ k)).sum
          ≤ spawned.length * (bound + 1) ^ rank := by
            have total := List.sum_le_card_nsmul _ _ each
            rwa [List.length_map, nsmul_eq_mul, Nat.cast_id] at total
        _ ≤ bound * (bound + 1) ^ rank := Nat.mul_le_mul_right _ few
        _ < (bound + 1) * (bound + 1) ^ rank := by
            have positive : 0 < (bound + 1) ^ rank := Nat.pow_pos (Nat.succ_pos bound)
            rw [Nat.add_mul]
            omega
        _ = (bound + 1) ^ (rank + 1) := by rw [Nat.pow_succ, Nat.mul_comm]

end Naja.Worklist
