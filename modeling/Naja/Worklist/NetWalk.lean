import Naja.Worklist.Search
import Naja.Worklist.While

/-! A walk over items that lead to others. An item is recorded when it is visited, and what it
leads to goes on the stack; what an item visited before leads to may be left out, for it was
dealt with then. The walk ends, and it visits what its start leads to, each item once. -/

namespace Naja.Worklist

theorem remaining_le {α : Type} [DecidableEq α] (cost : α → Nat) (items done : List α) :
    remaining cost items done ≤ (items.map cost).sum := by
  induction items with
  | nil => exact Nat.le_refl 0
  | cons head rest ih =>
      rw [remaining_head, List.map_cons, List.sum_cons]
      split <;> omega

structure NetWalk (α β : Type) where
  stack : List α
  visited : List α
  result : β

section NetWalk
variable {α β : Type} [DecidableEq α] (push : List α → α → List α → List α) (record : α → β → β)

/-- One round of the walk; `push` puts what the item leads to on the stack. -/
def walkStep : NetWalk α β → Option (NetWalk α β)
  | ⟨[], _, _⟩ => none
  | ⟨current :: stack, visited, result⟩ =>
      if current ∈ visited then some ⟨stack, visited, result⟩
      else some ⟨push visited current stack, current :: visited, record current result⟩

theorem walkStep_cons (current : α) (stack visited : List α) (result : β) :
    walkStep push record ⟨current :: stack, visited, result⟩ =
      if current ∈ visited then some ⟨stack, visited, result⟩
      else some ⟨push visited current stack, current :: visited, record current result⟩ := rfl

section Nets
variable {ν : Type} (On : α → ν → Prop)

/-- Some net has both items. -/
def Adjacent (a b : α) : Prop := ∃ net, On a net ∧ On b net

def Connected : α → α → Prop := Relation.ReflTransGen (Adjacent On)

omit [DecidableEq α] in
theorem Connected.symm (a b : α) (path : Connected On a b) : Connected On b a := by
  induction path with
  | refl => exact .refl
  | tail _ edge ih =>
      obtain ⟨net, left, right⟩ := edge
      exact .head ⟨net, right, left⟩ ih

end Nets

variable (Edge : α → α → Prop)

/-- What `push` has to do: nothing of `next` is left out, unless a visited item leads to it. -/
structure Pushes (next : α → Prop) (cost : Nat) (visited : List α) (current : α) (stack stack' : List α) : Prop where
  added : ∃ more, stack' = more ++ stack ∧ more.length ≤ cost ∧ ∀ item ∈ more, next item
  all : ∀ item, next item → (∃ seen ∈ visited, Edge seen item) ∨ item = current ∨ item ∈ stack'

variable {Edge} in
omit [DecidableEq α] in
theorem Pushes.append {next next' : α → Prop} {cost cost' : Nat} {visited stack middle stack' : List α} {current : α}
    (first : Pushes Edge next cost visited current stack middle) (second : Pushes Edge next' cost' visited current middle stack') :
    Pushes Edge (fun item => next item ∨ next' item) (cost + cost') visited current stack stack' := by
  obtain ⟨more, rfl, bound, listed⟩ := first.added
  obtain ⟨more', rfl, bound', listed'⟩ := second.added
  refine ⟨⟨more' ++ more, (List.append_assoc _ _ _).symm, ?_, fun item member => ?_⟩, fun item either => ?_⟩
  · rw [List.length_append]
    omega
  · exact (List.mem_append.mp member).symm.imp (listed item) (listed' item)
  · rcases either with one | other
    · exact (first.all item one).imp_right (Or.imp_right (List.mem_append_right more'))
    · exact second.all item other

/-- Where the walk stands that began with `starts`. -/
structure Walking (starts : List α) (record : α → β → β) (before : β) (walk : NetWalk α β) : Prop where
  nodup : walk.visited.Nodup
  started : ∀ a ∈ starts, a ∈ walk.visited ∨ a ∈ walk.stack
  closed : ∀ a ∈ walk.visited, ∀ b, Edge a b → b ∈ walk.visited ∨ b ∈ walk.stack
  reached : ∀ a, a ∈ walk.visited ∨ a ∈ walk.stack → ∃ start ∈ starts, Relation.ReflTransGen Edge start a
  result : walk.result = walk.visited.foldr record before

variable {Edge} {starts : List α} {before : β}

omit [DecidableEq α] in
/-- A visited item is dropped from the stack. -/
theorem Walking.skip (current : α) (stack visited : List α) (result : β)
    (walking : Walking Edge starts record before ⟨current :: stack, visited, result⟩) (known : current ∈ visited) :
    Walking Edge starts record before ⟨stack, visited, result⟩ := by
  have drop (a : α) (either : a ∈ visited ∨ a ∈ current :: stack) : a ∈ visited ∨ a ∈ stack := by
    rcases either with old | waiting
    · exact Or.inl old
    · rcases List.mem_cons.mp waiting with rfl | later
      · exact Or.inl known
      · exact Or.inr later
  constructor
  · exact walking.nodup
  · exact fun a member => drop a (walking.started a member)
  · exact fun a member b edge => drop b (walking.closed a member b edge)
  · exact fun a either => walking.reached a (either.imp_right (List.mem_cons_of_mem current))
  · exact walking.result

omit [DecidableEq α] in
/-- An item is visited. What is left out is what a visited item leads to: it is visited or waits. -/
theorem Walking.visit (cost : Nat) (current : α) (stack stack' visited : List α) (result : β)
    (walking : Walking Edge starts record before ⟨current :: stack, visited, result⟩) (fresh : current ∉ visited)
    (pushes : Pushes Edge (Edge current) cost visited current stack stack') :
    Walking Edge starts record before ⟨stack', current :: visited, record current result⟩ := by
  obtain ⟨more, same, -, edges⟩ := pushes.added
  have keep (a : α) (either : a ∈ visited ∨ a ∈ current :: stack) : a ∈ current :: visited ∨ a ∈ stack' := by
    rcases either with old | waiting
    · exact Or.inl (List.mem_cons_of_mem current old)
    · rcases List.mem_cons.mp waiting with rfl | later
      · exact Or.inl List.mem_cons_self
      · rw [same]
        exact Or.inr (List.mem_append_right more later)
  constructor
  · exact List.nodup_cons.mpr ⟨fresh, walking.nodup⟩
  · exact fun a member => keep a (walking.started a member)
  · intro a member b edge
    rcases List.mem_cons.mp member with rfl | old
    · rcases pushes.all b edge with ⟨item, seen, also⟩ | rfl | pushed
      · exact keep b (walking.closed item seen b also)
      · exact Or.inl List.mem_cons_self
      · exact Or.inr pushed
    · exact keep b (walking.closed a old b edge)
  · intro a either
    rcases either with known | waiting
    · rcases List.mem_cons.mp known with rfl | old
      · exact walking.reached a (Or.inr List.mem_cons_self)
      · exact walking.reached a (Or.inl old)
    · rw [same] at waiting
      rcases List.mem_append.mp waiting with pushed | later
      · obtain ⟨start, member, path⟩ := walking.reached current (Or.inr List.mem_cons_self)
        exact ⟨start, member, path.tail (edges a pushed)⟩
      · exact walking.reached a (Or.inr (List.mem_cons_of_mem current later))
  · exact congrArg (record current) walking.result

variable (Edge)

/-- The walk visits what its start leads to, each item once; the items of `old` were visited before. -/
theorem walk_spec (items : List α) (cost : α → Nat) (free : ∀ a ∉ items, cost a = 0)
    (pushes : ∀ visited current stack, Pushes Edge (Edge current) (cost current) visited current stack (push visited current stack))
    (old : List α) (nodup : old.Nodup) (done : ∀ a ∈ old, ∀ b, Edge a b → b ∈ old) (start : α) (before : β)
    (fuel : Nat) (enough : (items.map cost).sum + 1 < fuel) :
    ∃ visited, whileSome (walkStep push record) fuel ⟨[start], old, old.foldr record before⟩ =
        some ⟨[], visited, visited.foldr record before⟩ ∧
      visited.Nodup ∧ ∀ a, a ∈ visited ↔ ∃ root ∈ start :: old, Relation.ReflTransGen Edge root a := by
  obtain ⟨walk, ended, walking, stuck⟩ := whileSome_ends (walkStep push record) (Walking Edge (start :: old) record before)
    (fun walk => walk.stack.length + remaining cost items walk.visited)
    (by
      intro walk next walking taken
      obtain ⟨stack, visited, result⟩ := walk
      cases stack with
      | nil => cases taken
      | cons current stack =>
          rw [walkStep_cons] at taken
          by_cases known : current ∈ visited
          · rw [if_pos known] at taken
            obtain rfl := Option.some.inj taken
            refine ⟨walking.skip record current stack visited result known, ?_⟩
            exact Nat.add_lt_add_right (Nat.lt_succ_self _) _
          · rw [if_neg known] at taken
            obtain rfl := Option.some.inj taken
            have pushed := pushes visited current stack
            refine ⟨walking.visit record _ current stack _ visited result known pushed, ?_⟩
            obtain ⟨more, same, bound, -⟩ := pushed.added
            have spent : cost current + remaining cost items (current :: visited) ≤ remaining cost items visited := by
              by_cases listed : current ∈ items
              · exact remaining_cons cost items visited current listed known
              · rw [free current listed, Nat.zero_add]
                exact remaining_cons_le cost items visited current
            dsimp only
            rw [same, List.length_append, List.length_cons]
            omega)
    fuel ⟨[start], old, old.foldr record before⟩
    (by
      have either (a : α) (member : a ∈ start :: old) : a ∈ old ∨ a ∈ [start] :=
        (List.mem_cons.mp member).symm.imp_right List.mem_singleton.mpr
      refine ⟨nodup, either, fun a seen b edge => Or.inl (done a seen b edge), fun a given => ⟨a, ?_, .refl⟩, rfl⟩
      exact List.mem_cons.mpr (given.symm.imp_left List.mem_singleton.mp))
    (by
      have all := remaining_le cost items old
      dsimp only
      rw [List.length_singleton]
      omega)
  obtain ⟨stack, visited, result⟩ := walk
  cases stack with
  | cons current stack =>
      rw [walkStep_cons] at stuck
      by_cases known : current ∈ visited
      · rw [if_pos known] at stuck
        cases stuck
      · rw [if_neg known] at stuck
        cases stuck
  | nil =>
      obtain rfl : result = visited.foldr record before := walking.result
      refine ⟨visited, ended, walking.nodup, fun a => ⟨fun seen => walking.reached a (Or.inl seen), fun given => ?_⟩⟩
      obtain ⟨root, member, path⟩ := given
      induction path with
      | refl => exact (walking.started root member).resolve_right List.not_mem_nil
      | tail _ edge ih => exact (walking.closed _ ih _ edge).resolve_right List.not_mem_nil

end NetWalk

end Naja.Worklist
