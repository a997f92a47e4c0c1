import Mathlib.Data.List.Count
import Mathlib.Data.List.Nodup

/-! Slots recycled through a free list. An arena keeps every slot it ever made; a
released slot stays in place, dead, and its index waits on the free list for the
next allocation. -/

namespace Naja.Arena

/-- The free list has its back first. -/
structure Slots (α : Type) where
  slots : List α
  free : List Nat
  live : Nat
deriving DecidableEq, Repr

variable {α : Type}

namespace Slots

def empty : Slots α := ⟨[], [], 0⟩

/-- Takes the last freed slot, or makes a new one. -/
def allocate (create : Nat → α) (reset : Nat → α → α) (a : Slots α) : Nat × Slots α :=
  match a.free with
  | id :: rest => (id, ⟨a.slots.modify id (reset id), rest, a.live + 1⟩)
  | [] => (a.slots.length, ⟨a.slots ++ [create a.slots.length], [], a.live + 1⟩)

def modify (id : Nat) (f : α → α) (a : Slots α) : Slots α := { a with slots := a.slots.modify id f }

def release (deactivate : α → α) (id : Nat) (a : Slots α) : Slots α :=
  ⟨a.slots.modify id deactivate, id :: a.free, a.live - 1⟩

/-- The slot, when it is alive. -/
def find (alive : α → Bool) (a : Slots α) (id : Nat) : Option α := (a.slots[id]?).filter alive

/-- The live count is right and the free list holds exactly the dead slots, each once. -/
structure Sound (alive : α → Bool) (a : Slots α) : Prop where
  live : a.live = a.slots.countP alive
  nodup : a.free.Nodup
  free : ∀ id, id ∈ a.free ↔ ∃ x, a.slots[id]? = some x ∧ alive x = false

theorem find_eq_some (alive : α → Bool) (a : Slots α) (id : Nat) (x : α) :
    a.find alive id = some x ↔ a.slots[id]? = some x ∧ alive x := by
  rw [find, Option.filter_eq_some_iff]

theorem find_isSome (alive : α → Bool) (a : Slots α) (id : Nat) :
    (a.find alive id).isSome ↔ ∃ x, a.slots[id]? = some x ∧ alive x := by
  rw [Option.isSome_iff_exists]
  exact exists_congr (a.find_eq_some alive id)

theorem sound_empty (alive : α → Bool) : (empty : Slots α).Sound alive := by
  refine ⟨rfl, List.nodup_nil, ?_⟩
  intro id
  simp [empty]

theorem modified (slots : List α) (id other : Nat) (f : α → α) :
    (slots.modify id f)[other]? = if other = id then (slots[other]?).map f else slots[other]? := by
  by_cases hit : other = id
  · rw [if_pos hit, hit, List.getElem?_modify_eq]
    rfl
  · rw [if_neg hit, List.getElem?_modify_ne f slots (Ne.symm hit)]

theorem getElem?_modify (a : Slots α) (id other : Nat) (f : α → α) :
    (a.modify id f).slots[other]? = if other = id then (a.slots[other]?).map f else a.slots[other]? :=
  modified a.slots id other f

theorem find_modify (alive : α → Bool) (a : Slots α) (id other : Nat) (f : α → α)
    (kept : ∀ x, alive (f x) = alive x) :
    (a.modify id f).find alive other = if other = id then (a.find alive other).map f else a.find alive other := by
  unfold find
  rw [getElem?_modify]
  by_cases hit : other = id
  · rw [if_pos hit, if_pos hit]
    cases a.slots[other]? with
    | none => rfl
    | some x => by_cases living : alive x <;> simp [Option.filter, kept, living]
  · rw [if_neg hit, if_neg hit]

private theorem countP_modify (alive : α → Bool) (slots : List α) (id : Nat) (f : α → α) (x : α)
    (found : slots[id]? = some x) :
    (slots.modify id f).countP alive + (if alive x then 1 else 0) =
      slots.countP alive + (if alive (f x) then 1 else 0) := by
  obtain ⟨inside, here⟩ := List.getElem?_eq_some_iff.mp found
  have whole : slots.modify id f = slots.set id (f x) := by
    rw [List.modify_eq_set_getElem?, found]
    rfl
  rw [whole, List.countP_set inside, here]
  by_cases living : alive x
  · have positive : 0 < slots.countP alive := List.countP_pos_iff.mpr ⟨x, List.mem_of_getElem? found, living⟩
    simp only [living, if_true]
    omega
  · simp [living]

theorem sound_modify (alive : α → Bool) (a : Slots α) (sound : a.Sound alive) (id : Nat) (f : α → α)
    (kept : ∀ x, alive (f x) = alive x) : (a.modify id f).Sound alive := by
  refine ⟨?_, sound.nodup, ?_⟩
  · change a.live = (a.slots.modify id f).countP alive
    cases found : a.slots[id]? with
    | none =>
        rw [sound.live, List.modify_eq_self (List.getElem?_eq_none_iff.mp found)]
    | some x =>
        have counted := countP_modify alive a.slots id f x found
        rw [kept x] at counted
        rw [sound.live]
        omega
  · intro other
    rw [getElem?_modify]
    change other ∈ a.free ↔ _
    rw [sound.free other]
    by_cases hit : other = id
    · rw [if_pos hit]
      cases a.slots[other]? with
      | none => simp
      | some x => simp [kept]
    · rw [if_neg hit]

section allocate
variable (alive : α → Bool) (create : Nat → α) (reset : Nat → α → α) (a : Slots α)
  (fresh : ∀ id x, reset id x = create id) (sound : a.Sound alive)
include fresh sound

theorem getElem?_allocate (other : Nat) :
    (a.allocate create reset).2.slots[other]? =
      if other = (a.allocate create reset).1 then some (create other) else a.slots[other]? := by
  unfold allocate
  split
  · next id rest taken =>
      obtain ⟨x, found, -⟩ := (sound.free id).mp (by rw [taken]; exact List.mem_cons_self)
      rw [modified]
      by_cases hit : other = id
      · rw [if_pos hit, if_pos hit, hit, found, Option.map_some, fresh]
      · rw [if_neg hit, if_neg hit]
  · by_cases hit : other = a.slots.length
    · rw [if_pos hit, hit, List.getElem?_append_right (Nat.le_refl _), Nat.sub_self]
      rfl
    · rw [if_neg hit]
      by_cases below : other < a.slots.length
      · rw [List.getElem?_append_left below]
      · rw [List.getElem?_eq_none (by simp; omega), List.getElem?_eq_none (by omega)]

/-- The allocated slot was not alive before. -/
theorem find_allocated : a.find alive (a.allocate create reset).1 = none := by
  unfold find allocate
  split
  · next id rest taken =>
      obtain ⟨x, found, dead⟩ := (sound.free id).mp (by rw [taken]; exact List.mem_cons_self)
      simp [found, dead, Option.filter]
  · rw [List.getElem?_eq_none (Nat.le_refl _)]
    rfl

theorem find_allocate (born : ∀ id, alive (create id)) (other : Nat) :
    (a.allocate create reset).2.find alive other =
      if other = (a.allocate create reset).1 then some (create other) else a.find alive other := by
  unfold find
  rw [getElem?_allocate alive create reset a fresh sound]
  by_cases hit : other = (a.allocate create reset).1
  · rw [if_pos hit, if_pos hit]
    simp [Option.filter, born]
  · rw [if_neg hit, if_neg hit]

theorem sound_allocate (born : ∀ id, alive (create id)) : (a.allocate create reset).2.Sound alive := by
  have slots := getElem?_allocate alive create reset a fresh sound
  unfold allocate at slots ⊢
  split at slots
  · next id rest taken =>
      have member : id ∈ a.free := by rw [taken]; exact List.mem_cons_self
      obtain ⟨x, found, dead⟩ := (sound.free id).mp member
      have nodup := sound.nodup
      rw [taken, List.nodup_cons] at nodup
      refine ⟨?_, nodup.2, ?_⟩
      · have counted := countP_modify alive a.slots id (reset id) x found
        rw [dead, fresh, born, if_pos rfl] at counted
        simpa [sound.live] using counted.symm
      · intro other
        simp only at slots ⊢
        rw [slots other]
        by_cases hit : other = id
        · rw [if_pos hit, hit]
          refine iff_of_false nodup.1 ?_
          rintro ⟨y, same, dead'⟩
          obtain rfl := Option.some.inj same
          rw [born] at dead'
          contradiction
        · rw [if_neg hit, ← sound.free other, taken, List.mem_cons]
          exact ⟨Or.inr, fun found => found.resolve_left hit⟩
  · next none =>
      refine ⟨?_, List.nodup_nil, ?_⟩
      · simp [sound.live, born]
      · intro other
        simp only at slots ⊢
        rw [slots other]
        refine iff_of_false List.not_mem_nil ?_
        rintro ⟨y, same, dead⟩
        split at same
        · obtain rfl := Option.some.inj same
          rw [born] at dead
          contradiction
        · have member := (sound.free other).mpr ⟨y, same, dead⟩
          rw [none] at member
          contradiction

end allocate

section release
variable (alive : α → Bool) (deactivate : α → α) (a : Slots α) (id : Nat) (x : α)
  (died : ∀ x, alive (deactivate x) = false) (found : a.find alive id = some x)
include died found

theorem find_release (other : Nat) :
    (a.release deactivate id).find alive other = if other = id then none else a.find alive other := by
  obtain ⟨place, -⟩ := (a.find_eq_some alive id x).mp found
  unfold find release
  rw [modified]
  by_cases hit : other = id
  · rw [if_pos hit, if_pos hit, hit, place]
    simp [Option.filter, died]
  · rw [if_neg hit, if_neg hit]

theorem sound_release (sound : a.Sound alive) : (a.release deactivate id).Sound alive := by
  obtain ⟨place, living⟩ := (a.find_eq_some alive id x).mp found
  refine ⟨?_, ?_, ?_⟩
  · have counted := countP_modify alive a.slots id deactivate x place
    rw [living, died, if_pos rfl] at counted
    have before := sound.live
    change a.live - 1 = (a.slots.modify id deactivate).countP alive
    simp only [Bool.false_eq_true, if_false] at counted
    omega
  · refine List.nodup_cons.mpr ⟨?_, sound.nodup⟩
    intro member
    obtain ⟨y, same, dead⟩ := (sound.free id).mp member
    rw [place] at same
    obtain rfl := Option.some.inj same
    rw [living] at dead
    contradiction
  · intro other
    have slots : (a.release deactivate id).slots[other]? =
        if other = id then some (deactivate x) else a.slots[other]? := by
      unfold release
      rw [modified]
      by_cases hit : other = id
      · rw [if_pos hit, if_pos hit, hit, place]
        rfl
      · rw [if_neg hit, if_neg hit]
    rw [slots]
    change other ∈ id :: a.free ↔ _
    rw [List.mem_cons]
    by_cases hit : other = id
    · rw [if_pos hit]
      exact iff_of_true (Or.inl hit) ⟨_, rfl, died x⟩
    · rw [if_neg hit, ← sound.free other]
      exact ⟨fun either => either.resolve_left hit, Or.inr⟩

end release

end Slots

end Naja.Arena
