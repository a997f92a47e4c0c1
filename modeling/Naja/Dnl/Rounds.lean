import Naja.Dnl.Treated

/-! The two rounds over the drivers. A round gives every task a new iso and traverses from
it, in any order; between the rounds the isos with several drivers become shadows. -/

namespace Naja.Dnl

/-! ### New isos -/

theorem addIsos_spec (tasks : List Nat) (nodup : tasks.Nodup) (db : IsoDB) :
    (tasks.foldl IsoDB.addIso db).isos = db.isos ++ List.replicate tasks.length Iso.new ∧
      (tasks.foldl IsoDB.addIso db).constantIsos = db.constantIsos ∧
      ∀ u, (tasks.foldl IsoDB.addIso db).isoIDs u =
        if u ∈ tasks then some (db.isos.length + tasks.idxOf u) else db.isoIDs u := by
  induction tasks generalizing db with
  | nil => exact ⟨(List.append_nil _).symm, rfl, fun u => (if_neg List.not_mem_nil).symm⟩
  | cons task rest ih =>
      obtain ⟨apart, later⟩ := List.nodup_cons.mp nodup
      obtain ⟨isos, constants, ids⟩ := ih later (db.addIso task)
      rw [List.foldl_cons]
      refine ⟨?_, constants, fun u => ?_⟩
      · rw [isos]
        show (db.isos ++ [Iso.new]) ++ _ = _
        rw [List.append_assoc]
        rfl
      · rw [ids u]
        show (if u ∈ rest then some ((db.isos ++ [Iso.new]).length + rest.idxOf u)
          else Function.update db.isoIDs task (some db.isos.length) u) = _
        by_cases here : u = task
        · subst here
          rw [if_neg apart, Function.update_self, if_pos List.mem_cons_self, List.idxOf_cons_self, Nat.add_zero]
        · rw [Function.update_of_ne here]
          by_cases inside : u ∈ rest
          · rw [if_pos inside, if_pos (List.mem_cons_of_mem task inside), List.idxOf_cons_ne _ (Ne.symm here),
              List.length_append, List.length_singleton]
            congr 1
            omega
          · rw [if_neg inside, if_neg (List.not_mem_cons_of_ne_of_not_mem here inside)]

/-- No set has an iso that is not there yet. -/
def Bounded (db : IsoDB) : Prop := ∀ type, ∀ iso ∈ db.constantIsos type, iso < db.isos.length

theorem Bounded.local (iso : Nat) (db db' : IsoDB) (bounded : Bounded db) (inside : iso < db.isos.length)
    (only : Local iso db db') : Bounded db' := by
  intro type j member
  rw [only.length]
  by_cases same : j = iso
  · rw [same]
    exact inside
  · exact bounded type j (((only.others j same).sets type).mp member)

/-- The iso of a task that was added. -/
theorem fresh_addIsos (tasks : List Nat) (nodup : tasks.Nodup) (db : IsoDB) (bounded : Bounded db) (task : Nat)
    (member : task ∈ tasks) : Fresh (tasks.foldl IsoDB.addIso db) (db.isos.length + tasks.idxOf task) := by
  obtain ⟨isos, constants, -⟩ := addIsos_spec tasks nodup db
  constructor
  · rw [isos, List.getElem?_append_right (Nat.le_add_right _ _), Nat.add_sub_cancel_left,
      List.getElem?_replicate_of_lt (List.idxOf_lt_length_iff.mpr member)]
  · intro type inside
    rw [constants] at inside
    have below := bounded type _ inside
    omega

/-! ### One round -/

section Round
variable {dnl : DNL}

/-- What a round leaves. A terminal has the iso of one task it is connected to, but for the
drivers in the first round. -/
structure Round (dnl : DNL) (updateDriver : Bool) (home : Nat → Nat) (tasks : List Nat)
    (db db' : IsoDB) : Prop where
  length : db'.isos.length = db.isos.length
  others : ∀ iso, (∀ task ∈ tasks, home task ≠ iso) → Kept iso db db'
  holds : ∀ task ∈ tasks, Holds dnl db' (home task) task
  ids : ∀ u, (∃ task ∈ tasks, Takes dnl updateDriver task u ∧ db'.isoIDs u = some (home task)) ∨
    (db'.isoIDs u = db.isoIDs u ∧ ∀ task ∈ tasks, ¬ Takes dnl updateDriver task u)
  bounded : Bounded db'

theorem round_spec (updateDriver : Bool) (home : Nat → Nat) (tasks : List Nat) (nodup : tasks.Nodup) (db : IsoDB)
    (homes : ∀ task ∈ tasks, db.isoIDs task = some (home task))
    (fresh : ∀ task ∈ tasks, Fresh db (home task))
    (apart : ∀ task ∈ tasks, ∀ other ∈ tasks, home task = home other → task = other)
    (steady : ∀ task ∈ tasks, ∀ other ∈ tasks, Takes dnl updateDriver task other → task = other) (bounded : Bounded db) :
    ∃ db', tasks.foldlM (treatTask dnl updateDriver) db = some db' ∧
      Round dnl updateDriver home tasks db db' := by
  induction tasks generalizing db with
  | nil =>
      refine ⟨db, rfl, rfl, fun iso _ => ⟨rfl, fun _ => Iff.rfl⟩, fun task member => absurd member List.not_mem_nil, fun u => ?_, bounded⟩
      exact Or.inr ⟨rfl, fun task member => absurd member List.not_mem_nil⟩
  | cons task rest ih =>
      obtain ⟨once, later⟩ := List.nodup_cons.mp nodup
      have restOf {other : Nat} (member : other ∈ rest) : other ∈ task :: rest := List.mem_cons_of_mem task member
      have ne_task {other : Nat} (member : other ∈ rest) : other ≠ task := fun same => once (same ▸ member)
      have ne_home {other : Nat} (member : other ∈ rest) : home other ≠ home task := fun same =>
        ne_task member (apart other (restOf member) task List.mem_cons_self same)
      obtain ⟨middle, ran, traversed⟩ := treatDriver_spec updateDriver (home task) task db (fresh task List.mem_cons_self)
      have taken : treatTask dnl updateDriver db task = some middle := by
        unfold treatTask
        rw [homes task List.mem_cons_self]
        exact ran
      have inside : home task < db.isos.length := (List.getElem?_eq_some_iff.mp (fresh task List.mem_cons_self).new).1
      obtain ⟨db', done, round⟩ := ih later middle
        (by
          intro other member
          rw [traversed.kept other, homes other (restOf member)]
          exact fun takes => ne_task member (steady task List.mem_cons_self other (restOf member) takes).symm)
        (by
          intro other member
          have kept := traversed.only.others _ (ne_home member)
          exact ⟨kept.record.trans (fresh other (restOf member)).new,
            fun type inside => (fresh other (restOf member)).apart type ((kept.sets type).mp inside)⟩)
        (fun a inA b inB => apart a (restOf inA) b (restOf inB)) (fun a inA b inB => steady a (restOf inA) b (restOf inB))
        (bounded.local _ _ _ inside traversed.only)
      refine ⟨db', by rw [List.foldlM_cons, taken]; exact done, ?_⟩
      constructor
      · exact round.length.trans traversed.only.length
      · intro iso other
        exact (traversed.only.others iso (other task List.mem_cons_self).symm).trans
          (round.others iso fun task' member => other task' (restOf member))
      · intro task' member
        rcases List.mem_cons.mp member with rfl | inRest
        · exact traversed.holds.of_kept (round.others (home task') fun other inside => ne_home inside)
        · exact round.holds task' inRest
      · intro u
        rcases round.ids u with ⟨task', inRest, takes, set⟩ | ⟨kept, none_⟩
        · exact Or.inl ⟨task', restOf inRest, takes, set⟩
        · by_cases met : Takes dnl updateDriver task u
          · exact Or.inl ⟨task, List.mem_cons_self, met, kept.trans (traversed.set u met)⟩
          · exact Or.inr ⟨kept.trans (traversed.kept u met), List.forall_mem_cons.mpr ⟨met, none_⟩⟩
      · exact round.bounded

end Round

/-! ### Shadows -/

theorem mem_insertByKey_id (x y : Nat) (xs : List Nat) : y ∈ Registry.insertByKey id x xs ↔ y = x ∨ y ∈ xs := by
  induction xs with
  | nil => exact List.mem_cons
  | cons head rest ih =>
      unfold Registry.insertByKey
      split
      · exact List.mem_cons
      · split
        · next same =>
            obtain rfl : x = head := same
            exact (or_iff_right_of_imp fun first => List.mem_cons.mpr (Or.inl first)).symm
        · rw [List.mem_cons, ih, List.mem_cons, or_left_comm]

/-- The isos of `shadowed` are made shadows, and the first driver of each is kept. -/
structure Shadowed (before : IsoDB) (shadowed : List Nat) (state : IsoDB × List Nat) : Prop where
  length : state.1.isos.length = before.isos.length
  constants : state.1.constantIsos = before.constantIsos
  ids : state.1.isoIDs = before.isoIDs
  shadow : ∀ iso ∈ shadowed, ∀ here, before.isos[iso]? = some here → state.1.isos[iso]? = some ⟨[], [], .SHADOW⟩
  others : ∀ iso, iso ∉ shadowed → state.1.isos[iso]? = before.isos[iso]?
  heads : ∀ head, head ∈ state.2 ↔ ∃ iso ∈ shadowed, ∃ here, before.isos[iso]? = some here ∧ here.drivers.min? = some head
  sorted : Registry.OrderedBy id state.2

theorem Shadowed.step (before : IsoDB) (shadowed : List Nat) (state : IsoDB × List Nat) (iso : Nat) (new : iso ∉ shadowed)
    (done : Shadowed before shadowed state) : Shadowed before (shadowed ++ [iso]) (shadowStep state iso) := by
  have others (j : Nat) (apart : j ≠ iso) : (shadowStep state iso).1.isos[j]? = state.1.isos[j]? :=
    modifyIso_getElem?_ne iso j _ state.1 apart
  constructor
  · exact (List.length_modify _ _ _).trans done.length
  · exact done.constants
  · exact done.ids
  · intro j member here found
    rcases List.mem_append.mp member with old | last
    · have apart : j ≠ iso := fun same => new (same ▸ old)
      rw [others j apart]
      exact done.shadow j old here found
    · obtain rfl := List.mem_singleton.mp last
      exact modifyIso_getElem? j _ state.1 here ((done.others j new).trans found)
  · intro j outside
    rw [List.mem_append, not_or, List.mem_singleton] at outside
    rw [others j outside.2, done.others j outside.1]
  · intro head
    unfold shadowStep
    dsimp only
    rw [done.others iso new]
    have split_ : (∃ j ∈ shadowed ++ [iso], ∃ here, before.isos[j]? = some here ∧ here.drivers.min? = some head) ↔
        head ∈ state.2 ∨ (before.isos[iso]?).bind (fun iso => iso.drivers.min?) = some head := by
      rw [done.heads head, Option.bind_eq_some_iff]
      simp only [List.mem_append, List.mem_singleton, or_and_right, exists_or, exists_eq_left]
    rw [split_]
    cases first : (before.isos[iso]?).bind (fun iso => iso.drivers.min?) with
    | none => exact (or_iff_left (Option.some_ne_none head).symm).symm
    | some found =>
        rw [mem_insertByKey_id, Option.some.injEq, or_comm, eq_comm]
  · unfold shadowStep
    dsimp only
    split
    · exact Registry.insertByKey_ordered _ _ done.sorted
    · exact done.sorted

theorem shadowed_foldl (db : IsoDB) (isos : List Nat) (nodup : isos.Nodup) :
    Shadowed db isos (isos.foldl shadowStep (db, [])) := by
  induction isos using List.reverseRecOn with
  | nil =>
      refine ⟨rfl, rfl, rfl, fun iso member => absurd member List.not_mem_nil, fun _ _ => rfl, fun head => ?_, List.Pairwise.nil⟩
      refine iff_of_false List.not_mem_nil ?_
      rintro ⟨iso, member, -⟩
      exact List.not_mem_nil member
  | append_singleton isos iso ih =>
      obtain ⟨front, -, apart⟩ := List.nodup_append.mp nodup
      rw [List.foldl_append, List.foldl_cons, List.foldl_nil]
      exact (ih front).step db isos _ iso fun member => apart iso member iso List.mem_cons_self rfl

theorem mem_multiDriverIsos (db : IsoDB) (iso : Nat) :
    iso ∈ multiDriverIsos db ↔ ∃ here, db.isos[iso]? = some here ∧ 1 < here.drivers.length := by
  unfold multiDriverIsos
  rw [List.mem_filter, List.mem_range, Option.any_eq_true]
  simp only [decide_eq_true_eq]
  constructor
  · exact And.right
  · rintro ⟨here, found, several⟩
    exact ⟨(List.getElem?_eq_some_iff.mp found).1, here, found, several⟩

end Naja.Dnl
