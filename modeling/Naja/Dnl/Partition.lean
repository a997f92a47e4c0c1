import Naja.Dnl.Drivers
import Mathlib.Data.Finset.Card

/-! The isos are a partition: after the two rounds, and after the pass over the terminals that
were left out, the terminals that have an iso share it with what they are connected to. -/

namespace Naja.Dnl

section Partition
variable {dnl : DNL}

/-- A terminal that has an iso shares it with what it is connected to and with nothing else. An
iso that no terminal has is an empty shadow. -/
structure Partitioned (dnl : DNL) (db : IsoDB) : Prop where
  holds : ∀ u iso, db.isoIDs u = some iso → Holds dnl db iso u
  closed : ∀ u v iso, db.isoIDs u = some iso → ConnectedAt dnl u v → db.isoIDs v = some iso
  apart : ∀ u v iso, db.isoIDs u = some iso → db.isoIDs v = some iso → ConnectedAt dnl u v
  idle : ∀ iso < db.isos.length, (∀ u, db.isoIDs u ≠ some iso) → db.isos[iso]? = some ⟨[], [], .SHADOW⟩
  bounded : Bounded db

/-- Isos that are built from terminals, one for each net, are a partition. -/
theorem partitioned_of_source (db : IsoDB) (source : Nat → Nat → Prop)
    (one : ∀ iso r r', source iso r → source iso r' → ConnectedAt dnl r r')
    (same : ∀ iso iso' r r', source iso r → source iso' r' → ConnectedAt dnl r r' → iso = iso')
    (holds : ∀ iso r, source iso r → Holds dnl db iso r)
    (ids : ∀ u, (∃ iso r, source iso r ∧ ConnectedAt dnl r u ∧ db.isoIDs u = some iso) ∨
      (db.isoIDs u = none ∧ ∀ iso r, source iso r → ¬ ConnectedAt dnl r u))
    (idle : ∀ iso < db.isos.length, (∃ r, source iso r) ∨ db.isos[iso]? = some ⟨[], [], .SHADOW⟩)
    (bounded : Bounded db) : Partitioned dnl db := by
  have root (u iso : Nat) (set : db.isoIDs u = some iso) : ∃ r, source iso r ∧ ConnectedAt dnl r u := by
    rcases ids u with ⟨iso', r, src, path, set'⟩ | ⟨none_, -⟩
    · rw [set, Option.some.injEq] at set'
      exact ⟨r, set' ▸ src, path⟩
    · cases set.symm.trans none_
  have reached (iso r u : Nat) (src : source iso r) (path : ConnectedAt dnl r u) : db.isoIDs u = some iso := by
    rcases ids u with ⟨iso', r', src', path', set⟩ | ⟨-, free⟩
    · rw [same iso iso' r r' src src' (path.trans (path'.symm _ _ _)), set]
    · exact absurd path (free iso r src)
  constructor
  · intro u iso set
    obtain ⟨r, src, path⟩ := root u iso set
    exact (holds iso r src).of_connected db iso r u path
  · intro u v iso set path
    obtain ⟨r, src, path'⟩ := root u iso set
    exact reached iso r v src (path'.trans path)
  · intro u v iso left right
    obtain ⟨r, src, path⟩ := root u iso left
    obtain ⟨r', src', path'⟩ := root v iso right
    exact (path.symm _ _ _).trans ((one iso r r' src src').trans path')
  · intro iso below free
    rcases idle iso below with ⟨r, src⟩ | shadow
    · exact absurd (reached iso r r src .refl) (free r)
    · exact shadow
  · exact bounded

/-- An iso with several drivers. -/
def Several (dnl : DNL) (fid : Nat) : Prop := ∃ a b, a ≠ b ∧
  (ConnectedAt dnl fid a ∧ role dnl a = .driver) ∧
    (ConnectedAt dnl fid b ∧ role dnl b = .driver)

theorem Several.of_connected (fid u : Nat) (several : Several dnl fid) (path : ConnectedAt dnl fid u) :
    Several dnl u := by
  obtain ⟨a, b, different, left, right⟩ := several
  have back := path.symm _ _ _
  exact ⟨a, b, different, ⟨back.trans left.1, left.2⟩, ⟨back.trans right.1, right.2⟩⟩

theorem Holds.mem_multiDriverIsos (db : IsoDB) (iso fid : Nat) (holds : Holds dnl db iso fid) :
    iso ∈ multiDriverIsos db ↔ Several dnl fid := by
  obtain ⟨here, found, -, nodup, -, drivers, -⟩ := holds.lists
  have same : iso ∈ multiDriverIsos db ↔ 1 < here.drivers.length := by
    rw [Dnl.mem_multiDriverIsos, found]
    simp only [Option.some.injEq, exists_eq_left']
  rw [same, ← List.toFinset_card_of_nodup nodup, Finset.one_lt_card_iff]
  simp only [List.mem_toFinset, drivers]
  constructor
  · intro two
    obtain ⟨a, b, left, right, different⟩ := two
    exact ⟨a, b, different, left, right⟩
  · intro two
    obtain ⟨a, b, different, left, right⟩ := two
    exact ⟨a, b, left, right, different⟩

/-- The new iso of a task. -/
def Given (base : Nat) (tasks : List Nat) (iso task : Nat) : Prop := task ∈ tasks ∧ iso = base + tasks.idxOf task

theorem Given.unique (base : Nat) (tasks : List Nat) (iso a b : Nat) (left : Given base tasks iso a)
    (right : Given base tasks iso b) : a = b := by
  have places : tasks.idxOf a = tasks.idxOf b := Nat.add_left_cancel (left.2.symm.trans right.2)
  exact (List.idxOf_inj left.1).mp places

theorem exists_given (base : Nat) (tasks : List Nat) (nodup : tasks.Nodup) (iso : Nat) (least : base ≤ iso)
    (below : iso < base + tasks.length) : ∃ task, Given base tasks iso task := by
  have inside : iso - base < tasks.length := by omega
  refine ⟨tasks[iso - base], List.getElem_mem inside, ?_⟩
  rw [nodup.idxOf_getElem]
  omega

/-- What a round leaves that gives its tasks new isos. -/
structure RoundDone (dnl : DNL) (updateDriver : Bool) (tasks : List Nat) (db db' : IsoDB) : Prop where
  length : db'.isos.length = db.isos.length + tasks.length
  others : ∀ iso < db.isos.length, Kept iso db db'
  holds : ∀ iso task, Given db.isos.length tasks iso task → Holds dnl db' iso task
  ids : ∀ u, (∃ iso task, Given db.isos.length tasks iso task ∧ ConnectedAt dnl task u ∧ db'.isoIDs u = some iso) ∨
    (db'.isoIDs u = db.isoIDs u ∧ u ∉ tasks ∧ ∀ task ∈ tasks, ¬ Takes dnl updateDriver task u)
  bounded : Bounded db'

section Rounds

theorem roundDone_spec (updateDriver : Bool) (tasks shared : List Nat) (nodup : tasks.Nodup) (perm : shared.Perm tasks) (db : IsoDB)
    (bounded : Bounded db) (steady : ∀ task ∈ tasks, ∀ other ∈ tasks, Takes dnl updateDriver task other → task = other) :
    ∃ db', shared.foldlM (treatTask dnl updateDriver) (tasks.foldl IsoDB.addIso db) = some db' ∧
      RoundDone dnl updateDriver tasks db db' := by
  obtain ⟨isos, constants, ids⟩ := addIsos_spec tasks nodup db
  have length : (tasks.foldl IsoDB.addIso db).isos.length = db.isos.length + tasks.length := by
    rw [isos, List.length_append, List.length_replicate]
  have inTasks {task : Nat} (member : task ∈ shared) : task ∈ tasks := perm.subset member
  obtain ⟨db', ran, round⟩ := round_spec updateDriver (fun task => db.isos.length + tasks.idxOf task) shared
    (perm.nodup_iff.mpr nodup) (tasks.foldl IsoDB.addIso db)
    (fun task member => (ids task).trans (if_pos (inTasks member)))
    (fun task member => fresh_addIsos tasks nodup db bounded task (inTasks member))
    (fun a inA b _ same => (List.idxOf_inj (inTasks inA)).mp (Nat.add_left_cancel same))
    (fun a inA b inB => steady a (inTasks inA) b (inTasks inB))
    (by
      intro type iso member
      rw [constants] at member
      have below := bounded type iso member
      omega)
  refine ⟨db', ran, ?_⟩
  constructor
  · exact round.length.trans length
  · intro iso below
    obtain ⟨same, sets⟩ := round.others iso (fun task _ => by omega)
    rw [isos, List.getElem?_append_left below] at same
    rw [constants] at sets
    exact ⟨same, sets⟩
  · intro iso task given
    rw [given.2]
    exact round.holds task (perm.mem_iff.mpr given.1)
  · intro u
    rcases round.ids u with ⟨task, member, takes, set⟩ | ⟨kept, free⟩
    · exact Or.inl ⟨_, task, ⟨inTasks member, rfl⟩, takes.1, set⟩
    · rw [ids u] at kept
      by_cases own : u ∈ tasks
      · rw [if_pos own] at kept
        exact Or.inl ⟨_, u, ⟨own, rfl⟩, .refl, kept⟩
      · rw [if_neg own] at kept
        exact Or.inr ⟨kept, own, fun task member => free task (perm.mem_iff.mpr member)⟩
  · exact round.bounded

end Rounds

/-! ### The second round -/

/-- The terminal the drivers of a net leave to the second round. -/
def Head (dnl : DNL) (head : Nat) : Prop := ∃ task ∈ drivers dnl,
  Several dnl task ∧ ConnectedAt dnl task head ∧ role dnl head = .driver ∧
    ∀ u, ConnectedAt dnl task u → role dnl u = .driver → head ≤ u

/-- A net has one such terminal. -/
theorem Head.unique (a b : Nat) (left : Head dnl a) (right : Head dnl b)
    (path : ConnectedAt dnl a b) : a = b := by
  obtain ⟨task, -, -, toA, driverA, leastA⟩ := left
  obtain ⟨task', -, -, toB, driverB, leastB⟩ := right
  apply Nat.le_antisymm
  · exact leastA b (toA.trans path) driverB
  · exact leastB a (toB.trans (path.symm _ _ _)) driverA

section Second
variable {first : IsoDB} (done : RoundDone dnl false (drivers dnl) IsoDB.empty first)
include done

theorem head_of_min (iso head : Nat) (here : Iso) (task : Nat) (given : Given 0 (drivers dnl) iso task)
    (found : first.isos[iso]? = some here) (several : Several dnl task) (least : here.drivers.min? = some head) :
    ConnectedAt dnl task head ∧ Head dnl head := by
  obtain ⟨here', found', -, -, -, listed, -⟩ := (done.holds iso task given).lists
  obtain rfl := Option.some.inj (found.symm.trans found')
  obtain ⟨member, below⟩ := List.min?_eq_some_iff.mp least
  obtain ⟨path, driver⟩ := (listed head).mp member
  exact ⟨path, task, given.1, several, path, driver, fun u reached kind => below u ((listed u).mpr ⟨reached, kind⟩)⟩

/-- The tasks of the second round: one for each net with several drivers. -/
theorem mem_heads (nodup : (drivers dnl).Nodup) (state : IsoDB × List Nat)
    (shadowed : Shadowed first (multiDriverIsos first) state) :
    (∀ head ∈ state.2, Head dnl head) ∧ ∀ task ∈ drivers dnl, Several dnl task →
      ∃ head ∈ state.2, ConnectedAt dnl task head := by
  constructor
  · intro head member
    obtain ⟨iso, multi, here, found, least⟩ := (shadowed.heads head).mp member
    have below := (List.getElem?_eq_some_iff.mp found).1
    rw [done.length] at below
    obtain ⟨task, given⟩ := exists_given 0 _ nodup iso (Nat.zero_le _) below
    have several := ((done.holds iso task given).mem_multiDriverIsos).mp multi
    exact (head_of_min done iso head here task given found several least).2
  · intro task member several
    have given : Given 0 (drivers dnl) _ task := ⟨member, rfl⟩
    have multi := ((done.holds _ task given).mem_multiDriverIsos).mpr several
    obtain ⟨here, found, more⟩ := (mem_multiDriverIsos first _).mp multi
    have some_ : here.drivers ≠ [] := by
      intro empty
      rw [empty] at more
      cases more
    obtain ⟨head, least⟩ := Option.isSome_iff_exists.mp (List.isSome_min?_of_ne_nil some_)
    exact ⟨head, (shadowed.heads head).mpr ⟨_, multi, here, found, least⟩,
      (head_of_min done _ head here task given found several least).1⟩

/-- After the second round what a driver is connected to has an iso, and nothing else has. -/
theorem second_partition (nodup : (drivers dnl).Nodup)
    (driving : ∀ task ∈ drivers dnl, role dnl task = .driver) (state : IsoDB × List Nat)
    (shadowed : Shadowed first (multiDriverIsos first) state) (second : IsoDB)
    (again : RoundDone dnl true state.2 state.1 second) :
    Partitioned dnl second ∧
      ∀ u, second.isoIDs u ≠ none ↔ ∃ task ∈ drivers dnl, ConnectedAt dnl task u := by
  obtain ⟨heads, headOf⟩ := mem_heads done nodup state shadowed
  have length : state.1.isos.length = (drivers dnl).length :=
    shadowed.length.trans (done.length.trans (Nat.zero_add _))
  -- the isos of the first round that are left, and those of the second
  let source (iso r : Nat) : Prop := (Given 0 (drivers dnl) iso r ∧ ¬ Several dnl r) ∨
    Given state.1.isos.length state.2 iso r
  have below (iso r : Nat) (given : Given 0 (drivers dnl) iso r) : iso < state.1.isos.length := by
    have place := List.idxOf_lt_length_iff.mpr given.1
    have same := given.2
    omega
  have mixed (r r' : Nat) (single : ¬ Several dnl r) (member : r' ∈ state.2)
      (path : ConnectedAt dnl r r') : False := by
    obtain ⟨task, -, several, there, -⟩ := heads r' member
    exact single (several.of_connected task r (there.trans (path.symm _ _ _)))
  have single (r u : Nat) (member : r ∈ drivers dnl) (alone : ¬ Several dnl r)
      (path : ConnectedAt dnl r u) (driver : role dnl u = .driver) : r = u := by
    by_contra different
    exact alone ⟨r, u, different, ⟨.refl, driving r member⟩, path, driver⟩
  have ids (u : Nat) : (∃ iso r, source iso r ∧ ConnectedAt dnl r u ∧ second.isoIDs u = some iso) ∨
      (second.isoIDs u = none ∧ ∀ iso r, source iso r → ¬ ConnectedAt dnl r u) := by
    rcases again.ids u with ⟨iso, r, given, path, set⟩ | ⟨kept, -, free⟩
    · exact Or.inl ⟨iso, r, Or.inr given, path, set⟩
    · rw [shadowed.ids] at kept
      rcases done.ids u with ⟨iso, task, given, path, set⟩ | ⟨none_, outside, only⟩
      · refine Or.inl ⟨iso, task, Or.inl ⟨given, fun several => ?_⟩, path, kept.trans set⟩
        obtain ⟨head, member, there⟩ := headOf task given.1 several
        exact free head member ⟨(there.symm _ _ _).trans path, fun _ => rfl⟩
      · refine Or.inr ⟨kept.trans none_, fun iso r src path => ?_⟩
        rcases src with ⟨given, alone⟩ | given
        · refine only r given.1 ⟨path, fun driver => absurd given.1 ?_⟩
          rw [single r u given.1 alone path driver]
          exact outside
        · exact free r given.1 ⟨path, fun _ => rfl⟩
  constructor
  · apply partitioned_of_source second source _ _ _ ids
    · intro iso under
      rw [again.length] at under
      by_cases old : iso < state.1.isos.length
      · obtain ⟨task, given⟩ := exists_given 0 _ nodup iso (Nat.zero_le _) (by omega)
        by_cases several : Several dnl task
        · have multi := ((done.holds iso task given).mem_multiDriverIsos).mpr several
          obtain ⟨here, found, -⟩ := (mem_multiDriverIsos first iso).mp multi
          exact Or.inr ((again.others iso old).record.trans (shadowed.shadow iso multi here found))
        · exact Or.inl ⟨task, Or.inl ⟨given, several⟩⟩
      · obtain ⟨head, given⟩ := exists_given _ _ (shadowed.sorted.imp Nat.ne_of_lt) iso (Nat.le_of_not_lt old) under
        exact Or.inl ⟨head, Or.inr given⟩
    · exact again.bounded
    · intro iso r r' left right
      rcases left with ⟨given, -⟩ | given <;> rcases right with ⟨given', -⟩ | given'
      · rw [given.unique 0 _ iso r r' given']
        exact .refl
      · have under := below iso r given
        have same := given'.2
        omega
      · have under := below iso r' given'
        have same := given.2
        omega
      · rw [given.unique _ _ iso r r' given']
        exact .refl
    · intro iso iso' r r' left right path
      rcases left with ⟨given, alone⟩ | given <;> rcases right with ⟨given', alone'⟩ | given'
      · rw [given.2, given'.2, single r r' given.1 alone path (driving r' given'.1)]
      · exact (mixed r r' alone given'.1 path).elim
      · exact (mixed r' r alone' given.1 (path.symm _ _ _)).elim
      · rw [given.2, given'.2, (heads r given.1).unique r r' (heads r' given'.1) path]
    · intro iso r src
      rcases src with ⟨given, alone⟩ | given
      · have plain := mt ((done.holds iso r given).mem_multiDriverIsos).mp alone
        have kept : Kept iso first state.1 := ⟨shadowed.others iso plain, fun type => by rw [shadowed.constants]⟩
        exact (done.holds iso r given).of_kept (kept.trans (again.others iso (below iso r given)))
      · exact again.holds iso r given
  · intro u
    constructor
    · intro given
      rcases ids u with ⟨iso, r, src, path, -⟩ | ⟨none_, -⟩
      · rcases src with ⟨given, -⟩ | given
        · exact ⟨r, given.1, path⟩
        · obtain ⟨task, member, -, there, -⟩ := heads r given.1
          exact ⟨task, member, there.trans path⟩
      · exact absurd none_ given
    · intro given none_
      obtain ⟨task, member, path⟩ := given
      rcases ids u with ⟨iso, -, -, -, set⟩ | ⟨-, free⟩
      · cases none_.symm.trans set
      · by_cases several : Several dnl task
        · obtain ⟨head, inside, there⟩ := headOf task member several
          exact free _ head (Or.inr ⟨inside, rfl⟩) ((there.symm _ _ _).trans path)
        · exact free _ task (Or.inl ⟨⟨member, rfl⟩, several⟩) path

end Second

/-! ### The last pass -/

/-- A terminal the last pass gives an iso when it has none. -/
def Dangling (dnl : DNL) (fid : Nat) : Prop :=
  ((bitTermNet dnl fid).isSome && !(dnl.terms[fid]?.bind fun terminal => dnl.instances[terminal.owner]?).any
    Node.isLeaf || (outerNet dnl fid).isSome) = true

theorem Dangling.lt (fid : Nat) (dangling : Dangling dnl fid) : fid < dnl.terms.length := by
  by_contra outside
  have absent := List.getElem?_eq_none (Nat.le_of_not_lt outside)
  simp [Dangling, bitTermNet, outerNet, absent] at dangling

section Last

theorem treatDangling_spec (db : IsoDB) (parts : Partitioned dnl db) (fid : Nat) :
    ∃ db', treatDangling dnl db fid = some db' ∧ Partitioned dnl db' ∧ ∀ u, db'.isoIDs u ≠ none ↔
      db.isoIDs u ≠ none ∨ (Dangling dnl fid ∧ ConnectedAt dnl fid u) := by
  unfold treatDangling
  dsimp only
  by_cases taken : Dangling dnl fid ∧ db.isoIDs fid = none
  · obtain ⟨db', ran, done⟩ := @roundDone_spec dnl true [fid] [fid] (List.nodup_singleton fid) (.refl _) db parts.bounded
      (by simp)
    have length : db'.isos.length = db.isos.length + 1 := done.length
    have known (iso r : Nat) (set : db.isoIDs r = some iso) : iso < db.isos.length ∧ ¬ ConnectedAt dnl r fid := by
      obtain ⟨here, found, -⟩ := (parts.holds r iso set).lists
      refine ⟨(List.getElem?_eq_some_iff.mp found).1, fun path => ?_⟩
      cases taken.2.symm.trans (parts.closed r fid iso set path)
    have new (u : Nat) (path : ConnectedAt dnl fid u) : db'.isoIDs u = some db.isos.length := by
      rcases done.ids u with ⟨iso, task, given, -, set⟩ | ⟨-, -, free⟩
      · simp_all [Given]
      · exact absurd ⟨path, fun _ => rfl⟩ (free fid List.mem_cons_self)
    have kept (u : Nat) (free : ¬ ConnectedAt dnl fid u) : db'.isoIDs u = db.isoIDs u := by
      rcases done.ids u with ⟨iso, task, given, path, -⟩ | ⟨same, -⟩
      · simp_all [Given]
      · exact same
    refine ⟨db', ?_, ?_, ?_⟩
    · rw [if_pos (Bool.and_eq_true_iff.mpr ⟨taken.1, Option.isNone_iff_eq_none.mpr taken.2⟩)]
      simpa [treatTask, IsoDB.addIso, IsoDB.setIsoID] using ran
    · apply partitioned_of_source db' (fun iso r => db.isoIDs r = some iso ∨ (iso = db.isos.length ∧ r = fid))
      · intro iso r r' left right
        rcases left with set | ⟨rfl, rfl⟩ <;> rcases right with set' | ⟨same, rfl⟩
        · exact parts.apart r r' iso set set'
        · exact absurd same (Nat.ne_of_lt (known iso r set).1)
        · exact absurd (known _ r' set').1 (Nat.lt_irrefl _)
        · exact .refl
      · intro iso iso' r r' left right path
        rcases left with set | ⟨rfl, rfl⟩ <;> rcases right with set' | ⟨rfl, rfl⟩
        · exact Option.some.inj ((parts.closed r r' iso set path).symm.trans set')
        · exact absurd path (known iso r set).2
        · exact absurd (path.symm _ _ _) (known iso' r' set').2
        · rfl
      · intro iso r src
        rcases src with set | ⟨rfl, rfl⟩
        · exact (parts.holds r iso set).of_kept (done.others iso (known iso r set).1)
        · exact done.holds _ _ ⟨List.mem_cons_self, by simp⟩
      · intro u
        by_cases path : ConnectedAt dnl fid u
        · exact Or.inl ⟨_, fid, Or.inr ⟨rfl, rfl⟩, path, new u path⟩
        · cases set : db.isoIDs u with
          | some iso => exact Or.inl ⟨iso, u, Or.inl set, .refl, (kept u path).trans set⟩
          | none =>
              refine Or.inr ⟨(kept u path).trans set, fun iso r src path' => ?_⟩
              rcases src with set' | ⟨-, rfl⟩
              · cases set.symm.trans (parts.closed r u iso set' path')
              · exact path path'
      · intro iso below
        by_cases old : iso < db.isos.length
        · by_cases used : ∃ r, db.isoIDs r = some iso
          · exact Or.inl (used.imp fun r => Or.inl)
          · exact Or.inr ((done.others iso old).record.trans (parts.idle iso old (not_exists.mp used)))
        · exact Or.inl ⟨fid, Or.inr ⟨by omega, rfl⟩⟩
      · exact done.bounded
    · intro u
      by_cases path : ConnectedAt dnl fid u
      · exact iff_of_true (by rw [new u path]; exact Option.some_ne_none _) (Or.inr ⟨taken.1, path⟩)
      · rw [kept u path, or_iff_left fun both => path both.2]
  · refine ⟨db, if_neg fun both => taken ?_, parts, fun u => (or_iff_left_of_imp ?_).symm⟩
    · rw [Bool.and_eq_true, Option.isNone_iff_eq_none] at both
      exact both
    · intro given none_
      cases set : db.isoIDs fid with
      | none => exact taken ⟨given.1, set⟩
      | some iso => cases none_.symm.trans (parts.closed fid u iso set given.2)

theorem dangling_foldlM (fids : List Nat) (db : IsoDB) (parts : Partitioned dnl db) : ∃ db', fids.foldlM (treatDangling dnl) db = some db' ∧
      Partitioned dnl db' ∧ ∀ u, db'.isoIDs u ≠ none ↔
        db.isoIDs u ≠ none ∨ ∃ fid ∈ fids, Dangling dnl fid ∧ ConnectedAt dnl fid u := by
  induction fids generalizing db with
  | nil => exact ⟨db, rfl, parts, fun u => by simp⟩
  | cons fid rest ih =>
      obtain ⟨middle, first, parts', given⟩ := treatDangling_spec db parts fid
      obtain ⟨db', later, parts'', given'⟩ := ih middle parts'
      refine ⟨db', by rw [List.foldlM_cons, first]; exact later, parts'', fun u => ?_⟩
      rw [given' u, given u, List.exists_mem_cons_iff, or_assoc]

/-- The isos of the view, whatever the order of the tasks. -/
theorem buildIsos_spec (dnl : DNL) (schedule : List Nat → List Nat)
    (perm : ∀ tasks, (schedule tasks).Perm tasks) : ∃ db, buildIsos dnl schedule = some db ∧
      Partitioned dnl db ∧ ∀ u, db.isoIDs u ≠ none ↔
        ∃ v, ConnectedAt dnl v u ∧ (v ∈ drivers dnl ∨ Dangling dnl v) := by
  have nodup := drivers_nodup dnl
  have driving (task : Nat) (member : task ∈ drivers dnl) := role_of_mem_drivers task member
  obtain ⟨first, ran, done⟩ := roundDone_spec false (drivers dnl) _ nodup (perm _) IsoDB.empty
    (fun type iso member => absurd member (Finset.notMem_empty iso))
    (fun task _ other member takes => absurd (takes.2 (driving other member).2) Bool.false_ne_true)
  have shadowed := shadowed_foldl first (multiDriverIsos first) (List.nodup_range.filter _)
  generalize named : (multiDriverIsos first).foldl shadowStep (first, []) = state at shadowed
  obtain ⟨heads, -⟩ := mem_heads done nodup state shadowed
  obtain ⟨second, ran', again⟩ := roundDone_spec true state.2 _ (shadowed.sorted.imp Nat.ne_of_lt) (perm _) state.1
    (by
      intro type iso member
      rw [shadowed.length]
      rw [shadowed.constants] at member
      exact done.bounded type iso member)
    (fun head member other member' takes => (heads head member).unique head other (heads other member') takes.1)
  obtain ⟨parts, given⟩ := second_partition done nodup (fun task member => (driving task member).2) state shadowed second again
  obtain ⟨db, ran'', parts', given'⟩ := dangling_foldlM (List.range dnl.terms.length) second parts
  refine ⟨db, ?_, parts', fun u => ?_⟩
  · unfold buildIsos
    dsimp only
    rw [ran, Option.bind_some, named, ran', Option.bind_some, ran'']
  · rw [given' u, given u]
    constructor
    · intro either
      rcases either with ⟨task, member, path⟩ | ⟨fid, -, dangling, path⟩
      · exact ⟨task, path, Or.inl member⟩
      · exact ⟨fid, path, Or.inr dangling⟩
    · intro found
      obtain ⟨v, path, member | dangling⟩ := found
      · exact Or.inl ⟨v, member, path⟩
      · exact Or.inr ⟨v, List.mem_range.mpr dangling.lt, dangling, path⟩

end Last

end Partition

end Naja.Dnl
