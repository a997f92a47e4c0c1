import Naja.Metrics.LogicLevelSearch
import Mathlib.Order.Bounds.Basic

/-! The level that is reported. In any order of the starts it is the largest number of cells
that a walk from a traced terminal crosses; the maximum over the ports and the sequential inputs
is another one where the IDs of port bits are not the numbers of their terminals. -/

namespace Naja.Metrics

namespace DNLFull
variable (dnl : DNLFull)

/-- A non-input bit of the top design, or a sequential input of a leaf. -/
def Starts (term : Nat) : Prop :=
  (term ∈ dnl.instanceTerms 0 ∧ (dnl.getSnlBitTerm term).direction ≠ .Input) ∨
    ∃ leaf ∈ dnl.leaves, term ∈ dnl.instanceTerms leaf ∧ (dnl.getSnlBitTerm term).direction ≠ .Output ∧
      dnl.isSequential term = true

/-- A sequential output or a top port drives the net. -/
def Ends (term : Nat) : Prop :=
  ∃ driver ∈ dnl.getDrivers term, (dnl.isSequential driver || dnl.isTopPort driver) = true

/-- The numbers of leaf cells crossed on the way from a start to an end. -/
def depths : Set Nat := {n | ∃ term source, dnl.Starts term ∧ Worklist.Walk dnl.Crosses n term source ∧ dnl.Ends source}

/-- The numbers of leaf cells crossed on the way from a terminal that is traced. -/
def tracedDepths : Set Nat := {n | ∃ term ∈ LogicLevelComputer.termsToTrace dnl, Worklist.Deep dnl.Crosses n term}

/-- Every ID that is used as a terminal number is the one of a terminal or of the null terminal. -/
def IDsInRange : Prop :=
  ∀ term ∈ dnl.instanceTerms 0, (dnl.getSnlBitTerm term).direction ≠ .Input →
    (dnl.getSnlBitTerm term).object.getID ≤ dnl.terms.length

end DNLFull

namespace LogicLevelComputer
variable (dnl : DNLFull)

/-! ### One start -/

/-- What the rounds of a search keep. `before` is the largest level of the thread when the search begins. -/
structure SearchInv (start : Nat) (others : List Nat) (before : Nat) (search : Search) : Prop where
  entries : ∀ entry ∈ search.queue, Entry dnl start entry
  grows : before ≤ search.levels.max
  sound : search.levels.max = before ∨ Worklist.Deep dnl.Crosses search.levels.max start
  kept : dnl.Acyclic → Kept dnl others search
  complete : dnl.Acyclic → ∀ n, Worklist.Deep dnl.Crosses n start →
    Promised dnl others search.queue search.levels.max n

theorem SearchInv.step (start : Nat) (others : List Nat) (before : Nat) (search next : Search)
    (inv : SearchInv dnl start others before search) (stepped : step dnl search = some next) :
    SearchInv dnl start others before next := by
  obtain ⟨term, path, rest, queue, -, -, levels⟩ := step_cases dnl search next stepped
  have best : next.levels.max = max search.levels.max (path.length - 1) := by
    rw [levels, updateMax_max]
  constructor
  · exact entries_step dnl start search next stepped inv.entries
  · exact inv.grows.trans (best ▸ Nat.le_max_left _ _)
  · rcases Nat.le_total (path.length - 1) search.levels.max with le | le
    · rw [best, Nat.max_eq_left le]
      exact inv.sound
    · rw [best, Nat.max_eq_right le]
      have valid : Entry dnl start (term, path) := inv.entries _ (queue ▸ List.mem_cons_self)
      exact Or.inr ⟨term, valid.walk⟩
  · intro acyclic
    exact Kept.step acyclic start others search next stepped inv.entries (inv.kept acyclic)
  · intro acyclic n deep
    exact Promised.step acyclic start others search next stepped inv.entries (inv.kept acyclic) n
      (inv.complete acyclic n deep)

/-- The rounds that are enough for a search on any map of levels. -/
def enough : Nat := (maxNew dnl + 1) ^ (maxLength dnl - 1) + 1

theorem search_ends (start : Nat) (others : List Nat) (levels : LocalLevels) (known : Nat → Option Nat) (fuel : Nat)
    (suffices_ : enough dnl ≤ fuel)
    (kept : dnl.Acyclic → Kept dnl others ⟨[(start, [(start, none)])], known, levels⟩) :
    ∃ search, Worklist.whileSome (step dnl) fuel ⟨[(start, [(start, none)])], known, levels⟩ = some search ∧
      SearchInv dnl start others levels.max search ∧ search.queue = [] := by
  have begins : SearchInv dnl start others levels.max ⟨[(start, [(start, none)])], known, levels⟩ := by
    constructor
    · intro entry member
      rw [List.mem_singleton.mp member]
      exact Entry.first start
    · exact Nat.le_refl _
    · exact Or.inl rfl
    · exact kept
    · intro acyclic n deep
      exact Or.inr (Or.inr ⟨_, List.mem_singleton_self _, n, deep, Nat.le_add_left n _⟩)
  obtain ⟨search, ran, inv, ended⟩ := Worklist.whileSome_ends (step dnl) (SearchInv dnl start others levels.max)
    (fun search => weight dnl search.queue)
    (fun search next inv stepped => ⟨inv.step dnl start others levels.max search next stepped,
      weight_step dnl start search next stepped inv.entries⟩)
    fuel _ begins (by
      simp only [weight, List.map_cons, List.map_nil, List.sum_cons, List.sum_nil, List.length_singleton]
      unfold enough at suffices_
      omega)
  refine ⟨search, ran, inv, ?_⟩
  unfold step at ended
  split at ended
  · next empty => exact empty
  · cases ended

/-! ### All starts -/

/-- Some thread has reached the level. -/
def Reached (threads : List Nat) (progress : Progress) (level : Nat) : Prop :=
  ∃ thread ∈ threads, level ≤ (progress.threads thread).max

/-- What holds once the `traced` terminals have been traced. -/
structure ProgressInv (threads traced : List Nat) (progress : Progress) : Prop where
  sound : ∀ thread, (progress.threads thread).max = 0 ∨
    ∃ start ∈ traced, Worklist.Deep dnl.Crosses (progress.threads thread).max start
  kept : dnl.Acyclic → ∀ driver level, progress.dnlID2ll driver = some level →
    ∀ input ∈ dnl.getCombinatorialInputs driver, ∀ n, Worklist.Deep dnl.Crosses n input →
      Reached threads progress (level + n)
  complete : dnl.Acyclic → ∀ start ∈ traced, ∀ n, Worklist.Deep dnl.Crosses n start → Reached threads progress n

def otherMaxima (threads : List Nat) (progress : Progress) (thread : Nat) : List Nat :=
  (threads.filter (· ≠ thread)).map (fun other => (progress.threads other).max)

theorem reached_iff (threads : List Nat) (progress : Progress) (thread level : Nat) (member : thread ∈ threads) :
    Reached threads progress level ↔ level ≤ (progress.threads thread).max ∨
      ∃ other ∈ otherMaxima threads progress thread, level ≤ other := by
  constructor
  · intro reached
    obtain ⟨some_, inThreads, le⟩ := reached
    by_cases same : some_ = thread
    · exact Or.inl (same ▸ le)
    · refine Or.inr ⟨_, List.mem_map_of_mem (List.mem_filter.mpr ⟨inThreads, ?_⟩), le⟩
      exact decide_eq_true same
  · intro either
    rcases either with here | ⟨other, there, le⟩
    · exact ⟨thread, member, here⟩
    · obtain ⟨some_, inThreads, rfl⟩ := List.mem_map.mp there
      exact ⟨some_, (List.mem_filter.mp inThreads).1, le⟩

theorem otherMaxima_update (threads : List Nat) (progress : Progress) (known : Nat → Option Nat) (thread : Nat)
    (levels : LocalLevels) :
    otherMaxima threads ⟨known, Function.update progress.threads thread levels⟩ thread =
      otherMaxima threads progress thread := by
  apply List.map_congr_left
  intro other member
  have apart := of_decide_eq_true (List.mem_filter.mp member).2
  exact congrArg LocalLevels.max (Function.update_of_ne apart _ _)

theorem trace_spec (threads traced : List Nat) (progress : Progress) (thread term fuel : Nat)
    (suffices_ : enough dnl ≤ fuel) (member : thread ∈ threads) (inv : ProgressInv dnl threads traced progress) :
    ∃ next, trace dnl fuel progress thread term = some next ∧ ProgressInv dnl threads (traced ++ [term]) next := by
  have promised_of (level : Nat) (reached : Reached threads progress level) (queue : List (Nat × Path)) :
      Promised dnl (otherMaxima threads progress thread) queue (progress.threads thread).max level := by
    rcases (reached_iff threads progress thread level member).mp reached with here | there
    · exact Or.inl here
    · exact Or.inr (Or.inl there)
  obtain ⟨search, ran, done, empty⟩ := search_ends dnl term (otherMaxima threads progress thread)
    (progress.threads thread) progress.dnlID2ll fuel suffices_
    (fun acyclic driver level found input related n deep =>
      promised_of _ (inv.kept acyclic driver level found input related n deep) _)
  have reached_of (level : Nat) (promised : Promised dnl (otherMaxima threads progress thread) search.queue
      search.levels.max level) :
      Reached threads ⟨search.dnlID2ll, Function.update progress.threads thread search.levels⟩ level := by
    rw [reached_iff _ _ thread level member, otherMaxima_update]
    change level ≤ (Function.update progress.threads thread search.levels thread).max ∨ _
    rw [Function.update_self]
    rcases promised with here | there | ⟨entry, inQueue, -⟩
    · exact Or.inl here
    · exact Or.inr there
    · rw [empty] at inQueue
      nomatch inQueue
  refine ⟨⟨search.dnlID2ll, Function.update progress.threads thread search.levels⟩, ?_, ?_, ?_, ?_⟩
  · unfold trace
    rw [ran]
    rfl
  · intro other
    change (Function.update progress.threads thread search.levels other).max = 0 ∨ ∃ start ∈ traced ++ [term],
      Worklist.Deep dnl.Crosses (Function.update progress.threads thread search.levels other).max start
    have old (some_ : Nat) : (progress.threads some_).max = 0 ∨ ∃ start ∈ traced ++ [term],
        Worklist.Deep dnl.Crosses (progress.threads some_).max start := by
      rcases inv.sound some_ with zero | ⟨start, earlier, deep⟩
      · exact Or.inl zero
      · exact Or.inr ⟨start, List.mem_append_left _ earlier, deep⟩
    by_cases same : other = thread
    · rw [same, Function.update_self]
      rcases done.sound with unchanged | deep
      · rw [unchanged]
        exact old thread
      · exact Or.inr ⟨term, List.mem_append_right _ (List.mem_singleton_self term), deep⟩
    · rw [Function.update_of_ne same]
      exact old other
  · intro acyclic driver level found input related n deep
    exact reached_of _ (done.kept acyclic driver level found input related n deep)
  · intro acyclic start inTraced n deep
    rcases List.mem_append.mp inTraced with earlier | last
    · obtain ⟨some_, inThreads, le⟩ := inv.complete acyclic start earlier n deep
      rcases (reached_iff threads progress thread n member).mp ⟨some_, inThreads, le⟩ with here | there
      · exact reached_of n (Or.inl (here.trans done.grows))
      · exact reached_of n (Or.inr (Or.inl there))
    · rw [List.mem_singleton.mp last] at deep
      exact reached_of n (done.complete acyclic n deep)

theorem tasks_spec (threads : List Nat) (fuel : Nat) (suffices_ : enough dnl ≤ fuel) (tasks : List (Nat × Nat))
    (inThreads : ∀ task ∈ tasks, task.1 ∈ threads) (traced : List Nat) (progress : Progress)
    (inv : ProgressInv dnl threads traced progress) :
    ∃ last, tasks.foldlM (fun progress task => trace dnl fuel progress task.1 task.2) progress = some last ∧
      ProgressInv dnl threads (traced ++ tasks.map Prod.snd) last := by
  induction tasks generalizing traced progress with
  | nil => exact ⟨progress, rfl, by rwa [List.map_nil, List.append_nil]⟩
  | cons task rest ih =>
      obtain ⟨next, ran, later⟩ := trace_spec dnl threads traced progress task.1 task.2 fuel suffices_
        (inThreads task List.mem_cons_self) inv
      obtain ⟨last, done, kept⟩ := ih (fun other member => inThreads other (List.mem_cons_of_mem _ member)) _ next later
      refine ⟨last, ?_, ?_⟩
      · rw [List.foldlM_cons, ran]
        exact done
      · rwa [List.map_cons, List.append_cons]

theorem combine_max (result levels : LocalLevels) : (combine result levels).max = max result.max levels.max := by
  unfold combine
  split
  · next larger => exact (Nat.max_eq_right (Nat.le_of_lt larger)).symm
  · next other =>
      have absorbed := Nat.max_eq_left (Nat.le_of_not_lt other)
      split
      · exact absorbed.symm
      · exact absorbed.symm

theorem foldl_combine (all : List LocalLevels) (result : LocalLevels) :
    IsGreatest (insert result.max {level | ∃ levels ∈ all, levels.max = level}) (all.foldl combine result).max := by
  induction all generalizing result with
  | nil => simp
  | cons head rest ih =>
      obtain ⟨inside, above⟩ := ih (combine result head)
      rw [combine_max] at inside above
      rw [List.foldl_cons]
      constructor
      · rcases inside with first | ⟨levels, member, same⟩
        · rcases Nat.le_total result.max head.max with le | le
          · exact Or.inr ⟨head, List.mem_cons_self, by rw [first, Nat.max_eq_right le]⟩
          · exact Or.inl (by rw [first, Nat.max_eq_left le])
        · exact Or.inr ⟨levels, List.mem_cons_of_mem _ member, same⟩
      · have joined := above (Set.mem_insert _ _)
        intro level member
        rcases member with rfl | ⟨levels, member, rfl⟩
        · exact (Nat.le_max_left _ _).trans joined
        · rcases List.mem_cons.mp member with rfl | later
          · exact (Nat.le_max_right _ _).trans joined
          · exact above (Set.mem_insert_of_mem _ ⟨levels, later, rfl⟩)

/-- The search over all starts ends, and on a design without loops it finds their largest depth. -/
theorem process_spec (tasks : List (Nat × Nat)) (inRange : ∀ task ∈ tasks, task.2 ≤ dnl.terms.length) (fuel : Nat)
    (suffices_ : enough dnl ≤ fuel) :
    ∃ result, process dnl fuel tasks = some result ∧
      (result.max = 0 ∨ ∃ task ∈ tasks, Worklist.Deep dnl.Crosses result.max task.2) ∧
      (dnl.Acyclic → ∀ task ∈ tasks, ∀ n, Worklist.Deep dnl.Crosses n task.2 → n ≤ result.max) := by
  have begins : ProgressInv dnl (tasks.map Prod.fst).dedup [] ⟨fun _ => none, fun _ => ⟨0, []⟩⟩ := by
    constructor
    · exact fun _ => Or.inl rfl
    · exact fun _ driver level found => nomatch found
    · exact fun _ start member => nomatch member
  obtain ⟨last, ran, inv⟩ := tasks_spec dnl (tasks.map Prod.fst).dedup fuel suffices_ tasks
    (fun task member => List.mem_dedup.mpr (List.mem_map_of_mem member)) [] _ begins
  rw [List.nil_append] at inv
  obtain ⟨inside, above⟩ := foldl_combine (((tasks.map Prod.fst).dedup).map last.threads) ⟨0, []⟩
  refine ⟨(((tasks.map Prod.fst).dedup).map last.threads).foldl combine ⟨0, []⟩, ?_, ?_, ?_⟩
  · unfold process
    rw [if_pos (List.all_eq_true.mpr (fun task member => decide_eq_true (inRange task member))), ran]
    rfl
  · rcases inside with zero | ⟨levels, member, same⟩
    · exact Or.inl zero
    · obtain ⟨thread, -, rfl⟩ := List.mem_map.mp member
      rw [← same]
      rcases inv.sound thread with zero | ⟨start, traced, deep⟩
      · exact Or.inl zero
      · obtain ⟨task, inTasks, rfl⟩ := List.mem_map.mp traced
        exact Or.inr ⟨task, inTasks, deep⟩
  · intro acyclic task member n deep
    obtain ⟨thread, inThreads, le⟩ := inv.complete acyclic task.2 (List.mem_map_of_mem member) n deep
    exact le.trans (above (Set.mem_insert_of_mem _ ⟨_, List.mem_map_of_mem inThreads, rfl⟩))

theorem mem_termsToTrace (id : Nat) :
    id ∈ termsToTrace dnl ↔
      (∃ term ∈ dnl.instanceTerms 0, (dnl.getSnlBitTerm term).direction ≠ .Input ∧
        (dnl.getSnlBitTerm term).object.getID = id) ∨
      ∃ leaf ∈ dnl.leaves, id ∈ dnl.instanceTerms leaf ∧ (dnl.getSnlBitTerm id).direction ≠ .Output ∧
        dnl.isSequential id = true := by
  simp only [termsToTrace, List.mem_dedup, List.mem_append, List.mem_map, List.mem_flatMap, List.mem_filter,
    Bool.and_eq_true, bne_iff_ne, ne_eq, and_assoc]

theorem idsInRange_iff : dnl.IDsInRange ↔ ∀ id ∈ termsToTrace dnl, id ≤ dnl.terms.length := by
  constructor
  · intro inRange id traced
    rcases (mem_termsToTrace dnl id).mp traced with ⟨term, member, direction, rfl⟩ | ⟨leaf, -, member, -⟩
    · exact inRange term member direction
    · exact (dnl.instanceTerms_lt leaf id member).le
  · intro inRange term member direction
    exact inRange _ ((mem_termsToTrace dnl _).mpr (Or.inl ⟨term, member, direction, rfl⟩))

theorem process_inRange (fuel : Nat) (tasks : List (Nat × Nat)) (result : LocalLevels)
    (done : process dnl fuel tasks = some result) (task : Nat × Nat) (member : task ∈ tasks) :
    task.2 ≤ dnl.terms.length := by
  unfold process at done
  split at done
  · next inRange => exact of_decide_eq_true (List.all_eq_true.mp inRange task member)
  · nomatch done

/-- On a design without loops the level is the largest depth of the terminals that are traced. -/
theorem process_traced (inRange : dnl.IDsInRange) (tasks : List (Nat × Nat))
    (all : (tasks.map Prod.snd).Perm (termsToTrace dnl)) (fuel : Nat) (suffices_ : enough dnl ≤ fuel) :
    ∃ result, process dnl fuel tasks = some result ∧
      (dnl.Acyclic → IsGreatest (insert 0 dnl.tracedDepths) result.max) := by
  have traced (task : Nat × Nat) (member : task ∈ tasks) : task.2 ∈ termsToTrace dnl :=
    all.mem_iff.mp (List.mem_map_of_mem member)
  obtain ⟨result, ran, sound, complete⟩ := process_spec dnl tasks
    (fun task member => (idsInRange_iff dnl).mp inRange _ (traced task member)) fuel suffices_
  refine ⟨result, ran, fun acyclic => ⟨?_, ?_⟩⟩
  · rcases sound with zero | ⟨task, member, deep⟩
    · exact Or.inl zero
    · exact Or.inr ⟨task.2, traced task member, deep⟩
  · intro n inside
    rcases inside with rfl | ⟨term, member, deep⟩
    · exact Nat.zero_le _
    · obtain ⟨task, inTasks, rfl⟩ := List.mem_map.mp (all.mem_iff.mpr member)
      exact complete acyclic task inTasks n deep

/-- The greatest element of one set is that of another when neither goes further. -/
theorem isGreatest_iff (here there : Set Nat) (n : Nat) (greatest : IsGreatest (insert 0 here) n) :
    IsGreatest (insert 0 there) n ↔ IsCofinalFor there (insert 0 here) ∧ IsCofinalFor here (insert 0 there) := by
  constructor
  · intro other
    exact ⟨fun m member => ⟨n, greatest.1, other.2 (Set.mem_insert_of_mem _ member)⟩,
      fun m member => ⟨n, other.1, greatest.2 (Set.mem_insert_of_mem _ member)⟩⟩
  · intro matched
    have above : n ∈ upperBounds (insert 0 there) := by
      intro m member
      rcases member with rfl | member
      · exact Nat.zero_le n
      · obtain ⟨k, inside, le⟩ := matched.1 member
        exact le.trans (greatest.2 inside)
    refine ⟨?_, above⟩
    rcases greatest.1 with zero | member
    · exact Or.inl zero
    · obtain ⟨m, inside, le⟩ := matched.2 member
      exact Nat.le_antisymm le (above inside) ▸ inside

/-- A buffer between the first bit of an input bus and the output: the ID of the output
is the number of the second bit of the bus. -/
def busPorts : DNLFull where
  snlBitTerm := fun term => match term with
    | 0 => ⟨.SNLBusTermBit 0 1, .Input, [], [], []⟩
    | 1 => ⟨.SNLBusTermBit 0 0, .Input, [], [], []⟩
    | 2 => ⟨.SNLScalarTerm 1, .Output, [], [], []⟩
    | 3 => ⟨.SNLScalarTerm 0, .Input, [], [], []⟩
    | _ => ⟨.SNLScalarTerm 1, .Output, [], [], [3]⟩
  terms := [⟨0, 0, true, some 1, [], []⟩, ⟨0, 1, true, some 2, [], []⟩, ⟨0, 2, true, some 0, [], []⟩,
    ⟨1, 3, false, some 1, [], [4]⟩, ⟨1, 4, false, some 0, [3], []⟩]
  instances := [⟨some (0, 2), false, false⟩, ⟨some (3, 4), false, true⟩]
  leaves := [1]
  isos := [⟨[4], [2]⟩, ⟨[0], [3]⟩, ⟨[1], []⟩]
  indexes_lt := by
    intro inst member first second indexes
    rcases List.mem_cons.mp member with rfl | member
    · cases indexes
      decide
    · rw [List.mem_singleton.mp member] at indexes
      cases indexes
      decide
  port_drivers := by decide
  port_readers := by decide

theorem busPorts_crosses (term input : Nat) (crosses : busPorts.Crosses term input) : term ≠ 3 ∧ input = 3 := by
  have few : ∀ term < 5, ∀ driver ∈ busPorts.getDrivers term, ∀ input ∈ busPorts.getCombinatorialInputs driver,
      (busPorts.isSequential driver || busPorts.isTopPort driver) = false → term ≠ 3 ∧ input = 3 := by decide
  obtain ⟨driver, drives, isOpen, related⟩ := crosses
  by_cases known : term < 5
  · exact few term known driver drives input related isOpen
  · have beyond : busPorts.terms[term]? = none := List.getElem?_eq_none (Nat.le_of_not_lt known)
    unfold DNLFull.getDrivers DNLFull.getIso DNLFull.getDNLTerminalFromID at drives
    rw [beyond] at drives
    nomatch drives

theorem busPorts_acyclic : busPorts.Acyclic := by
  intro term cycle
  obtain ⟨input, first, -⟩ := Relation.TransGen.head'_iff.mp cycle
  obtain ⟨source, -, last⟩ := Relation.TransGen.tail'_iff.mp cycle
  exact (busPorts_crosses term input first).1 (busPorts_crosses source term last).2

end LogicLevelComputer

end Naja.Metrics
