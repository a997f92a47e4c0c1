import Naja.Metrics.LogicLevel
import Naja.Worklist.Walks

/-! The search from one start: it ends on every design, and on a design without loops what
it skips is no deeper than what some search has found or still has in its queue. -/

namespace Naja.Metrics

namespace DNLFull
variable (dnl : DNLFull)

/-- Backward through the net to a driver that does not stop the search, and on to an input of its cell. -/
def Crosses (term input : Nat) : Prop :=
  ∃ driver ∈ dnl.getDrivers term, (dnl.isSequential driver || dnl.isTopPort driver) = false ∧
    input ∈ dnl.getCombinatorialInputs driver

def Acyclic : Prop := ∀ term, ¬ Relation.TransGen dnl.Crosses term term

theorem combinatorialInput_lt (driver input : Nat) (member : input ∈ dnl.getCombinatorialInputs driver) :
    input < dnl.terms.length :=
  dnl.instanceTerms_lt _ input (List.mem_of_mem_filter member)

theorem Crosses.inside (term input : Nat) (crosses : dnl.Crosses term input) :
    input ∈ List.range dnl.terms.length := by
  obtain ⟨driver, -, -, member⟩ := crosses
  exact List.mem_range.mpr (dnl.combinatorialInput_lt driver input member)

theorem exists_iso (term driver : Nat) (member : driver ∈ dnl.getDrivers term) :
    ∃ iso ∈ dnl.isos, dnl.getDrivers term = iso.drivers := by
  unfold getDrivers at member ⊢
  cases found : dnl.getIso term with
  | none =>
      rw [found] at member
      nomatch member
  | some iso => exact ⟨iso, dnl.getIso_mem term iso found, rfl⟩

end DNLFull

namespace LogicLevelComputer
variable (dnl : DNLFull)

/-! ### One round -/

/-- The driver does not stop the search and has no better level yet. -/
def opens (levels : Nat → Option Nat) (length driver : Nat) : Bool :=
  !(dnl.isSequential driver || dnl.isTopPort driver) && !(levels driver).any (fun level => length < level)

theorem visitDriver_eq (path : Path) (levels : Nat → Option Nat) (queue : List (Nat × Path)) (driver : Nat) :
    visitDriver dnl path (levels, queue) driver =
      if opens dnl levels path.length driver then
        (Function.update levels driver (some path.length), queue ++ newPaths dnl path driver)
      else (levels, queue) := by
  unfold visitDriver opens
  by_cases stops : (dnl.isSequential driver || dnl.isTopPort driver) = true
  · rw [if_pos stops, stops]
    rfl
  · rw [if_neg stops, Bool.eq_false_iff.mpr stops]
    by_cases better : (levels driver).any (fun level => path.length < level) = true
    · rw [if_pos better, better]
      rfl
    · rw [if_neg better, Bool.eq_false_iff.mpr better]
      rfl

theorem opens_update (levels : Nat → Option Nat) (length driver : Nat)
    (isOpen : opens dnl levels length driver = true) :
    opens dnl (Function.update levels driver (some length)) length = opens dnl levels length := by
  funext other
  by_cases same : other = driver
  · rw [same, isOpen]
    unfold opens at isOpen ⊢
    rw [Function.update_self, Option.any_some, decide_eq_false (Nat.lt_irrefl length), Bool.not_false, Bool.and_true]
    exact (Bool.and_eq_true_iff.mp isOpen).1
  · unfold opens
    rw [Function.update_of_ne same]

theorem foldl_visitDriver (path : Path) (drivers : List Nat) (levels : Nat → Option Nat)
    (queue : List (Nat × Path)) :
    drivers.foldl (visitDriver dnl path) (levels, queue) =
      (fun driver => if driver ∈ drivers ∧ opens dnl levels path.length driver = true then some path.length
          else levels driver,
        queue ++ (drivers.filter (opens dnl levels path.length)).flatMap (newPaths dnl path)) := by
  induction drivers generalizing levels queue with
  | nil => simp
  | cons head rest ih =>
      rw [List.foldl_cons, visitDriver_eq]
      by_cases isOpen : opens dnl levels path.length head = true
      · rw [if_pos isOpen, ih, opens_update dnl levels path.length head isOpen, List.filter_cons, if_pos isOpen,
          List.flatMap_cons, List.append_assoc]
        congr 1
        funext driver
        by_cases same : driver = head
        · rw [same, Function.update_self, ite_self, if_pos ⟨List.mem_cons_self, isOpen⟩]
        · rw [Function.update_of_ne same]
          simp only [List.mem_cons, same, false_or]
      · rw [if_neg isOpen, ih, List.filter_cons, if_neg isOpen]
        congr 1
        funext driver
        by_cases same : driver = head
        · rw [same, if_neg (fun both => isOpen both.2), if_neg (fun both => isOpen both.2)]
        · simp only [List.mem_cons, same, false_or]

/-- What a round leaves behind. -/
theorem step_cases (search next : Search) (stepped : step dnl search = some next) :
    ∃ term path rest, search.queue = (term, path) :: rest ∧
      next.queue = rest ++
        ((dnl.getDrivers term).filter (opens dnl search.dnlID2ll path.length)).flatMap (newPaths dnl path) ∧
      (∀ driver, next.dnlID2ll driver =
        if driver ∈ dnl.getDrivers term ∧ opens dnl search.dnlID2ll path.length driver = true then some path.length
        else search.dnlID2ll driver) ∧
      next.levels = updateMax path search.levels := by
  unfold step at stepped
  split at stepped
  · nomatch stepped
  · next term path rest queue =>
      rw [foldl_visitDriver] at stepped
      cases stepped
      exact ⟨term, path, rest, queue, rfl, fun driver => rfl, rfl⟩

theorem updateMax_max (path : Path) (levels : LocalLevels) :
    (updateMax path levels).max = max levels.max (path.length - 1) := by
  unfold updateMax
  split
  · next larger => exact (Nat.max_eq_right (Nat.le_of_lt larger)).symm
  · next other =>
      have absorbed := Nat.max_eq_left (Nat.le_of_not_lt other)
      split
      · exact absorbed.symm
      · exact absorbed.symm

/-! ### The entries of the queue -/

/-- An entry is reached from the start along its path, and no step of the path is taken twice. -/
structure Entry (start : Nat) (entry : Nat × Path) : Prop where
  nonempty : 0 < entry.2.length
  nodup : entry.2.Nodup
  within : ∀ place ∈ entry.2, place = (start, none) ∨
    place ∈ (List.range dnl.terms.length).product ((dnl.isos.flatMap DNLIso.drivers).map some)
  walk : Worklist.Walk dnl.Crosses (entry.2.length - 1) start entry.1
  passed : ∀ place ∈ entry.2, Relation.ReflTransGen dnl.Crosses place.1 entry.1

variable {dnl}

theorem Entry.first (start : Nat) : Entry dnl start (start, [(start, none)]) where
  nonempty := Nat.one_pos
  nodup := List.nodup_singleton _
  within := fun place member => Or.inl (List.mem_singleton.mp member)
  walk := rfl
  passed := by
    intro place member
    rw [List.mem_singleton.mp member]

theorem mem_newPaths (path : Path) (driver : Nat) (entry : Nat × Path) :
    entry ∈ newPaths dnl path driver ↔ ∃ input ∈ dnl.getCombinatorialInputs driver,
      (input, some driver) ∉ path ∧ entry = (input, path ++ [(input, some driver)]) := by
  simp only [newPaths, List.mem_map, List.mem_filter, Bool.not_eq_true', List.contains_eq_mem, decide_eq_false_iff_not]
  constructor
  · intro found
    obtain ⟨input, ⟨member, fresh⟩, same⟩ := found
    exact ⟨input, member, fresh, same.symm⟩
  · intro found
    obtain ⟨input, member, fresh, same⟩ := found
    exact ⟨input, ⟨member, fresh⟩, same.symm⟩

theorem Entry.next (start term driver : Nat) (path : Path) (entry : Nat × Path) (old : Entry dnl start (term, path))
    (drives : driver ∈ dnl.getDrivers term) (isOpen : (dnl.isSequential driver || dnl.isTopPort driver) = false)
    (member : entry ∈ newPaths dnl path driver) : Entry dnl start entry := by
  obtain ⟨input, related, fresh, rfl⟩ := (mem_newPaths path driver entry).mp member
  have edge : dnl.Crosses term input := ⟨driver, drives, isOpen, related⟩
  have length : (path ++ [(input, some driver)]).length - 1 = path.length - 1 + 1 := by
    have positive : 0 < path.length := old.nonempty
    rw [List.length_append, List.length_singleton]
    omega
  constructor
  · simp
  · exact List.nodup_append.mpr ⟨old.nodup, List.nodup_singleton _, fun a inPath b last same =>
      fresh (List.mem_singleton.mp last ▸ same ▸ inPath)⟩
  · intro place inPath
    rcases List.mem_append.mp inPath with earlier | last
    · exact old.within place earlier
    · obtain ⟨iso, inIsos, same⟩ := dnl.exists_iso term driver drives
      rw [List.mem_singleton.mp last]
      refine Or.inr (List.pair_mem_product.mpr ⟨?_, ?_⟩)
      · exact List.mem_range.mpr (dnl.combinatorialInput_lt driver input related)
      · exact List.mem_map_of_mem (List.mem_flatMap.mpr ⟨iso, inIsos, same ▸ drives⟩)
  · change Worklist.Walk dnl.Crosses ((path ++ [(input, some driver)]).length - 1) start input
    rw [length]
    exact old.walk.concat edge
  · intro place inPath
    rcases List.mem_append.mp inPath with earlier | last
    · exact Relation.ReflTransGen.tail (old.passed place earlier) edge
    · rw [List.mem_singleton.mp last]

variable (dnl)

theorem opens_stops (levels : Nat → Option Nat) (length driver : Nat) (isOpen : opens dnl levels length driver = true) :
    (dnl.isSequential driver || dnl.isTopPort driver) = false := by
  have first := (Bool.and_eq_true_iff.mp isOpen).1
  rwa [Bool.not_eq_true'] at first

theorem entries_step (start : Nat) (search next : Search) (stepped : step dnl search = some next)
    (entries : ∀ entry ∈ search.queue, Entry dnl start entry) : ∀ entry ∈ next.queue, Entry dnl start entry := by
  obtain ⟨term, path, rest, queue, queue', -, -⟩ := step_cases dnl search next stepped
  rw [queue] at entries
  rw [queue']
  intro entry member
  rcases List.mem_append.mp member with old | new
  · exact entries entry (List.mem_cons_of_mem _ old)
  · obtain ⟨driver, drives, added⟩ := List.mem_flatMap.mp new
    obtain ⟨drives, isOpen⟩ := List.mem_filter.mp drives
    exact Entry.next start term driver path entry (entries _ List.mem_cons_self) drives
      (opens_stops dnl _ _ driver isOpen) added

/-! ### Ending -/

/-- No path is longer. -/
def maxLength : Nat := ((List.range dnl.terms.length).product ((dnl.isos.flatMap DNLIso.drivers).map some)).length + 1

/-- No round adds more entries. -/
def maxNew : Nat := (dnl.isos.map (fun iso => (iso.drivers.map (fun driver => (dnl.getCombinatorialInputs driver).length)).sum)).sum

def weight (queue : List (Nat × Path)) : Nat :=
  ((queue.map (fun entry => maxLength dnl - entry.2.length)).map (fun rank => (maxNew dnl + 1) ^ rank)).sum

theorem Entry.length_le (start : Nat) (entry : Nat × Path) (valid : Entry dnl start entry) :
    entry.2.length ≤ maxLength dnl := by
  have subset : entry.2 ⊆ (start, none) :: (List.range dnl.terms.length).product ((dnl.isos.flatMap DNLIso.drivers).map some) := by
    intro place member
    rcases valid.within place member with rfl | inside
    · exact List.mem_cons_self
    · exact List.mem_cons_of_mem _ inside
  exact (valid.nodup.subperm subset).length_le

theorem newPaths_length (path : Path) (driver : Nat) :
    (newPaths dnl path driver).length ≤ (dnl.getCombinatorialInputs driver).length := by
  rw [newPaths, List.length_map]
  exact List.length_filter_le _ _

theorem added_length (term : Nat) (levels : Nat → Option Nat) (path : Path) :
    (((dnl.getDrivers term).filter (opens dnl levels path.length)).flatMap (newPaths dnl path)).length ≤ maxNew dnl := by
  have each (drivers : List Nat) : ((drivers.filter (opens dnl levels path.length)).flatMap (newPaths dnl path)).length
      ≤ (drivers.map (fun driver => (dnl.getCombinatorialInputs driver).length)).sum := by
    induction drivers with
    | nil => exact Nat.le_refl 0
    | cons head rest ih =>
        have first := newPaths_length dnl path head
        rw [List.filter_cons, List.map_cons, List.sum_cons]
        split
        · rw [List.flatMap_cons, List.length_append]
          exact Nat.add_le_add first ih
        · omega
  cases drivers : dnl.getDrivers term with
  | nil => exact Nat.zero_le _
  | cons head rest =>
      obtain ⟨iso, inIsos, same⟩ := dnl.exists_iso term head (drivers ▸ List.mem_cons_self)
      rw [← drivers, same]
      calc ((iso.drivers.filter (opens dnl levels path.length)).flatMap (newPaths dnl path)).length
          ≤ (iso.drivers.map (fun driver => (dnl.getCombinatorialInputs driver).length)).sum := each iso.drivers
        _ ≤ maxNew dnl := List.le_sum_of_mem (List.mem_map_of_mem inIsos)

theorem weight_step (start : Nat) (search next : Search) (stepped : step dnl search = some next)
    (entries : ∀ entry ∈ search.queue, Entry dnl start entry) : weight dnl next.queue < weight dnl search.queue := by
  have later := entries_step dnl start search next stepped entries
  obtain ⟨term, path, rest, queue, queue', -, -⟩ := step_cases dnl search next stepped
  rw [queue'] at later
  rw [queue] at entries
  rw [queue, queue']
  simp only [weight, List.map_append, List.map_cons, List.sum_append, List.sum_cons]
  rw [Nat.add_comm]
  apply Nat.add_lt_add_right
  apply Worklist.weight_lt
  · rw [List.length_map]
    exact added_length dnl term search.dnlID2ll path
  · intro rank member
    obtain ⟨entry, added, rfl⟩ := List.mem_map.mp member
    have bounded := (later entry (List.mem_append_right _ added)).length_le
    obtain ⟨driver, -, inNew⟩ := List.mem_flatMap.mp added
    obtain ⟨input, -, -, rfl⟩ := (mem_newPaths path driver entry).mp inNew
    simp only [List.length_append, List.length_singleton] at bounded ⊢
    omega

/-! ### What a search skips -/

/-- A level is reached by this thread or another one, or will be from an entry of the queue. -/
def Promised (others : List Nat) (queue : List (Nat × Path)) (best level : Nat) : Prop :=
  level ≤ best ∨ (∃ other ∈ others, level ≤ other) ∨
    ∃ entry ∈ queue, ∃ n, Worklist.Deep dnl.Crosses n entry.1 ∧ level ≤ entry.2.length - 1 + n

/-- The level of a driver is one from which everything behind its inputs is promised. -/
def Kept (others : List Nat) (search : Search) : Prop :=
  ∀ driver level, search.dnlID2ll driver = some level → ∀ input ∈ dnl.getCombinatorialInputs driver,
    ∀ n, Worklist.Deep dnl.Crosses n input → Promised dnl others search.queue search.levels.max (level + n)

theorem Promised.mono (others : List Nat) (queue : List (Nat × Path)) (best level lower : Nat) (le : lower ≤ level)
    (promised : Promised dnl others queue best level) : Promised dnl others queue best lower := by
  rcases promised with here | ⟨other, member, there⟩ | ⟨entry, member, n, deep, ahead⟩
  · exact Or.inl (le.trans here)
  · exact Or.inr (Or.inl ⟨other, member, le.trans there⟩)
  · exact Or.inr (Or.inr ⟨entry, member, n, deep, le.trans ahead⟩)

variable {dnl}

/-- Without a loop no input of a new driver is on the path already. -/
theorem mem_newPaths_of_crosses (acyclic : dnl.Acyclic) (start term driver input : Nat) (path : Path)
    (valid : Entry dnl start (term, path)) (drives : driver ∈ dnl.getDrivers term)
    (isOpen : (dnl.isSequential driver || dnl.isTopPort driver) = false)
    (related : input ∈ dnl.getCombinatorialInputs driver) :
    (input, path ++ [(input, some driver)]) ∈ newPaths dnl path driver := by
  refine (mem_newPaths path driver _).mpr ⟨input, related, ?_, rfl⟩
  intro onPath
  exact acyclic term (Relation.TransGen.head' ⟨driver, drives, isOpen, related⟩ (valid.passed _ onPath))

/-- What was promised before a round is promised after it. The entry that is taken keeps its promise by
its deepest walk: a driver that is skipped has a better level, which only another entry can account for. -/
theorem Promised.step (acyclic : dnl.Acyclic) (start : Nat) (others : List Nat) (search next : Search)
    (stepped : LogicLevelComputer.step dnl search = some next) (entries : ∀ entry ∈ search.queue, Entry dnl start entry)
    (kept : Kept dnl others search) (level : Nat)
    (promised : Promised dnl others search.queue search.levels.max level) :
    Promised dnl others next.queue next.levels.max level := by
  obtain ⟨term, path, rest, queue, queue', -, levels⟩ := step_cases dnl search next stepped
  have valid : Entry dnl start (term, path) := entries _ (queue ▸ List.mem_cons_self)
  have positive : 0 < path.length := valid.nonempty
  have best : next.levels.max = max search.levels.max (path.length - 1) := by
    rw [levels, updateMax_max]
  obtain ⟨deepest, deep, last⟩ := Worklist.exists_deepest acyclic _ (DNLFull.Crosses.inside dnl) term
  -- a promise that the entry cannot account for is not touched by taking it
  have other (level : Nat) (promised : Promised dnl others search.queue search.levels.max level)
      (above : path.length - 1 + deepest < level) : Promised dnl others next.queue next.levels.max level := by
    rcases promised with here | there | ⟨entry, member, n, behind, ahead⟩
    · exact Or.inl (best ▸ here.trans (Nat.le_max_left _ _))
    · exact Or.inr (Or.inl there)
    · rw [queue] at member
      rcases List.mem_cons.mp member with rfl | inRest
      · have within := last n behind
        change level ≤ path.length - 1 + n at ahead
        omega
      · exact Or.inr (Or.inr ⟨entry, queue' ▸ List.mem_append_left _ inRest, n, behind, ahead⟩)
  by_cases above : path.length - 1 + deepest < level
  · exact other level promised above
  have le : level ≤ path.length - 1 + deepest := Nat.le_of_not_lt above
  cases deepest with
  | zero => exact Or.inl (best ▸ le.trans (Nat.le_max_right _ _))
  | succ n =>
      obtain ⟨input, ⟨driver, drives, isOpen, related⟩, behind⟩ := (Worklist.deep_succ n term).mp deep
      by_cases opened : opens dnl search.dnlID2ll path.length driver = true
      · have added := mem_newPaths_of_crosses acyclic start term driver input path valid drives isOpen related
        have inQueue : (input, path ++ [(input, some driver)]) ∈ next.queue := by
          rw [queue']
          apply List.mem_append_right
          exact List.mem_flatMap.mpr ⟨driver, List.mem_filter.mpr ⟨drives, opened⟩, added⟩
        refine Or.inr (Or.inr ⟨_, inQueue, n, behind, ?_⟩)
        rw [List.length_append, List.length_singleton]
        omega
      · have better : (search.dnlID2ll driver).any (fun known => path.length < known) = true := by
          unfold opens at opened
          rw [isOpen] at opened
          simpa using opened
        obtain ⟨known, found, more⟩ := (Option.any_eq_true _ _).mp better
        have more := of_decide_eq_true more
        have deeper := kept driver known found input related n behind
        exact Promised.mono dnl others _ _ (known + n) level (by omega) (other (known + n) deeper (by omega))

theorem Kept.step (acyclic : dnl.Acyclic) (start : Nat) (others : List Nat) (search next : Search)
    (stepped : LogicLevelComputer.step dnl search = some next) (entries : ∀ entry ∈ search.queue, Entry dnl start entry)
    (kept : Kept dnl others search) : Kept dnl others next := by
  intro driver level found input related n behind
  obtain ⟨term, path, rest, queue, queue', known, -⟩ := step_cases dnl search next stepped
  have valid : Entry dnl start (term, path) := entries _ (queue ▸ List.mem_cons_self)
  rw [known driver] at found
  by_cases visited : driver ∈ dnl.getDrivers term ∧ opens dnl search.dnlID2ll path.length driver = true
  · rw [if_pos visited] at found
    cases found
    have added := mem_newPaths_of_crosses acyclic start term driver input path valid visited.1
      (opens_stops dnl _ _ driver visited.2) related
    have inQueue : (input, path ++ [(input, some driver)]) ∈ next.queue := by
      rw [queue']
      apply List.mem_append_right
      exact List.mem_flatMap.mpr ⟨driver, List.mem_filter.mpr visited, added⟩
    refine Or.inr (Or.inr ⟨_, inQueue, n, behind, ?_⟩)
    rw [List.length_append, List.length_singleton]
    omega
  · rw [if_neg visited] at found
    exact Promised.step acyclic start others search next stepped entries kept _ (kept driver level found input related n behind)

end LogicLevelComputer

end Naja.Metrics
