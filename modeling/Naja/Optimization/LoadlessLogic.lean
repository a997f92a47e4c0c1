import Naja.Dnl.FlatIsos

/-! Removal of loadless logic. The isos are traced back from what is observed, the outputs of
the top and the leaves that drive nothing; a leaf that drives no traced iso is loadless. -/

namespace Naja.Optimization
open Naja.Dnl
open Naja.Primitives (Direction)

section Trace
variable (dnl : DNL) (db : IsoDB)

/-- The isos of the terminals of an instance, but for those of one direction. -/
def isosOf (but : Direction) (inst : Nat) : List Nat :=
  ((termsOf dnl inst).filter fun fid => directionOf dnl fid != but).filterMap db.isoIDs

def hasOutputs (inst : Nat) : Bool := (termsOf dnl inst).any fun fid => directionOf dnl fid != .Input

def getTopOutputIsos : List Nat := isosOf dnl db .Input 0

/-- What `getTracedIsos` traces. -/
def isosToTrace : List Nat :=
  getTopOutputIsos dnl db ++ (dnl.leaves.filter fun leaf => !hasOutputs dnl leaf).flatMap (isosOf dnl db .Output)

/-- What the drivers of an iso read. A terminal without an iso is left out: the null iso has no drivers. -/
def traceNext (iso : Nat) : List Nat :=
  ((db.isos[iso]?).elim [] Iso.drivers).flatMap fun driver =>
    ((dnl.terms[driver]?).toList.filter fun terminal => terminal.owner != 0).flatMap fun terminal =>
      isosOf dnl db .Output terminal.owner

/-- A worker keeps its trace from one iso to the next; `none` when the fuel runs out. -/
def getIsoTrace (trace : List Nat) (iso : Nat) : Option (List Nat) :=
  (Worklist.whileSome (Worklist.walkStep (fun _ current stack => (traceNext dnl db current).reverse ++ stack) fun _ => id)
    (((List.range db.isos.length).map fun iso => (traceNext dnl db iso).length).sum + 2) ⟨[iso], trace, ()⟩).map (·.visited)

/-- The isos are shared out among workers, each with a trace of its own. -/
def getTracedIsos (share : List Nat → List (List Nat)) : Option (List Nat) :=
  ((share (isosToTrace dnl db)).mapM fun isos : List Nat => isos.foldlM (getIsoTrace dnl db) []).map List.flatten

def getLoadlessInstances (traced : List Nat) : List (List Nat × Nat) :=
  ((dnl.leaves.filter fun leaf => leaf != 0 && hasOutputs dnl leaf &&
    !(isosOf dnl db .Input leaf).any fun iso => iso ∈ traced).map fun leaf => (dnl.path leaf, leaf)).mergeSort
      fun a b => a.2 ≤ b.2

/-- The instances `removeLoadlessLogic` removes. -/
def loadlessInstances (schedule : List Nat → List Nat) (share : List Nat → List (List Nat)) :
    Option (List (List Nat × Nat)) :=
  (buildIsos dnl schedule).bind fun db => (getTracedIsos dnl db share).map (getLoadlessInstances dnl db)

/-- An instance drives the first iso and reads the other one. -/
def Feeds (iso next : Nat) : Prop := ∃ driver terminal, dnl.terms[driver]? = some terminal ∧ db.isoIDs driver = some iso ∧
  role dnl driver = .driver ∧ terminal.owner ≠ 0 ∧ next ∈ isosOf dnl db .Output terminal.owner

/-- The iso has an influence on what is observed. -/
def Observed (iso : Nat) : Prop := ∃ root ∈ isosToTrace dnl db, Relation.ReflTransGen (Feeds dnl db) root iso

/-- The leaves that have outputs, none of them observed, by their numbers. -/
structure LoadlessExact (found : List (List Nat × Nat)) : Prop where
  sorted : found.Pairwise fun a b => a.2 ≤ b.2
  loadless : ∀ path inst, (path, inst) ∈ found ↔ inst ∈ dnl.leaves ∧ inst ≠ 0 ∧ hasOutputs dnl inst = true ∧
    (∀ iso ∈ isosOf dnl db .Input inst, ¬ Observed dnl db iso) ∧ dnl.path inst = path

variable {dnl db}

theorem mem_traceNext (parts : Partitioned dnl db) (iso next : Nat) :
    next ∈ traceNext dnl db iso ↔ Feeds dnl db iso next := by
  have drivers (driver : Nat) : driver ∈ (db.isos[iso]?).elim [] Iso.drivers ↔
      db.isoIDs driver = some iso ∧ role dnl driver = .driver := by
    by_cases used : ∃ u, db.isoIDs u = some iso
    · obtain ⟨u, set⟩ := used
      obtain ⟨here, found, -, -, -, drivers, -⟩ := (parts.holds u iso set).lists
      rw [found]
      exact (drivers driver).trans (and_congr_left fun _ => ⟨parts.closed u driver iso set, parts.apart u driver iso set⟩)
    · refine iff_of_false ?_ fun both => used ⟨driver, both.1⟩
      by_cases below : iso < db.isos.length
      · simp [parts.idle iso below (not_exists.mp used)]
      · simp [List.getElem?_eq_none (Nat.le_of_not_lt below)]
  simp only [traceNext, List.mem_flatMap, drivers, List.mem_filter, Option.mem_toList, bne_iff_ne]
  constructor
  · rintro ⟨driver, ⟨set, kind⟩, terminal, ⟨there, inner⟩, member⟩
    exact ⟨driver, terminal, there, set, kind, inner, member⟩
  · rintro ⟨driver, terminal, there, set, kind, inner, member⟩
    exact ⟨driver, ⟨set, kind⟩, terminal, ⟨there, inner⟩, member⟩

theorem walk_exact (parts : Partitioned dnl db) (trace : List Nat) (nodup : trace.Nodup)
    (done : ∀ a ∈ trace, ∀ b, Feeds dnl db a b → b ∈ trace) (iso : Nat) :
    ∃ visited, getIsoTrace dnl db trace iso = some visited ∧ visited.Nodup ∧
      ∀ a, a ∈ visited ↔ ∃ root ∈ iso :: trace, Relation.ReflTransGen (Feeds dnl db) root a := by
  obtain ⟨visited, ended, nodup', exact_⟩ := Worklist.walk_spec
    (fun _ current stack => (traceNext dnl db current).reverse ++ stack) (fun _ => id) (Feeds dnl db)
    (List.range db.isos.length) (fun iso => (traceNext dnl db iso).length)
    (by
      intro iso outside
      simp [traceNext, List.getElem?_eq_none (Nat.le_of_not_lt (mt List.mem_range.mpr outside))])
    (by
      intro visited current stack
      constructor
      · exact ⟨_, rfl, by simp, fun item member => (mem_traceNext parts _ item).mp (List.mem_reverse.mp member)⟩
      · exact fun item edge => Or.inr (Or.inr (List.mem_append_left _ (List.mem_reverse.mpr ((mem_traceNext parts _ item).mpr edge)))))
    trace nodup done iso () _ (Nat.lt_succ_self _)
  refine ⟨visited, ?_, nodup', exact_⟩
  unfold getIsoTrace
  exact congrArg (Option.map (·.visited)) ended

/-- The trace of one worker. -/
theorem trace_spec (parts : Partitioned dnl db) (isos trace : List Nat) (nodup : trace.Nodup)
    (done : ∀ a ∈ trace, ∀ b, Feeds dnl db a b → b ∈ trace) :
    ∃ trace', isos.foldlM (getIsoTrace dnl db) trace = some trace' ∧
      ∀ iso, iso ∈ trace' ↔ ∃ root ∈ isos ++ trace, Relation.ReflTransGen (Feeds dnl db) root iso := by
  induction isos generalizing trace with
  | nil =>
      refine ⟨trace, rfl, fun iso => ⟨fun member => ⟨iso, member, .refl⟩, fun given => ?_⟩⟩
      obtain ⟨root, member, path⟩ := given
      induction path with
      | refl => exact member
      | tail _ edge ih => exact done _ ih _ edge
  | cons first rest ih =>
      obtain ⟨visited, ended, nodup', exact_⟩ := walk_exact parts trace nodup done first
      obtain ⟨trace', ran, all⟩ := ih visited nodup' (by
        intro a seen b edge
        obtain ⟨root, member, path⟩ := (exact_ a).mp seen
        exact (exact_ b).mpr ⟨root, member, path.tail edge⟩)
      refine ⟨trace', by rw [List.foldlM_cons, ended]; exact ran, fun iso => (all iso).trans ?_⟩
      have again : (∃ root ∈ visited, Relation.ReflTransGen (Feeds dnl db) root iso) ↔
          ∃ root ∈ first :: trace, Relation.ReflTransGen (Feeds dnl db) root iso := by
        refine ⟨fun given => ?_, fun given => ⟨iso, (exact_ iso).mpr given, .refl⟩⟩
        obtain ⟨root, seen, path⟩ := given
        obtain ⟨root', inside, path'⟩ := (exact_ root).mp seen
        exact ⟨root', inside, path'.trans path⟩
      simp only [List.mem_append, or_and_right, exists_or, again]
      simp [or_and_right, exists_or, or_left_comm, or_assoc]

/-- The traces of the workers. -/
theorem mapM_spec (parts : Partitioned dnl db) (shares : List (List Nat)) :
    ∃ traces, (shares.mapM fun isos : List Nat => isos.foldlM (getIsoTrace dnl db) []) = some traces ∧
      ∀ iso, iso ∈ traces.flatten ↔ ∃ root ∈ shares.flatten, Relation.ReflTransGen (Feeds dnl db) root iso := by
  induction shares with
  | nil => exact ⟨[], rfl, by simp⟩
  | cons isos rest ih =>
      obtain ⟨traces, ran, all⟩ := ih
      obtain ⟨trace, first, exact_⟩ := trace_spec parts isos [] List.nodup_nil (by simp)
      refine ⟨trace :: traces, by rw [List.mapM_cons, first, ran]; rfl, fun iso => ?_⟩
      simp [exact_, all, or_and_right, exists_or]

end Trace

/-- What is found loadless depends neither on the order the isos are built in nor on how they are shared out. -/
theorem loadlessInstances_exact (dnl : DNL) (schedule : List Nat → List Nat) (perm : ∀ tasks, (schedule tasks).Perm tasks)
    (share : List Nat → List (List Nat)) (split : ∀ isos, (share isos).flatten.Perm isos) :
    ∃ db found, buildIsos dnl schedule = some db ∧ loadlessInstances dnl schedule share = some found ∧
      LoadlessExact dnl db found := by
  obtain ⟨db, ran, parts, -⟩ := buildIsos_spec dnl schedule perm
  obtain ⟨traces, traced, all⟩ := mapM_spec parts (share (isosToTrace dnl db))
  refine ⟨db, getLoadlessInstances dnl db traces.flatten, ran, ?_, ?_, fun path inst => ?_⟩
  · rw [loadlessInstances, ran, Option.bind_some, getTracedIsos, traced]
    rfl
  · exact (List.pairwise_mergeSort (by simp; omega) (by simp; omega) _).imp of_decide_eq_true
  · simp [getLoadlessInstances, all, Observed, (split _).mem_iff, and_assoc]

theorem loadlessInstances_twoDrivers : ∃ db found, buildIsos twoDriversDNL List.reverse = some db ∧
    loadlessInstances twoDriversDNL List.reverse (fun isos => [isos]) = some found ∧ LoadlessExact twoDriversDNL db found :=
  loadlessInstances_exact twoDriversDNL List.reverse List.reverse_perm (fun isos => [isos]) (by simp)

end Naja.Optimization
