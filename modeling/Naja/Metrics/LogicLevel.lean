import Naja.Metrics.FlatNetlist
import Naja.Worklist.While
import Mathlib.Data.List.Dedup
import Mathlib.Logic.Function.Basic

/-! The logic levels of a flattened design: a breadth-first search backward from every
starting terminal, all of them on one map of the best level of each driver. -/

namespace Naja.Metrics

/-- The terminals of the driver's instance that have a combinational arc to it. -/
def DNLFull.getCombinatorialInputs (dnl : DNLFull) (driver : Nat) : List Nat :=
  (dnl.instanceTerms (dnl.getDNLTerminalFromID driver).instanceID).filter (fun term =>
    (dnl.getSnlBitTerm driver).combinatorialInputs.contains (dnl.getDNLTerminalFromID term).bitTerm
      && (dnl.getSnlBitTerm term).direction != .Output)


/-- The terminals a search passed, each with the driver it was entered through. -/
abbrev Path := List (Nat × Option Nat)

/-- The largest level of a thread and the paths that have it. -/
structure LocalLevels where
  max : Nat
  paths : List Path
deriving DecidableEq, Repr

/-- The search from one start. -/
structure Search where
  queue : List (Nat × Path)
  dnlID2ll : Nat → Option Nat
  levels : LocalLevels

/-- What the threads share and what each of them has found. -/
structure Progress where
  dnlID2ll : Nat → Option Nat
  threads : Nat → LocalLevels

namespace LogicLevelComputer

def updateMax (path : Path) (levels : LocalLevels) : LocalLevels :=
  if levels.max < path.length - 1 then ⟨path.length - 1, [path]⟩
  else if path.length - 1 = levels.max ∧ 0 < levels.max then ⟨levels.max, levels.paths ++ [path]⟩
  else levels

variable (dnl : DNLFull)

/-- The inputs that are added to the queue for a driver, each with its path. -/
def newPaths (path : Path) (driver : Nat) : List (Nat × Path) :=
  ((dnl.getCombinatorialInputs driver).filter (fun term => !path.contains (term, some driver))).map
    (fun term => (term, path ++ [(term, some driver)]))

/-- The body of the loop over the drivers of an iso. -/
def visitDriver (path : Path) (state : (Nat → Option Nat) × List (Nat × Path)) (driver : Nat) :
    (Nat → Option Nat) × List (Nat × Path) :=
  if dnl.isSequential driver || dnl.isTopPort driver then state
  else if (state.1 driver).any (fun level => path.length < level) then state
  else (Function.update state.1 driver (some path.length), state.2 ++ newPaths dnl path driver)

/-- One round of the loop over the queue. -/
def step (search : Search) : Option Search :=
  match search.queue with
  | [] => none
  | (currentTerm, path) :: rest =>
      let state := (dnl.getDrivers currentTerm).foldl (visitDriver dnl path) (search.dnlID2ll, rest)
      some ⟨state.2, state.1, updateMax path search.levels⟩

def trace (fuel : Nat) (progress : Progress) (thread term : Nat) : Option Progress :=
  (Worklist.whileSome (step dnl) fuel
    ⟨[(term, [(term, none)])], progress.dnlID2ll, progress.threads thread⟩).map
    (fun search => ⟨search.dnlID2ll, Function.update progress.threads thread search.levels⟩)

/-- The non-input bits of the top design by their own IDs, and the sequential inputs of the leaves
by their numbers in the flattened design. -/
def termsToTrace : List Nat :=
  (((dnl.instanceTerms 0).filter (fun term => (dnl.getSnlBitTerm term).direction != .Input)).map
      (fun term => (dnl.getSnlBitTerm term).object.getID)
    ++ dnl.leaves.flatMap (fun leaf => (dnl.instanceTerms leaf).filter (fun term =>
      (dnl.getSnlBitTerm term).direction != .Output && dnl.isSequential term))).dedup

/-- The maxima of the threads, joined. -/
def combine (result levels : LocalLevels) : LocalLevels :=
  if result.max < levels.max then levels
  else if levels.max = result.max then ⟨result.max, result.paths ++ levels.paths⟩
  else result

/-- `tasks` says which thread traces which terminal, in the order in which they are traced.
Behind the null terminal nothing can be read: there is no result then. -/
def process (fuel : Nat) (tasks : List (Nat × Nat)) : Option LocalLevels :=
  if tasks.all (fun task => task.2 ≤ dnl.terms.length) then
    (tasks.foldlM (fun progress task => trace dnl fuel progress task.1 task.2)
      ⟨fun _ => none, fun _ => ⟨0, []⟩⟩).map
      (fun progress => (((tasks.map Prod.fst).dedup).map progress.threads).foldl combine ⟨0, []⟩)
  else none

end LogicLevelComputer

end Naja.Metrics
