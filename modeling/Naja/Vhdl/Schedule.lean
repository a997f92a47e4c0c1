import Naja.Vhdl.Syntax
import Mathlib.Data.List.Basic

/-! Scheduling of a straight-line clocked process. Variables are forwarded
through a map of their current values; a variable read before its first
assignment becomes state. The result is a list of writes that all read the state
before the activation. -/

namespace Naja.Vhdl

/-- The parts of a clocked process that the scheduler reads; `declarations` holds the names of each
variable declaration. -/
structure ClockedProcess where
  declarations : List (List Name)
  assignments : List Assignment
  sensitivityList : List Name
  combinational : Bool
  span : SourceSpan

structure ScheduledWrite where
  target : String
  source : String
  span : SourceSpan
  kind : AssignmentKind
deriving DecidableEq, Repr

structure ScheduleResult where
  writes : List ScheduledWrite
  retainedVariables : List String
  diagnostics : List Diagnostic
deriving DecidableEq, Repr

/-- The state of the loop over the assignments: the current source of each assigned variable, the
variables read before their first assignment, and the result so far. -/
structure Scheduler where
  values : List (String × String)
  retained : List String
  result : ScheduleResult
deriving DecidableEq, Repr

namespace Scheduler

def diagnose (s : Scheduler) (message : String) (span : SourceSpan) : Scheduler :=
  { s with result := { s.result with diagnostics := s.result.diagnostics ++ [⟨message, span⟩] } }

/-- Resolves a read: a variable stands for its current source, or for itself as state. -/
def resolve (declared : List String) (s : Scheduler) (source : String) : String × List String :=
  if declared.contains source then
    match s.values.lookup source with
    | none => (source, source :: s.retained)
    | some value => (value, s.retained)
  else (source, s.retained)

/-- One round of the loop; `error` is its early return. -/
def assign (declared : List String) (s : Scheduler) (a : Assignment) : Except ScheduleResult Scheduler :=
  if ¬ a.indices.isEmpty then
    .error { (s.diagnose "indexed assignments require RTL elaboration" a.span).result with writes := [] }
  else if a.value.kind ≠ .Name then
    .ok (s.diagnose "scheduled data values must be scalar names" a.value.span)
  else
    let (source, retained) := resolve declared s a.value.name
    match a.kind with
    | .Variable => .ok ⟨(key a.target, source) :: s.values, retained, s.result⟩
    | .Signal =>
        .ok ⟨s.values, retained,
          { s.result with writes := s.result.writes ++ [⟨key a.target, source, a.span, .Signal⟩] }⟩

/-- One declared name in the loop that ends the schedule. -/
def retain (s : Scheduler) (name : Name) : Scheduler :=
  if ¬ s.retained.contains (key name) then s
  else
    let s := { s with
      result := { s.result with retainedVariables := s.result.retainedVariables ++ [key name] } }
    match s.values.lookup (key name) with
    | none =>
        s.diagnose ("retained variable must be assigned on every activation: '" ++ name.spelling ++ "'")
          name.span
    | some value =>
        if s.retained.contains value then
          s.diagnose ("retained variable next value must resolve to a non-retained scalar name: '" ++
            name.spelling ++ "'") name.span
        else
          { s with
            result := { s.result with
              writes := s.result.writes ++ [⟨key name, value, name.span, .Variable⟩] } }

end Scheduler

def ClockedProcess.names (process : ClockedProcess) : List Name := process.declarations.flatten

def ClockedProcess.variableKeys (process : ClockedProcess) : List String := process.names.map key

def schedule (process : ClockedProcess) : ScheduleResult :=
  if process.combinational ∨ ¬ process.sensitivityList.isEmpty then
    ⟨[], [], [⟨"structured processes require RTL elaboration", process.span⟩]⟩
  else
    match process.assignments.foldlM (Scheduler.assign process.variableKeys) ⟨[], [], ⟨[], [], []⟩⟩ with
    | .error result => result
    | .ok s =>
        let result := (process.names.foldl Scheduler.retain s).result
        if result.diagnostics.isEmpty then result
        else { result with writes := [], retainedVariables := [] }

/-- The values of the signals and of the variables of the process. -/
structure State (Value : Type) where
  signals : String → Value
  locals : String → Value

section semantics
variable {Value : Type}

def set (store : String → Value) (name : String) (value : Value) : String → Value :=
  fun other => if other = name then value else store other

/-- An activation under way: signals are read from before the activation, and the last value
assigned to a signal waits for its end. -/
structure Activation (Value : Type) where
  locals : String → Value
  pending : String → Option Value

/-- A declared variable hides a signal of its name. -/
def read (declared : List String) (σ : State Value) (name : String) : Value :=
  if declared.contains name then σ.locals name else σ.signals name

def Activation.execute (declared : List String) (signals : String → Value) (e : Activation Value)
    (a : Assignment) : Activation Value :=
  let value := read declared ⟨signals, e.locals⟩ a.value.name
  match a.kind with
  | .Variable => ⟨set e.locals (key a.target) value, e.pending⟩
  | .Signal => ⟨e.locals, set e.pending (key a.target) (some value)⟩

/-- The body of a process in VHDL order. -/
def activate (process : ClockedProcess) (σ : State Value) : State Value :=
  let e := process.assignments.foldl (Activation.execute process.variableKeys σ.signals)
    ⟨σ.locals, fun _ => none⟩
  ⟨fun name => (e.pending name).getD (σ.signals name), e.locals⟩

/-- One write of a schedule: its source is read from the state `σ` before the activation. -/
def write (retained : List String) (σ next : State Value) (w : ScheduledWrite) : State Value :=
  let value := read retained σ w.source
  match w.kind with
  | .Signal => ⟨set next.signals w.target value, next.locals⟩
  | .Variable => ⟨next.signals, set next.locals w.target value⟩

/-- The writes of a schedule, all at once. -/
def ScheduleResult.activate (result : ScheduleResult) (σ : State Value) : State Value :=
  result.writes.foldl (write result.retainedVariables σ) σ

/-- Activations one after another; before each one the other drivers change the signals. -/
def run (step : State Value → State Value) (σ : State Value) :
    List ((String → Value) → String → Value) → State Value
  | [] => σ
  | stimulus :: rest => run step (step ⟨stimulus σ.signals, σ.locals⟩) rest

end semantics

end Naja.Vhdl
