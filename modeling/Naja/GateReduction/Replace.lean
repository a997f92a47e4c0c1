import Naja.GateReduction.Lookup
import Naja.Netlist.Objects

/-! A leaf instance is replaced by a primitive for the reduced table. The nets of its
terminals go to the inputs of the new instance one after the other: those of constant
type are passed over, and those whose count is in the list of unused variables. -/

namespace Naja.GateReduction
open TruthTable TruthTable.SNLTruthTable
open Naja.Primitives.PinRoles (evaluate)
open Netlist (NetType)

structure BitNet where
  id : Nat
  type : NetType
deriving DecidableEq, Repr

def BitNet.isConstant0 (net : BitNet) : Bool := net.type == .Assign0 || net.type == .Supply0

def BitNet.isConstant1 (net : BitNet) : Bool := net.type == .Assign1 || net.type == .Supply1

/-- `id` is that of the bit term, which the bits of a bus share. -/
structure Pin where
  id : Nat
  net : Option BitNet
deriving DecidableEq, Repr

/-- An instance of a model with one output, and with the inputs of its model before and after it. -/
structure Instance where
  before : List Pin
  output : Option BitNet
  after : List Pin
deriving DecidableEq, Repr

def Instance.inputs (instance_ : Instance) : List Pin := instance_.before ++ instance_.after

inductive InstTerm where
  | input (pin : Pin)
  | output (net : Option BitNet)
deriving DecidableEq, Repr

def InstTerm.net : InstTerm → Option BitNet
  | .input pin => pin.net
  | .output net => net

def InstTerm.isOutput : InstTerm → Bool
  | .input _ => false
  | .output _ => true

def Instance.getInstTerms (instance_ : Instance) : List InstTerm :=
  instance_.before.map .input ++ .output instance_.output :: instance_.after.map .input

/-- The nets of the terminals of the new instance. -/
structure Replaced where
  inputs : List (Option BitNet)
  output : Option BitNet
deriving DecidableEq, Repr

/-- The loop over the terminals of the old instance, each of which is disconnected: the nets that go to the
inputs of the new one, and the terminals the loop does not come to. -/
def connectTerms (indexes : List Nat) (reducedInputs : Nat) : List InstTerm → Nat → List BitNet →
    Except String (List BitNet × List InstTerm)
  | [], _, connected => .ok (connected, [])
  | term :: rest, originNonConstantIndex, connected =>
      match term.net with
      | none => .error "null net"
      | some bitNet =>
          if bitNet.isConstant0 || bitNet.isConstant1 || reducedInputs == 0 then
            connectTerms indexes reducedInputs rest originNonConstantIndex connected
          else if indexes.contains (originNonConstantIndex + 1) then
            connectTerms indexes reducedInputs rest (originNonConstantIndex + 1) connected
          else if connected.length + 1 = reducedInputs then .ok (connected ++ [bitNet], rest)
          else connectTerms indexes reducedInputs rest (originNonConstantIndex + 1) (connected ++ [bitNet])

/-- The output terminal has its net only while the loop has not come to it. -/
def replaceInstance (instance_ : Instance) (reducedInputs : Nat) (indexes : List Nat) : Except String Replaced :=
  (connectTerms indexes reducedInputs instance_.getInstTerms 0 []).map (fun walked =>
    { inputs := walked.1.map some ++ List.replicate (reducedInputs - walked.1.length) none
      output := if walked.2.any InstTerm.isOutput then instance_.output else none })

/-! ### What the replacement should be -/

section reduction
variable (instance_ : Instance) (known : List (Option Bool)) (indexes : List Nat)

/-- The nets of the inputs that are not known to be constant, the variables of the reduced table. -/
def remainingNets : List (Option BitNet) :=
  ((instance_.inputs.zip known).filter (fun pin => pin.2.isNone)).map (fun pin => pin.1.net)

/-- Without those of the variables in the list. -/
def keptNets : List (Option BitNet) :=
  ((remainingNets instance_ known).zipIdx.filter (fun net => !indexes.contains net.2)).map Prod.fst

/-- The nets of the constant inputs have their values. -/
def Respects (σ : Option BitNet → Bool) : Prop :=
  ∀ pin ∈ instance_.inputs.zip known, ∀ value, pin.2 = some value → σ pin.1.net = value

/-- The reduced table has the function of the instance on the inputs that are left. -/
def Reduces (table g : SNLTruthTable) : Prop :=
  ∀ σ, Respects instance_ known σ →
    evaluate table (instance_.inputs.map (fun pin => σ pin.net)) = some ( denotation g ((remainingNets instance_ known).map σ))

/-- The new instance drives the old output with the old function, from the inputs that are kept, each at its pin. -/
def PreservesFunction (table : SNLTruthTable) (p : Primitive) : Prop :=
  ∃ reduced, replaceInstance instance_ p.inputs indexes = .ok reduced ∧
    reduced.output = instance_.output ∧ reduced.inputs = keptNets instance_ known indexes ∧
    ∀ σ, Respects instance_ known σ →
      evaluate p.table (reduced.inputs.map σ) = evaluate table (instance_.inputs.map (fun pin => σ pin.net))

/-! ### When it is -/

/-- The nets of the inputs before the output, up to one that is not connected: those of no constant type, counted
from 1, whose count is not in the list. -/
def passedNets : List BitNet :=
  let nets := (((instance_.before.map Pin.net).takeWhile Option.isSome).filterMap id).filter
    (fun net => !(net.isConstant0 || net.isConstant1))
  ((nets.zipIdx 1).filter (fun net => !indexes.contains net.2)).map Prod.fst

/-- The primitive has an input, and the inputs that are kept are the first ones the loop comes to before the output. -/
def Aligned (p : Primitive) : Prop :=
  0 < p.inputs ∧ keptNets instance_ known indexes <+: (passedNets instance_ indexes).map some

end reduction

end Naja.GateReduction
