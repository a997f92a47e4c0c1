import Naja.Verilog.Connections
import Mathlib.Data.List.Sort

/-! Assign instances as continuous assignments. Consecutive assigns to neighbouring bits
of a bus, from constants or from neighbouring bits of a bus, are one group; consecutive
groups that cover a bus are one assignment of the bus. Here are the functions of the dumper. -/

namespace Naja.Verilog
open Netlist (NetType)

/-! ### Connectivity -/

def getInstTerm (inst : Instance) (term : Nat) : Option InstTerm := inst.instTerms.find? (fun t => t.term == term)

/-- The input of the assign primitive is its term 0, the output its term 1. -/
def getAssignConnectivity (inst : Instance) : Option (BitNet × BitNet) :=
  match getInstTerm inst 0, getInstTerm inst 1 with
  | some inputTerm, some outputTerm =>
      match inputTerm.net, outputTerm.net with
      | some inputNet, some outputNet => some (inputNet, outputNet)
      | _, _ => none
  | _, _ => none

def BitNet.isConstant0 (net : BitNet) : Bool := net.type == .Assign0 || net.type == .Supply0

def BitNet.isConstant1 (net : BitNet) : Bool := net.type == .Assign1 || net.type == .Supply1

/-! ### Groups -/

inductive AssignInputMode where
  | Bus | Constant
deriving DecidableEq, Repr

/-- A step is there from the second bit on. -/
structure AssignGroup where
  inputMode_ : AssignInputMode
  inputBits_ : List BitNet
  outputBits_ : List BusNetBit
  outputStep_ : Option Int := none
  inputStep_ : Option Int := none
deriving DecidableEq, Repr

def initializeAssignGroup (inputNet outputNet : BitNet) : Option AssignGroup :=
  match outputNet with
  | .scalar _ => none
  | .busBit outputBusBit =>
      if inputNet.isAssignConstant then some { inputMode_ := .Constant, inputBits_ := [inputNet], outputBits_ := [outputBusBit] }
      else
        match inputNet with
        | .scalar _ => none
        | .busBit _ => some { inputMode_ := .Bus, inputBits_ := [inputNet], outputBits_ := [outputBusBit] }

/-- The bit is next to the previous one, in the direction so far. -/
def goesOn (step : Option Int) (previous bit : BusNetBit) : Bool :=
  bit.bus == previous.bus && (bit.bit - previous.bit == 1 || bit.bit - previous.bit == -1) &&
    step.all (fun step => bit.bit - previous.bit == step)

def appendAssignGroup (group : AssignGroup) (inputNet outputNet : BitNet) : Option AssignGroup :=
  match outputNet, group.outputBits_.getLast? with
  | .busBit outputBusBit, some previousOutputBit =>
      if goesOn group.outputStep_ previousOutputBit outputBusBit then
        let next := { group with
          inputBits_ := group.inputBits_ ++ [inputNet]
          outputBits_ := group.outputBits_ ++ [outputBusBit]
          outputStep_ := some (outputBusBit.bit - previousOutputBit.bit) }
        match group.inputMode_ with
        | .Constant => if inputNet.isAssignConstant then some next else none
        | .Bus =>
            match inputNet, group.inputBits_.getLast? with
            | .busBit inputBusBit, some (.busBit previousInputBusBit) =>
                if goesOn group.inputStep_ previousInputBusBit inputBusBit then
                  some { next with inputStep_ := some (inputBusBit.bit - previousInputBusBit.bit) }
                else none
            | _, _ => none
      else none
  | _, _ => none

/-- The group as far as it goes, and the instances after it. -/
def takeGroup (group : AssignGroup) : List Instance → AssignGroup × List Instance
  | [] => (group, [])
  | inst :: rest =>
      match getAssignConnectivity inst with
      | none => (group, inst :: rest)
      | some (inputNet, outputNet) =>
          match appendAssignGroup group inputNet outputNet with
          | none => (group, inst :: rest)
          | some group => takeGroup group rest

theorem takeGroup_length (group : AssignGroup) (instances : List Instance) :
    (takeGroup group instances).2.length ≤ instances.length := by
  induction instances generalizing group with
  | nil => exact Nat.le_refl _
  | cons inst rest ih =>
      unfold takeGroup
      split
      · exact Nat.le_refl _
      · split
        · exact Nat.le_refl _
        · next group' _ => exact Nat.le_succ_of_le (ih group')

/-- What is written: an assign of its own, or a group of more than one. Text and chunk follow from it. -/
inductive AssignEmission where
  | single (inputNet outputNet : BitNet)
  | group (group : AssignGroup)
deriving DecidableEq, Repr

def collectEmissions : List Instance → List AssignEmission
  | [] => []
  | inst :: rest =>
      match getAssignConnectivity inst with
      | none => collectEmissions rest
      | some (inputNet, outputNet) =>
          match initializeAssignGroup inputNet outputNet with
          | none => .single inputNet outputNet :: collectEmissions rest
          | some group =>
              let taken := takeGroup group rest
              (if taken.1.outputBits_.length > 1 then .group taken.1 else .single inputNet outputNet) ::
                collectEmissions taken.2
termination_by instances => instances.length
decreasing_by
  · exact Nat.lt_succ_self _
  · exact Nat.lt_succ_self _
  · exact Nat.lt_succ_of_le (takeGroup_length _ _)

/-! ### Chunks -/

/-- Outputs in the order of their bus, inputs along with them. -/
def normalizeAssignGroupOutputOrder (inputBits : List BitNet) (outputBits : List BusNetBit) :
    List BitNet × List BusNetBit :=
  match outputBits with
  | first :: second :: _ =>
      if second.bit - first.bit ≠ getCanonicalRangeStep first.bus then (inputBits.reverse, outputBits.reverse)
      else (inputBits, outputBits)
  | _ => (inputBits, outputBits)

inductive AssignChunkInputKind where
  | Constant | Bus | Other
deriving DecidableEq, Repr

structure AssignBusChunk where
  outputBus_ : BusNet
  outputBits_ : List BusNetBit
  inputKind_ : AssignChunkInputKind
  inputBus_ : Option BusNet := none
  inputBusBits_ : List BusNetBit := []
  inputString_ : Expression

section expressions
variable (naming : Naming)

/-- Constants are written as such; a net of type supply has its name. -/
def getBitNetString (net : BitNet) : Expression :=
  if net.isAssignConstant then .literal ⟨true, 1, false, .BINARY, [typeChar net.type]⟩
  else
    match net with
    | .scalar net => .name (getNetName naming (.scalar net))
    | .busBit b => .select (getNetName naming (.bus b.bus)) b.bit

def getAssignInputString (inputNet : BitNet) : Expression :=
  if inputNet.isConstant0 then .literal ⟨true, 1, false, .BINARY, ['0']⟩
  else if inputNet.isConstant1 then .literal ⟨true, 1, false, .BINARY, ['1']⟩
  else getBitNetString naming inputNet

/-- A constant group holds constants only, each with its character. -/
def getAssignConstantString (bits : List BitNet) : Expression :=
  .literal ⟨true, bits.length, false, .BINARY, bits.map (fun bit => typeChar bit.type)⟩

def getBusBitRangeString (bits : List BusNetBit) : Expression :=
  match bits.head?, bits.getLast? with
  | some firstBit, some lastBit =>
      let busName := getNetName naming (.bus firstBit.bus)
      if firstBit.bit = firstBit.bus.msb ∧ lastBit.bit = firstBit.bus.lsb then .name busName
      else .range busName firstBit.bit lastBit.bit
  | _, _ => .concat []

def getBusAssignInputString (inputBits : List BusNetBit) : Expression :=
  if isCanonicalBusRangeOrder inputBits then getBusBitRangeString naming inputBits
  else .concat (inputBits.map (fun b => getBitNetString naming (.busBit b)))

def createSingleAssignBusChunk (inputNet outputNet : BitNet) : Option AssignBusChunk :=
  match outputNet with
  | .scalar _ => none
  | .busBit outputBusBit =>
      let inputString := getAssignInputString naming inputNet
      if inputNet.isAssignConstant then
        some { outputBus_ := outputBusBit.bus, outputBits_ := [outputBusBit], inputKind_ := .Constant, inputString_ := inputString }
      else
        match inputNet with
        | .busBit inputBusBit =>
            some {
              outputBus_ := outputBusBit.bus
              outputBits_ := [outputBusBit]
              inputKind_ := .Bus
              inputBus_ := some inputBusBit.bus
              inputBusBits_ := [inputBusBit]
              inputString_ := inputString }
        | .scalar _ =>
            some { outputBus_ := outputBusBit.bus, outputBits_ := [outputBusBit], inputKind_ := .Other, inputString_ := inputString }

def createAssignGroupBusChunk (group : AssignGroup) : Option AssignBusChunk :=
  let bits := normalizeAssignGroupOutputOrder group.inputBits_ group.outputBits_
  bits.2.head?.map (fun front =>
    match group.inputMode_ with
    | .Constant => {
        outputBus_ := front.bus
        outputBits_ := bits.2
        inputKind_ := .Constant
        inputString_ := getAssignConstantString bits.1 }
    | .Bus =>
        let inputBusBits := bits.1.filterMap BitNet.asBusBit
        {
          outputBus_ := front.bus
          outputBits_ := bits.2
          inputKind_ := .Bus
          inputBus_ := inputBusBits.head?.map BusNetBit.bus
          inputBusBits_ := inputBusBits
          inputString_ := getBusAssignInputString naming inputBusBits })

/-- `busChunk_`, where it has one -/
def AssignEmission.busChunk : AssignEmission → Option AssignBusChunk
  | .single inputNet outputNet => createSingleAssignBusChunk naming inputNet outputNet
  | .group g => createAssignGroupBusChunk naming g

/-! ### Whole buses -/

def AssignBusChunk.frontBit (chunk : AssignBusChunk) : Int := (chunk.outputBits_.head?.map BusNetBit.bit).getD 0

def AssignBusChunk.backBit (chunk : AssignBusChunk) : Int := (chunk.outputBits_.getLast?.map BusNetBit.bit).getD 0

def BusNet.width (bus : BusNet) : Nat := (bus.msb - bus.lsb).natAbs + 1

/-- The inputs are constants and bits of one bus. -/
def uniqueInput (chunks : List AssignBusChunk) : Bool :=
  chunks.all (fun chunk => chunk.inputKind_ != .Other) &&
    (chunks.filter (fun chunk => chunk.inputKind_ == .Bus)).all (fun chunk =>
      chunk.inputBus_ == ((chunks.filter (fun chunk => chunk.inputKind_ == .Bus)).head?.bind AssignBusChunk.inputBus_))

/-- The chunks follow each other from the most to the least significant bit. -/
def coversFrom (outputBus : BusNet) (expectedBit : Int) (coveredBits : Nat) : List AssignBusChunk → Bool
  | [] => coveredBits == outputBus.width && expectedBit == outputBus.lsb + getCanonicalRangeStep outputBus
  | chunk :: chunks =>
      isCanonicalBusRangeOrder chunk.outputBits_ && chunk.frontBit == expectedBit &&
        coversFrom outputBus (chunk.backBit + getCanonicalRangeStep outputBus) (coveredBits + chunk.outputBits_.length) chunks

/-- The order of the chunks of a bus. -/
def comesBefore (outputBus : BusNet) (lhs rhs : AssignBusChunk) : Bool :=
  if getCanonicalRangeStep outputBus < 0 then decide (rhs.frontBit ≤ lhs.frontBit) else decide (lhs.frontBit ≤ rhs.frontBit)

/-- The sorted chunks, when they make up their bus. -/
def areChunksWholeBusAssignable (outputBus : BusNet) (chunks : List AssignBusChunk) : Option (List AssignBusChunk) :=
  if chunks.length ≤ 1 then none
  else if !uniqueInput chunks then none
  else
    let sortedChunks := chunks.mergeSort (comesBefore outputBus)
    if coversFrom outputBus outputBus.msb 0 sortedChunks then some sortedChunks else none

def sameInputBus (sortedChunks : List AssignBusChunk) : Bool :=
  sortedChunks.all (fun chunk =>
    chunk.inputKind_ == .Bus && chunk.inputBus_ == sortedChunks.head?.bind AssignBusChunk.inputBus_)

def buildWholeBusAssignInputString (sortedChunks : List AssignBusChunk) : Expression :=
  let inputBits := sortedChunks.flatMap AssignBusChunk.inputBusBits_
  if sameInputBus sortedChunks && isCanonicalBusRangeOrder inputBits then getBusAssignInputString naming inputBits
  else .concat (sortedChunks.map AssignBusChunk.inputString_)

/-! ### Lines -/

/-- A line written for an emission, or for all the chunks of a bus. -/
inductive Line where
  | emission (emission : AssignEmission)
  | wholeBus (outputBus : BusNet) (sortedChunks : List AssignBusChunk)

def isChunkOf (outputBus : BusNet) (emission : AssignEmission) : Bool :=
  (emission.busChunk naming).any (fun chunk => chunk.outputBus_ == outputBus)

def linesOf : List AssignEmission → List Line
  | [] => []
  | emission :: rest =>
      match emission.busChunk naming with
      | none => .emission emission :: linesOf rest
      | some chunk =>
          let sameBusChunks := chunk :: (rest.takeWhile (isChunkOf naming chunk.outputBus_)).filterMap (AssignEmission.busChunk naming)
          match areChunksWholeBusAssignable chunk.outputBus_ sameBusChunks with
          | some sortedChunks =>
              .wholeBus chunk.outputBus_ sortedChunks :: linesOf (rest.dropWhile (isChunkOf naming chunk.outputBus_))
          | none => .emission emission :: linesOf rest
termination_by emissions => emissions.length
decreasing_by
  · exact Nat.lt_succ_self _
  · exact Nat.lt_succ_of_le (List.dropWhile_suffix _).length_le
  · exact Nat.lt_succ_self _

/-- `dumpAssignInstances` -/
def assignInstanceLines (assignInstances : List Instance) : List Line := linesOf naming (collectEmissions assignInstances)

/-- Other instances end a sequence of assigns. -/
def linesFrom (assignInstances : List Instance) : List Instance → List Line
  | [] => assignInstanceLines naming assignInstances
  | inst :: rest =>
      match inst.kind with
      | .assign => linesFrom (assignInstances ++ [inst]) rest
      | _ => assignInstanceLines naming assignInstances ++ linesFrom [] rest

/-- `assign target = source;` -/
structure Assignment where
  target : Expression
  source : Expression

def AssignEmission.text : AssignEmission → Assignment
  | .single inputNet outputNet => ⟨getBitNetString naming outputNet, getAssignInputString naming inputNet⟩
  | .group g =>
      match createAssignGroupBusChunk naming g with
      | some chunk => ⟨getBusBitRangeString naming chunk.outputBits_, chunk.inputString_⟩
      | none => ⟨.concat [], .concat []⟩

def Line.text : Line → Assignment
  | .emission e => e.text naming
  | .wholeBus outputBus sortedChunks =>
      ⟨.name (getNetName naming (.bus outputBus)), buildWholeBusAssignInputString naming sortedChunks⟩

end expressions

/-- How the assign instances of a module are grouped into lines. -/
def assignLines (m : Module) : List Line := linesFrom (naming m) [] m.instances

/-- The assignments `dumpInstances` writes. -/
def dumpInstances (m : Module) : List Assignment := (assignLines m).map (Line.text (naming m))

end Naja.Verilog
