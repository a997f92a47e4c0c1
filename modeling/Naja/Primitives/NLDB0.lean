import Naja.TruthTable.SNLTruthTable
import Naja.Primitives.Term

/-! The combinational primitives of `NLDB0`: their signatures and the checks
that accept them, the interface and the combinatorial arcs each constructor
declares, and the truth table returned for each order ID. Bit ranges, fan-ins
and order IDs are natural numbers: no design reaches the 32-bit bounds. -/

namespace Naja.Primitives.NLDB0
open Naja.TruthTable Naja.TruthTable.BitDependencies

inductive GateType where
  | And | Nand | Or | Nor | Xor | Xnor | Buf | Not
deriving DecidableEq, Repr

def GateType.isNInput : GateType → Bool
  | .Buf | .Not => false
  | _ => true

def GateType.isNOutput : GateType → Bool
  | .Buf | .Not => true
  | _ => false

def GateType.getString : GateType → String
  | .And => "and"
  | .Nand => "nand"
  | .Or => "or"
  | .Nor => "nor"
  | .Xor => "xor"
  | .Xnor => "xnor"
  | .Buf => "buf"
  | .Not => "not"

inductive Signature where
  | assign
  | fa
  | nInputGate (type : GateType) (nbInputs : Nat)
  | nOutputGate (type : GateType) (nbOutputs : Nat)
  | mux2 (width : Nat)
  | tableSelect (width depth abits : Nat)
  | divMod (width : Nat) (isSigned : Bool)
  | addSub (width : Nat) (subtract : Bool)
  | multiply (width : Nat)
  | shift (width countWidth : Nat) (right arithmetic : Bool)
  | vectorSelect (width selectWidth abits : Nat) (isSigned : Bool)
  | vectorUpdate (width updateWidth abits : Nat) (isSigned : Bool)
deriving DecidableEq, Repr

def maxBit : Nat := 2 ^ 31 - 1
def maxDesignID : Nat := 2 ^ 32 - 1
def maxSize : Nat := 2 ^ 64 - 1

/-- The checks the `getOrCreate` functions make before they build a design. -/
def checkSignature : Signature → Except String Unit
  | .assign => .ok ()
  | .fa => .ok ()
  | .nInputGate type nbInputs =>
      if !type.isNInput then
        .error "NLDB0::getOrCreateNInputGate: type is not an NInput gate"
      else if nbInputs = 0 then .error "NLDB0::getOrCreateNInputGate: nbInputs is 0"
      else .ok ()
  | .nOutputGate type nbOutputs =>
      if !type.isNOutput then
        .error ("NLDB0::getOrCreateNOutputGate: type " ++ type.getString ++ " is not an NOutput gate")
      else if nbOutputs = 0 then .error "NLDB0::getOrCreateNOutputGate: nbOutputs is 0"
      else .ok ()
  | .mux2 width =>
      if width = 0 then .error "NLDB0::getOrCreateMux2: invalid width"
      else if maxDesignID < width then
        .error "NLDB0 width primitive: width does not fit a design ID"
      else .ok ()
  | .tableSelect width depth abits =>
      if width = 0 ∨ depth = 0 ∨ abits = 0 then
        .error "NLDB0::getOrCreateTableSelect: invalid table select signature"
      else if maxSize / width < depth then
        .error "NLDB0::getOrCreateTableSelect: data width overflow"
      else if maxBit < width * depth - 1 ∨ maxBit < width - 1 ∨ maxBit < abits - 1 then
        .error "NLDB0::getOrCreateTableSelect: bus bound does not fit a bit ID"
      else .ok ()
  | .divMod width _ =>
      if width = 0 then .error "NLDB0::getOrCreateDivMod: invalid divmod signature"
      else if maxDesignID < width then
        .error "NLDB0::getOrCreateDivMod: width does not fit a design ID"
      else .ok ()
  | .addSub width _ =>
      if width = 0 ∨ maxBit < width - 1 ∨ maxDesignID < width then
        .error "NLDB0::getOrCreateAddSub: invalid add/subtract width"
      else .ok ()
  | .multiply width =>
      if width = 0 ∨ maxBit < width - 1 ∨ maxDesignID < width then
        .error "NLDB0::getOrCreateMultiply: invalid multiply width"
      else .ok ()
  | .shift width countWidth right arithmetic =>
      if width = 0 ∨ countWidth = 0 ∨ maxBit < width - 1 ∨ maxBit < countWidth - 1 ∨
          (arithmetic ∧ !right) then
        .error "NLDB0::getOrCreateShift: invalid shift signature"
      else .ok ()
  | .vectorSelect width selectWidth abits _ =>
      if width = 0 ∨ selectWidth = 0 ∨ abits = 0 ∨ maxBit < width - 1 ∨ maxBit < selectWidth - 1 ∨
          maxBit < abits - 1 ∨ maxBit < width + 2 * selectWidth ∨
          SNLTruthTable.maxUInt32 < width + abits then
        .error "Invalid vector select signature"
      else .ok ()
  | .vectorUpdate width updateWidth abits _ =>
      if width = 0 ∨ updateWidth = 0 ∨ abits = 0 ∨ maxBit < width - 1 ∨ maxBit < updateWidth - 1 ∨
          maxBit < abits - 1 ∨ maxBit < width + 2 * updateWidth ∨
          SNLTruthTable.maxUInt32 < updateWidth + abits + 2 then
        .error "Invalid vector update signature"
      else .ok ()

/-- A primitive of the database: a signature that passed its checks. -/
structure Primitive where
  signature : Signature
  accepted : checkSignature signature = .ok ()
deriving DecidableEq

def boolDigit (b : Bool) : String := if b then "1" else "0"

def designName : Signature → String
  | .assign => "assign"
  | .fa => "naja_fa"
  | .nInputGate type nbInputs => type.getString ++ "_" ++ toString nbInputs
  | .nOutputGate type nbOutputs => type.getString ++ "_" ++ toString nbOutputs
  | .mux2 width => "naja_mux2__w" ++ toString width
  | .tableSelect width depth abits =>
      "naja_table_select__w" ++ toString width ++ "_d" ++ toString depth ++ "_a" ++ toString abits
  | .divMod width isSigned =>
      "naja_divmod__" ++ (if isSigned then "s" else "u") ++ "_w" ++ toString width
  | .addSub width subtract => (if subtract then "naja_sub" else "naja_add") ++ "__w" ++ toString width
  | .multiply width => "naja_mul__w" ++ toString width
  | .shift width countWidth right arithmetic =>
      "naja_shift__w" ++ toString width ++ "_c" ++ toString countWidth ++ "_r" ++ boolDigit right ++
        "_a" ++ boolDigit arithmetic
  | .vectorSelect width selectWidth abits isSigned =>
      "naja_vector_select__w" ++ toString width ++ "_r" ++ toString selectWidth ++ "_a" ++
        toString abits ++ "_s" ++ boolDigit isSigned
  | .vectorUpdate width updateWidth abits isSigned =>
      "naja_vector_update__w" ++ toString width ++ "_u" ++ toString updateWidth ++ "_a" ++
        toString abits ++ "_s" ++ boolDigit isSigned

def input (id width : Nat) : Term := ⟨id, .Input, width⟩
def output (id width : Nat) : Term := ⟨id, .Output, width⟩

/-- The terms of a primitive by increasing ID; scalar terms have width 1. -/
def getTerms : Signature → List Term
  | .assign => [input 0 1, output 1 1]
  | .fa => [input 0 1, input 1 1, input 2 1, output 3 1, output 4 1]
  | .nInputGate _ nbInputs => [output 0 1, input 1 nbInputs]
  | .nOutputGate _ nbOutputs => [output 0 nbOutputs, input 1 1]
  | .mux2 width => [input 0 width, input 1 width, input 2 1, output 3 width]
  | .tableSelect width depth abits => [input 0 (width * depth), input 1 abits, output 2 width]
  | .divMod width _ => [input 0 width, input 1 width, output 2 width, output 3 width]
  | .addSub width _ => [input 0 width, input 1 width, output 2 width]
  | .multiply width => [input 0 width, input 1 width, output 2 width]
  | .shift width countWidth _ _ => [input 0 width, input 1 countWidth, output 2 width]
  | .vectorSelect width selectWidth abits _ => [input 0 width, input 1 abits, output 2 selectWidth]
  | .vectorUpdate width updateWidth abits _ =>
      [input 0 width, input 1 updateWidth, input 2 abits, input 3 1, output 4 width]

def getBitTerms (p : Signature) : List BitTerm := bitTermsOf (getTerms p)

def getOrderID (p : Signature) (t : BitTerm) : Nat := orderID (getBitTerms p) t

def addCombinatorialArcs (inputs outputs : List BitTerm) : List (BitTerm × BitTerm) :=
  inputs.flatMap (fun i => outputs.map (fun o => (i, o)))

/-- The arcs declared when the primitive is created. -/
def combinatorialArcs : Signature → List (BitTerm × BitTerm)
  | .assign => addCombinatorialArcs [(input 0 1).getBit 0] [(output 1 1).getBit 0]
  | .fa =>
      addCombinatorialArcs [(input 0 1).getBit 0, (input 1 1).getBit 0, (input 2 1).getBit 0]
        [(output 3 1).getBit 0, (output 4 1).getBit 0]
  | .nInputGate _ nbInputs =>
      addCombinatorialArcs (input 1 nbInputs).getBits [(output 0 1).getBit 0]
  | .nOutputGate _ nbOutputs =>
      addCombinatorialArcs [(input 1 1).getBit 0] (output 0 nbOutputs).getBits
  | .mux2 width =>
      (List.range width).flatMap (fun bit =>
        addCombinatorialArcs
          [(input 0 width).getBit bit, (input 1 width).getBit bit, (input 2 1).getBit 0]
          [(output 3 width).getBit bit])
  | .tableSelect width depth abits =>
      (List.range width).flatMap (fun bit =>
        addCombinatorialArcs
          ((input 1 abits).getBits ++
            (List.range depth).map (fun row => (input 0 (width * depth)).getBit (row * width + bit)))
          [(output 2 width).getBit bit])
  | .divMod width _ =>
      addCombinatorialArcs ((input 0 width).getBits ++ (input 1 width).getBits)
        ((output 2 width).getBits ++ (output 3 width).getBits)
  | .addSub width _ =>
      addCombinatorialArcs ((input 0 width).getBits ++ (input 1 width).getBits) (output 2 width).getBits
  | .multiply width =>
      addCombinatorialArcs ((input 0 width).getBits ++ (input 1 width).getBits) (output 2 width).getBits
  | .shift width countWidth _ _ =>
      addCombinatorialArcs ((input 0 width).getBits ++ (input 1 countWidth).getBits)
        (output 2 width).getBits
  | .vectorSelect width selectWidth abits _ =>
      addCombinatorialArcs ((input 0 width).getBits ++ (input 1 abits).getBits)
        (output 2 selectWidth).getBits
  | .vectorUpdate width updateWidth abits _ =>
      (output 4 width).getBits.flatMap (fun term =>
        addCombinatorialArcs
          ((input 0 width).getBit term.bit ::
            ((input 1 updateWidth).getBits ++ (input 2 abits).getBits ++ [(input 3 1).getBit 0]))
          [term])

def getInputFlatTermDependencies (p : Signature) : List Word :=
  encodeBits (getInputFlatPositions (getBitTerms p))

def mux2Bits : Word :=
  (List.range 8).foldl (fun bits i =>
    let a := i % 2 = 1
    let b := i / 2 % 2 = 1
    let s := i / 4 % 2 = 1
    if (if s then b else a) then bits ||| BitVec.twoPow 64 i else bits) 0

def getMux2TruthTable : Except String SNLTruthTable :=
  SNLTruthTable.ofMask 3 mux2Bits (SNLTruthTable.fullDependencies 3)

def getFASumTruthTable : Except String SNLTruthTable :=
  SNLTruthTable.ofMask 3 0x96 (getInputFlatTermDependencies .fa)

def getFACoutTruthTable : Except String SNLTruthTable :=
  SNLTruthTable.ofMask 3 0xE8 (getInputFlatTermDependencies .fa)

def GateType.genericType : GateType → GenericType
  | .And => .AND
  | .Nand => .NAND
  | .Or => .OR
  | .Nor => .NOR
  | .Xor => .XOR
  | .Xnor => .XNOR
  | .Buf | .Not => .NONE

def unsupportedPrimitive (p : Signature) (type : GateType) : Except String SNLTruthTable :=
  .error ("NLDB0::getPrimitiveTruthTable: unsupported primitive type: " ++ type.getString ++ "." ++
    designName p)

/-- The table of a primitive that has one table only. -/
def getPrimitiveTruthTable (p : Signature) : Except String SNLTruthTable :=
  match p with
  | .addSub _ _ =>
      .error "NLDB0::getPrimitiveTruthTable: add/subtract primitive has no truth table"
  | .multiply _ => .error "NLDB0::getPrimitiveTruthTable: multiply primitive has no truth table"
  | .shift _ _ _ _ => .error "NLDB0::getPrimitiveTruthTable: shift primitive has no truth table"
  | .vectorSelect _ _ _ _ => .error "Vector select requires an output-bit truth table"
  | .vectorUpdate _ _ _ _ => .error "Vector update requires an output-bit truth table"
  | .divMod _ _ => .error "NLDB0::getPrimitiveTruthTable: divmod primitive has no truth table"
  | .tableSelect _ _ _ =>
      .error "NLDB0::getPrimitiveTruthTable: table select primitive has no truth table"
  | .assign => SNLTruthTable.ofMask 1 0b10 (getInputFlatTermDependencies p)
  | .fa =>
      .error ("NLDB0::getPrimitiveTruthTable: FA has two outputs, " ++
        "use getFASumTruthTable/getFACoutTruthTable")
  | .mux2 _ => getMux2TruthTable
  | .nOutputGate type nbOutputs =>
      if nbOutputs ≠ 1 then
        .error "NLDB0::getPrimitiveTruthTable: gate with more than 1 output is not supported"
      else match type with
        | .Buf => SNLTruthTable.ofMask 1 0b10 (getInputFlatTermDependencies p)
        | .Not => SNLTruthTable.ofMask 1 0b01 (getInputFlatTermDependencies p)
        | other => unsupportedPrimitive p other
  | .nInputGate type nbInputs =>
      match type with
      | .Buf => unsupportedPrimitive p .Buf
      | .Not => unsupportedPrimitive p .Not
      | other =>
          SNLTruthTable.ofGeneric nbInputs other.genericType (getInputFlatTermDependencies p) 0 0

def notAnOutput (flatTermID : Nat) (family : String) (p : Signature) : String :=
  "Term ID " ++ toString flatTermID ++ " is not an output in " ++ family ++ " design <" ++
    designName p ++ ">"

/-- The output bit the per-bit readers look up by order ID. -/
def outputBitOf (p : Signature) (out : Term) (flatTermID : Nat) : Option BitTerm :=
  (out.getBits.filter (fun t => getOrderID p t == flatTermID)).getLast?

def getVectorUpdateTruthTable (width updateWidth abits : Nat) (isSigned : Bool) (flatTermID : Nat) :
    Except String SNLTruthTable :=
  let p := Signature.vectorUpdate width updateWidth abits isSigned
  match outputBitOf p (output 4 width) flatTermID with
  | none => .error "Vector update truth table requires an output bit"
  | some out =>
      let deps := getOrderID p ((input 0 width).getBit out.bit) ::
        ((input 1 updateWidth).getBits ++ (input 2 abits).getBits).map (getOrderID p) ++
        [getOrderID p ((input 3 1).getBit 0)]
      SNLTruthTable.VectorUpdate
        { width := width, updateWidth := updateWidth, addressSize := abits, outputBit := out.bit,
          isSigned := isSigned } (encodeBits deps)

def getVectorSelectTruthTable (width selectWidth abits : Nat) (isSigned : Bool) (flatTermID : Nat) :
    Except String SNLTruthTable :=
  let p := Signature.vectorSelect width selectWidth abits isSigned
  match outputBitOf p (output 2 selectWidth) flatTermID with
  | none => .error "Vector select truth table requires an output bit"
  | some out =>
      let deps := ((input 0 width).getBits ++ (input 1 abits).getBits).map (getOrderID p)
      SNLTruthTable.VectorSelect
        { width := width, selectWidth := selectWidth, addressSize := abits, outputBit := out.bit,
          isSigned := isSigned } (encodeBits deps)

def getTableSelectTruthTable (width depth abits flatTermID : Nat) : Except String SNLTruthTable :=
  let p := Signature.tableSelect width depth abits
  if SNLTruthTable.maxUInt32 < abits ∨ SNLTruthTable.maxUInt32 < depth then
    .error "NLDB0::getTableSelectTruthTable: signature does not fit truth table metadata"
  else match (getBitTerms p)[flatTermID]? with
    | none => .error (notAnOutput flatTermID "table select" p)
    | some out =>
        if out.direction ≠ .Output ∨ out.id ≠ 2 then
          .error (notAnOutput flatTermID "table select" p)
        else if width ≤ out.bit then
          .error "NLDB0::getTableSelectTruthTable: output bit is out of range"
        else
          let deps := ((input 1 abits).getBits ++ (List.range depth).map (fun row =>
            (input 0 (width * depth)).getBit (row * width + out.bit))).map (getOrderID p)
          SNLTruthTable.TableSelect abits depth (encodeBits deps)

def getDivModTruthTable (width : Nat) (isSigned : Bool) (flatTermID : Nat) :
    Except String SNLTruthTable :=
  let p := Signature.divMod width isSigned
  if width = 0 ∨ SNLTruthTable.maxUInt32 < width then
    .error "NLDB0::getDivModTruthTable: width does not fit truth table metadata"
  else match (getBitTerms p)[flatTermID]? with
    | none => .error (notAnOutput flatTermID "divmod" p)
    | some out =>
        if out.direction ≠ .Output ∨ (out.id ≠ 2 ∧ out.id ≠ 3) then
          .error (notAnOutput flatTermID "divmod" p)
        else if width ≤ out.bit then
          .error "NLDB0::getDivModTruthTable: output bit is out of range"
        else
          let deps := ((input 0 width).getBits ++ (input 1 width).getBits).map (getOrderID p)
          SNLTruthTable.DivMod width isSigned
            (if out.id = 2 then .QUOTIENT else .REMAINDER) out.bit (encodeBits deps)

/-- The shared reader of add/subtract, multiply and shift; `build` makes the family's table
from the output bit and the encoded dependencies. -/
def getWordTruthTable (p : Signature) (first second : Term) (flatTermID : Nat)
    (build : Nat → List Word → Except String SNLTruthTable) : Except String SNLTruthTable :=
  match (getBitTerms p)[flatTermID]? with
  | none => .error (notAnOutput flatTermID "word arithmetic" p)
  | some out =>
      if out.id ≠ 2 then .error (notAnOutput flatTermID "word arithmetic" p)
      else if SNLTruthTable.maxUInt32 / 2 < first.width ∨
          SNLTruthTable.maxUInt32 / 2 < second.width then
        .error "NLDB0::getWordTruthTable: width does not fit truth table metadata"
      else build out.bit (encodeBits ((first.getBits ++ second.getBits).map (getOrderID p)))

/-- `SNLDesignModeling::getTruthTable(design, flatTermID)` on a primitive of the database. -/
def getTruthTable (p : Signature) (flatTermID : Nat) : Except String SNLTruthTable :=
  let isOutput := isOutputTerm (getBitTerms p) flatTermID
  match p with
  | .fa =>
      if flatTermID = 3 then getFASumTruthTable
      else if flatTermID = 4 then getFACoutTruthTable
      else .error (notAnOutput flatTermID "FA" p)
  | .mux2 _ =>
      if !isOutput then .error (notAnOutput flatTermID "mux2" p) else getPrimitiveTruthTable p
  | .vectorSelect width selectWidth abits isSigned =>
      getVectorSelectTruthTable width selectWidth abits isSigned flatTermID
  | .vectorUpdate width updateWidth abits isSigned =>
      getVectorUpdateTruthTable width updateWidth abits isSigned flatTermID
  | .tableSelect width depth abits =>
      if !isOutput then .error (notAnOutput flatTermID "table select" p)
      else getTableSelectTruthTable width depth abits flatTermID
  | .divMod width isSigned =>
      if !isOutput then .error (notAnOutput flatTermID "divmod" p)
      else getDivModTruthTable width isSigned flatTermID
  | .addSub width subtract =>
      if !isOutput then .error (notAnOutput flatTermID "word arithmetic" p)
      else getWordTruthTable p (input 0 width) (input 1 width) flatTermID
        (SNLTruthTable.AddSub width subtract)
  | .multiply width =>
      if !isOutput then .error (notAnOutput flatTermID "word arithmetic" p)
      else getWordTruthTable p (input 0 width) (input 1 width) flatTermID
        (SNLTruthTable.Multiply width)
  | .shift width countWidth right arithmetic =>
      if !isOutput then .error (notAnOutput flatTermID "word arithmetic" p)
      else getWordTruthTable p (input 0 width) (input 1 countWidth) flatTermID
        (SNLTruthTable.Shift width countWidth right arithmetic)
  | _ =>
      if outputCount (getBitTerms p) ≠ 1 then
        .error ("Design <" ++ designName p ++ "> is a DB0 primitive but has " ++
          toString (outputCount (getBitTerms p)) ++ " outputs instead of 1")
      else getPrimitiveTruthTable p

end Naja.Primitives.NLDB0
