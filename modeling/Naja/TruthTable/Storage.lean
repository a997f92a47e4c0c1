import Naja.Primitives.NLDB0

/-! Truth tables stored on a primitive design. `SNLDesignModeling` serialises the
tables of a design into one flat list of 64-bit values: for each table its
size, the chunks of its bits, and its dependency blocks padded to the number of
blocks the bit terms of the design need. The readers re-derive the chunk lengths
from the stored size. -/

namespace Naja.TruthTable.Storage
open Naja.Primitives BitDependencies

/-- The primitives of the built-in database, by the way their tables are read. -/
inductive DB0Primitive where
  | combinational (signature : NLDB0.Signature)
  | sequential
  | memory (writePorts : Nat)
deriving DecidableEq

structure Design where
  name : String
  isPrimitive : Bool
  bitTerms : List BitTerm
  db0 : Option DB0Primitive := none
  property : Option (List Word) := none
  parameterTruthTables : List (Nat × SNLTruthTable) := []
  interface : ∀ signature, db0 = some (.combinational signature) →
    bitTerms = NLDB0.getBitTerms signature := by intros; contradiction
  directed : ∀ kind, db0 = some kind →
    ∀ t ∈ bitTerms, t.direction = .Input ∨ t.direction = .Output := by intros; contradiction

/-- `TT_NCHUNKS_FROM_BITS`. -/
def chunksFromBits (nBits : Nat) : Nat := nBits / 64 + (if 0 < nBits % 64 then 1 else 0)

def getDependencyChunkCount (d : Design) : Nat := chunksFromBits d.bitTerms.length

/-- Copies the blocks into a zeroed vector of `count` blocks. -/
def padDependencies (count : Nat) (deps : List Word) : List Word :=
  (deps ++ List.replicate count 0).take count

def validateAndPadDependenciesForDesign (d : Design) (t : SNLTruthTable) :
    Except String (List Word) :=
  let depChunkCount := getDependencyChunkCount d
  if t.size = 0 then .ok (List.replicate depChunkCount 0)
  else
    let decodedDeps := decodeBits t.dependencies
    let inputFlatPositions := getInputFlatPositions d.bitTerms
    if t.dependencies.isEmpty ∨ decodedDeps.isEmpty then
      .error "Truth table dependencies are required"
    else if t.size < decodedDeps.length then
      .error "Truth table dependencies count cannot exceed truth table size"
    else if inputFlatPositions.isEmpty then .ok (padDependencies depChunkCount t.dependencies)
    else match decodedDeps.find? (fun dep => !inputFlatPositions.contains dep) with
      | some dep =>
          .error ("Truth table dependency " ++ toString dep ++
            " is not an input flat-term position in design <" ++ d.name ++ ">")
      | none =>
          if depChunkCount < t.dependencies.length then
            .error ("Truth table dependency storage for design <" ++ d.name ++
              "> exceeds flat-term span")
          else .ok (padDependencies depChunkCount t.dependencies)

/-- The values of one table: size, bit chunks, padded dependencies. -/
def tableValues (t : SNLTruthTable) (deps : List Word) : List Word :=
  BitVec.ofNat 64 t.size :: (t.bits.getChunks ++ deps)

def serialize (d : Design) : List SNLTruthTable → Except String (List Word)
  | [] => .ok []
  | t :: rest => do
      let deps ← validateAndPadDependenciesForDesign d t
      let values ← serialize d rest
      return tableValues t deps ++ values

def createTruthTableProperty (d : Design) (tables : List SNLTruthTable) : Except String Design := do
  let values ← serialize d tables
  return { d with property := some values }

/-- The checks `setTruthTable` and `setTruthTables` share. -/
def checkNoTruthTable (d : Design) : Except String Unit :=
  if !d.isPrimitive then .error "Cannot add truth table on non-primitive design"
  else if d.property.isSome then .error "Design already has a Truth Table"
  else if !d.parameterTruthTables.isEmpty then
    .error "Design already has a parameter-derived Truth Table"
  else .ok ()

def setTruthTable (d : Design) (t : SNLTruthTable) : Except String Design := do
  checkNoTruthTable d
  let outputs := d.bitTerms.countP (fun t => t.direction == .Output)
  if outputs ≠ 1 then
    throw ("cannot add truth table on Design <" ++ d.name ++ "> that has <" ++ toString outputs ++
      "> outputs")
  createTruthTableProperty d [t]

def setTruthTables (d : Design) (tables : List SNLTruthTable) : Except String Design := do
  checkNoTruthTable d
  if outputCount d.bitTerms ≠ tables.length then
    throw ("cannot add truth tables on Design <" ++ d.name ++ "> that has <" ++
      toString (outputCount d.bitTerms) ++ "> outputs, but provided <" ++ toString tables.length ++
      "> truth tables")
  if tables.isEmpty then throw "Cannot set empty truth table"
  createTruthTableProperty d tables

def getUInt64Value (values : List Word) (i : Nat) : Except String Word :=
  match values[i]? with
  | some value => .ok value
  | none => .error "NajaDumpableProperty::getUInt64Value: index out of range"

/-- The `count` values from `start` on. -/
def getUInt64Values (values : List Word) (start : Nat) : Nat → Except String (List Word)
  | 0 => .ok []
  | count + 1 => do
      let value ← getUInt64Value values start
      let rest ← getUInt64Values values (start + 1) count
      return value :: rest

/-- `TT_FILL_BITS`: `nBits` bits out of the chunks stored at `bitsIdx`. -/
def fillBits (values : List Word) (bitsIdx nBits : Nat) : Except String (List Bool) := do
  let chunks ← getUInt64Values values bitsIdx (chunksFromBits nBits)
  return (List.range nBits).map (testBlocks chunks)

/-- The blocks of a multi-chunk table; the text is the one of its range check. -/
def readDependencies (values : List Word) (start : Nat) : Nat → Except String (List Word)
  | 0 => .ok []
  | count + 1 => do
      if values.length ≤ start then
        throw ("Truth table size " ++ toString values.length ++ " is smaller then requested index " ++
          toString start)
      let value ← getUInt64Value values start
      let rest ← readDependencies values (start + 1) count
      return value :: rest

/-- `static_cast<size_t>(1u) << nInputs`; past 63 the shift is undefined, and zero stands for it. -/
def sizeShiftLeft (nInputs : Nat) : Nat := 2 ^ nInputs % 2 ^ 64

def advanceTruthTableValueIndex (d : Design) (valIdx nInputs : Nat) : Nat :=
  valIdx + 1 + chunksFromBits (sizeShiftLeft nInputs) + getDependencyChunkCount d

def uint32 (value : Word) : Nat := value.toNat % 2 ^ 32

/-- The counting loop; `fuel` bounds the turns, each of which moves `valIdx` forward. -/
def countTables (d : Design) (values : List Word) : Nat → Nat → Nat → Except String Nat
  | 0, _, tableIdx => .ok tableIdx
  | fuel + 1, valIdx, tableIdx =>
      if values.length ≤ valIdx then .ok tableIdx
      else do
        let nInputs ← getUInt64Value values valIdx
        let next := advanceTruthTableValueIndex d valIdx (uint32 nInputs)
        if values.length + 1 ≤ next then
          throw ("Maldformed truth table for design <" ++ d.name ++ "> " ++
            String.join (values.map (fun value => toString value.toNat ++ " ")) ++
            "\nWith valIdx " ++ toString next ++ " and total " ++ toString values.length)
        countTables d values fuel next (tableIdx + 1)

/-- The families whose tables are counted without being read. -/
def countsByOutputs : NLDB0.Signature → Bool
  | .assign | .fa | .nInputGate _ _ | .nOutputGate _ _ => false
  | _ => true

def isNull (t : SNLTruthTable) : Bool := t.size == SNLTruthTable.maxUInt32

/-- Counts the tables at the given order IDs by reading each of them. -/
def countReadTables (signature : NLDB0.Signature) : List Nat → Except String Nat
  | [] => .ok 0
  | orderID :: rest => do
      let t ← NLDB0.getTruthTable signature orderID
      let count ← countReadTables signature rest
      return if isNull t then count else count + 1

def outputOrderIDs (terms : List BitTerm) : List Nat :=
  (List.range terms.length).filter (isOutputTerm terms)

def getTruthTableCount (d : Design) : Except String Nat :=
  match d.db0 with
  | some .sequential => .ok 0
  | some (.memory writePorts) => if writePorts ≠ 0 then .ok 0 else .ok (outputCount d.bitTerms)
  | some (.combinational signature) =>
      if countsByOutputs signature then .ok (outputCount d.bitTerms)
      else countReadTables signature (outputOrderIDs d.bitTerms)
  | none =>
      if d.parameterTruthTables.length ≠ 0 then .ok d.parameterTruthTables.length
      else match d.property with
        | none => .ok 0
        | some values => countTables d values values.length 0 0

/-- `getTruthTable(design)` on a stored property. -/
def readSingleTable (d : Design) (values : List Word) : Except String SNLTruthTable := do
  let declaredInputs ← getUInt64Value values 0
  let tableSize := values.length - 1
  let expectedChunks :=
    chunksFromBits (SNLTruthTable.oneShiftLeft declaredInputs.toNat) + getDependencyChunkCount d
  if expectedChunks ≠ tableSize then
    throw ("Truth table size " ++ toString tableSize ++ " does not match number of chunks " ++
      toString expectedChunks ++ " which suggests per output functionality")
  if 3 < values.length then
    let numInputs := uint32 declaredInputs
    let nBits := SNLTruthTable.oneShiftLeft numInputs
    if nBits ≤ 64 then
      throw ("Truth table size " ++ toString nBits ++ " is not larger than 64 bits")
    let bits ← fillBits values 1 nBits
    let deps ← readDependencies values (1 + chunksFromBits nBits) (getDependencyChunkCount d)
    SNLTruthTable.ofVector numInputs bits (if numInputs = 0 then [] else deps)
  else if declaredInputs.toNat ≤ 6 then
    let bits ← getUInt64Value values 1
    SNLTruthTable.ofMask declaredInputs.toNat bits
      (if declaredInputs.toNat = 0 then [] else (values.drop 2).take (getDependencyChunkCount d))
  else throw ("Truth table size " ++ toString declaredInputs.toNat ++ " is larger than 64 bits")

/-- `getTruthTable(design)` on a design outside the database. -/
def getDesignTruthTable (d : Design) : Except String SNLTruthTable :=
  match d.parameterTruthTables with
  | [(_, defaultTruthTable)] => .ok defaultTruthTable
  | _ :: _ :: _ =>
      .error "SNLDesignModeling::getTruthTable: design has per-output truth tables"
  | [] =>
      match d.property with
      | none => .ok {}
      | some values => readSingleTable d values

/-- The walk to the table of output `outputID`, from `valIdx` on. -/
def seekTable (d : Design) (values : List Word) (outputID : Nat) : Nat → Nat → Except String Nat
  | 0, valIdx =>
      if values.length + 1 ≤ valIdx then
        .error ("Output ID " ++ toString outputID ++ " is out of range for design <" ++ d.name ++ ">")
      else .ok valIdx
  | remaining + 1, valIdx =>
      if values.length + 1 ≤ valIdx then
        .error ("Output ID " ++ toString outputID ++ " is out of range for design <" ++ d.name ++ ">")
      else do
        let nInputs ← getUInt64Value values valIdx
        seekTable d values outputID remaining
          (advanceTruthTableValueIndex d valIdx (uint32 nInputs))

/-- The table whose values start at `valIdx`. -/
def readTableAt (d : Design) (values : List Word) (valIdx : Nat) : Except String SNLTruthTable := do
  let declaredInputs ← getUInt64Value values valIdx
  if declaredInputs.toNat ≤ 6 then
    let deps ← getUInt64Values values (valIdx + 2) (getDependencyChunkCount d)
    let bits ← getUInt64Value values (valIdx + 1)
    SNLTruthTable.ofMask declaredInputs.toNat bits
      (if declaredInputs.toNat = 0 then [] else deps)
  else
    let numInputs := uint32 declaredInputs
    let nBits := SNLTruthTable.oneShiftLeft numInputs
    let bits ← fillBits values (valIdx + 1) nBits
    let deps ← readDependencies values (valIdx + 1 + chunksFromBits nBits) (getDependencyChunkCount d)
    SNLTruthTable.ofVector numInputs bits (if numInputs = 0 then [] else deps)

/-- `getTruthTable(design, flatTermID)`. -/
def getTruthTable (d : Design) (flatTermID : Nat) : Except String SNLTruthTable :=
  match d.db0 with
  | some .sequential => .ok {}
  | some (.memory _) => .ok {}
  | some (.combinational signature) => NLDB0.getTruthTable signature flatTermID
  | none =>
      if !isOutputTerm d.bitTerms flatTermID then
        .error ("Term ID " ++ toString flatTermID ++ " is not an output in design <" ++ d.name ++ ">")
      else match d.parameterTruthTables.lookup flatTermID with
        | some defaultTruthTable => .ok defaultTruthTable
        | none =>
            match d.property with
            | none => .ok {}
            | some values => do
                let count ← getTruthTableCount d
                if count = 1 then getDesignTruthTable d
                else
                  let outputID := outputID d.bitTerms flatTermID
                  let valIdx ← seekTable d values outputID outputID 0
                  readTableAt d values valIdx

end Naja.TruthTable.Storage
