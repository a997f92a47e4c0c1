import Naja.Primitives.PinRoles

/-! Reduction of a truth table by constant inputs, and the evaluation of the
vector tables on binary inputs, as `SNLTruthTable.h` and `Reduction.cpp` do them. -/

namespace Naja.TruthTable
open BitDependencies
open Naja.Primitives.PinRoles (rowIndex evaluate gateValue)

namespace SNLTruthTable

def Inv : SNLTruthTable :=
  { size := 1, bits := ⟨2, .mask 0b01, by decide⟩, dependencies := fullDependencies 1 }

def Buf : SNLTruthTable :=
  { size := 1, bits := ⟨2, .mask 0b10, by decide⟩, dependencies := fullDependencies 1 }

/-- Bit of an address that selects `offset`; the sign fills the bits beyond 64. -/
def expectedBit (offset : Int) (bit : Nat) : Bool :=
  if bit < 64 then (BitVec.ofInt 64 offset).getLsbD bit else decide (offset < 0)

def isAddressable (isSigned : Bool) (addressSize : Nat) (offset : Int) : Bool :=
  (isSigned || decide (0 ≤ offset)) &&
    (if addressSize < 64 then
      if isSigned then
        decide (-(2 : Int) ^ (addressSize - 1) ≤ offset) && decide (offset < 2 ^ (addressSize - 1))
      else decide (offset < 2 ^ addressSize)
    else true)

/-- The address that ends at position `last` of the inputs is `offset`. -/
def addressMatches (inputs : List Bool) (last addressSize : Nat) (offset : Int) : Bool :=
  (List.range addressSize).all (fun bit => inputs.getD (last - bit) false == expectedBit offset bit)

/-- `none` stands for an out-of-range bit, whose value is X. -/
def evaluateVectorSelect (t : SNLTruthTable) (inputs : List Bool) : Except String (Option Bool) :=
  let m := t.vectorSelect
  if t.genericType ≠ .VECTOR_SELECT then .error "Truth table is not a VECTOR_SELECT generic"
  else if inputs.length ≠ t.size then .error "VECTOR_SELECT input count mismatch"
  else
    .ok (((List.range m.width).find? (fun (k : Nat) =>
      isAddressable m.isSigned m.addressSize ((k : Int) - m.outputBit) &&
        addressMatches inputs (m.width + m.addressSize - 1) m.addressSize ((k : Int) - m.outputBit))).map
      (fun k => inputs.getD (m.width - 1 - k) false))

def evaluateVectorUpdate (t : SNLTruthTable) (inputs : List Bool) : Except String Bool :=
  let m := t.vectorUpdate
  if t.genericType ≠ .VECTOR_UPDATE then .error "Truth table is not a VECTOR_UPDATE generic"
  else if inputs.length ≠ t.size then .error "VECTOR_UPDATE input count mismatch"
  else if !inputs.getLastD false then .ok (inputs.headD false)
  else
    match (List.range m.updateWidth).find? (fun (k : Nat) =>
      isAddressable m.isSigned m.addressSize ((m.outputBit : Int) - k) &&
        addressMatches inputs (m.updateWidth + m.addressSize) m.addressSize ((m.outputBit : Int) - k)) with
    | some k => .ok (inputs.getD (m.updateWidth - k) false)
    | none => .ok (inputs.headD false)

/-- The low `rows` bits, all 64 from 64 rows on. -/
def rowMask (rows : Nat) : BitDependencies.Word :=
  if rows < 64 then BitVec.ofNat 64 (2 ^ rows - 1) else BitVec.allOnes 64

/-- `operator uint64_t`; only read for tables of at most 6 inputs. -/
def maskValue (v : NLBitVecDynamic) : BitDependencies.Word :=
  match v.data with
  | .mask value => value
  | .vector _ => 0

def all0 (t : SNLTruthTable) : Bool :=
  if t.bits.nbits = 0 then false
  else if t.size ≤ 6 then maskValue t.bits &&& rowMask (2 ^ t.size) == 0
  else (List.range t.bits.nbits).all (fun i => !t.bits.bit i)

def all1 (t : SNLTruthTable) : Bool :=
  if t.bits.nbits = 0 then false
  else if t.size ≤ 6 then maskValue t.bits &&& rowMask (2 ^ t.size) == rowMask (2 ^ t.size)
  else (List.range t.bits.nbits).all (fun i => t.bits.bit i)

abbrev ConstantInputs := List (Nat × Bool)

/-- Inputs of the original table for assignment `j` of the remaining ones: a constant where there
is one for the bit, else the next bit of `j`. -/
def weaveInputs (idxConsts : ConstantInputs) (j : Nat) : List Nat → Nat → List Bool
  | [], _ => []
  | bit :: rest, remPos =>
      match idxConsts.find? (fun c => c.1 == bit) with
      | some c => c.2 :: weaveInputs idxConsts j rest remPos
      | none => j.testBit remPos :: weaveInputs idxConsts j rest (remPos + 1)

def reducedRow (t : SNLTruthTable) (idxConsts : ConstantInputs) (j : Nat) : Bool :=
  t.bits.bit (rowIndex (weaveInputs idxConsts j (List.range t.size) 0))

/-- The mask whose bit `j` is row `j`. -/
def maskOfRows (rows : List Bool) : BitDependencies.Word := BitVec.ofNat 64 (rowIndex rows)

/-- The row loop of `getReducedWithConstants`. -/
def reduceRows (t : SNLTruthTable) (idxConsts : ConstantInputs) (newSize : Nat) :
    Except String SNLTruthTable := do
  let rows := (List.range (oneShiftLeft newSize)).map (reducedRow t idxConsts)
  let out ← if 6 < newSize then ofVector newSize rows (fullDependencies newSize)
    else ofMask newSize (maskOfRows rows) (fullDependencies newSize)
  return if out.all0 then Logic0 else if out.all1 then Logic1 else out

/-- What is left of a gate: a constant, a wire (or its complement), or a smaller gate. -/
def smallerGate (newSize : Nat) (type : GenericType) (inverted : Bool) : Except String SNLTruthTable :=
  if newSize = 0 then .ok (if inverted then Logic1 else Logic0)
  else if newSize = 1 then .ok (if inverted then Inv else Buf)
  else ofGeneric newSize type (fullDependencies newSize) 0 0

/-- The constant inputs of a vector update, by index; every one is needed, each once. -/
def updateInputs (size : Nat) (idxConsts : ConstantInputs) : Except String (List Bool) :=
  if idxConsts.length ≠ size then .error "Partial VECTOR_UPDATE reduction is unsupported"
  else if ¬ (idxConsts.map Prod.fst).Nodup then .error "Duplicate VECTOR_UPDATE constant input"
  else .ok ((List.range size).map (fun index => (idxConsts.lookup index).getD false))

def getReducedWithConstants (t : SNLTruthTable) (idxConsts : ConstantInputs) :
    Except String SNLTruthTable :=
  if !isSimple t.dependencies then
    .error "getReducedWithConstants() does not support non full dependencies"
  else if t.size = 0 then .ok t
  else if idxConsts.isEmpty then .ok t
  else if idxConsts.any (fun c => decide (t.size ≤ c.1)) then .error "Index out of range (max=6)"
  else
    let newSize := t.size - idxConsts.length
    let invert := (idxConsts.countP Prod.snd) % 2 != 0
    match t.genericType with
    | .AND =>
        if idxConsts.any (fun c => !c.2) then .ok Logic0
        else if newSize = 0 then .ok Logic1
        else smallerGate newSize .AND false
    | .NAND =>
        if idxConsts.any (fun c => !c.2) then .ok Logic1
        else if newSize = 0 then .ok Logic0
        else smallerGate newSize .NAND true
    | .OR => if idxConsts.any Prod.snd then .ok Logic1 else smallerGate newSize .OR false
    | .NOR => if idxConsts.any Prod.snd then .ok Logic0 else smallerGate newSize .NOR true
    | .XOR => smallerGate newSize (if invert then .XNOR else .XOR) invert
    | .XNOR => smallerGate newSize (if invert then .XOR else .XNOR) (!invert)
    | .VECTOR_SELECT => .error "VECTOR_SELECT constant reduction is unsupported"
    | .TABLE_SELECT => .error "getReducedWithConstants() does not support TABLE_SELECT"
    | .DIVMOD => .error "getReducedWithConstants() does not support DIVMOD"
    | .VECTOR_UPDATE => do
        let inputs ← updateInputs t.size idxConsts
        let value ← evaluateVectorUpdate t inputs
        return if value then Logic1 else Logic0
    | .ROM => .error "getReducedWithConstants() does not support ROM"
    -- the word tables have no rows of their own and are reduced as explicit ones
    | .NONE | .ADD_SUB | .MULTIPLY | .SHIFT => reduceRows t idxConsts newSize

end SNLTruthTable

/-- The table over its own inputs 0, 1, … when its dependencies are pins further on. -/
def withLocalDependencies (t : SNLTruthTable) : Except String SNLTruthTable :=
  let localDeps := SNLTruthTable.fullDependencies t.size
  if 0 < t.size ∧ isSimple t.dependencies = false then
    if t.genericType = .VECTOR_SELECT then SNLTruthTable.VectorSelect t.vectorSelect localDeps
    else if t.genericType = .VECTOR_UPDATE then SNLTruthTable.VectorUpdate t.vectorUpdate localDeps
    else if t.isGeneric then SNLTruthTable.ofGeneric t.size t.genericType localDeps 0 0
    else if t.size ≤ 6 then SNLTruthTable.ofMask t.size (SNLTruthTable.maskValue t.bits) localDeps
    else SNLTruthTable.ofVector t.size ((List.range t.bits.nbits).map t.bits.bit) localDeps
  else .ok t

/-- `termID2index`: the last input pin of a term ID gives its index; an unknown ID reads as 0. -/
def termIndex (inputIDs : List Nat) (id : Nat) : Nat :=
  match ((List.range inputIDs.length).filter (fun i => inputIDs[i]? == some id)).getLast? with
  | some index => index
  | none => 0

/-- `ReductionOptimization::reduceTruthTable`, for an instance with these input pin IDs. -/
def reduceTruthTable (inputIDs : List Nat) (t : SNLTruthTable) (constTerms : List (Nat × Bool)) :
    Except String SNLTruthTable := do
  let constInputs := constTerms.map (fun c => (termIndex inputIDs c.1, c.2))
  let reducedBase ← withLocalDependencies t
  reducedBase.getReducedWithConstants constInputs

/-- The constant a table stands for, if it is one. -/
def tableOutcome (reduced : SNLTruthTable) : Option Bool :=
  if reduced.all0 then some false else if reduced.all1 then some true else none

/-- The function of a table on a list of inputs, where it is given by rows, a gate or a vector
operation. -/
def tableValue (t : SNLTruthTable) (inputs : List Bool) : Option Bool :=
  match t.genericType with
  | .VECTOR_SELECT => (t.evaluateVectorSelect inputs).toOption.join
  | .VECTOR_UPDATE => (t.evaluateVectorUpdate inputs).toOption
  | _ => evaluate t inputs

end Naja.TruthTable
