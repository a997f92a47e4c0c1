import Naja.TruthTable.BitDependencies

/-! Truth tables of primitive outputs: explicit tables over a dynamic bit
vector, and generic tables that carry only the metadata of their function.
The error texts and the order of the checks are those of `SNLTruthTable.h`. -/

namespace Naja.TruthTable
open BitDependencies

/-- The storage alternative of `NLBitVecDynamic`: one word, or one entry per bit. -/
inductive BitData where
  | mask (value : Word)
  | vector (bits : List Bool)
deriving DecidableEq, Repr

def BitData.isMask : BitData → Bool
  | .mask _ => true
  | .vector _ => false

structure NLBitVecDynamic where
  nbits : Nat
  data : BitData
  kind : data.isMask = decide (nbits ≤ 64)
deriving DecidableEq, Repr

namespace NLBitVecDynamic

def empty : NLBitVecDynamic := ⟨0, .mask 0, by decide⟩

def ofMask (mask : Word) (length : Nat) : Except String NLBitVecDynamic :=
  if short : length ≤ 64 then .ok ⟨length, .mask mask, by simp [BitData.isMask, short]⟩
  else .error "NLBitVecDynamic: cannot construct from mask when length>64"

def ofVector (bits : List Bool) (length : Nat) : Except String NLBitVecDynamic :=
  if long : 64 < length then .ok ⟨length, .vector bits, by simp [BitData.isMask, long]⟩
  else .error "When not over size of 64, use mask constructor."

def bit (v : NLBitVecDynamic) (i : Nat) : Bool :=
  match v.data with
  | .mask value => value.getLsbD i
  | .vector bits => bits.getD i false

end NLBitVecDynamic

/-- Bit `i` of the list goes to bit `i % 64` of word `i / 64`. -/
def packBits (bits : List Bool) : List Word :=
  ((List.range bits.length).filter (fun i => bits.getD i false)).foldl setPosition
    (List.replicate ((bits.length + 63) / 64) 0)

def NLBitVecDynamic.getChunks (v : NLBitVecDynamic) : List Word :=
  match v.data with
  | .mask value => [value]
  | .vector bits => packBits bits

inductive GenericType where
  | NONE | OR | NOR | AND | NAND | XOR | XNOR | TABLE_SELECT | DIVMOD | ADD_SUB | MULTIPLY
  | SHIFT | ROM | VECTOR_UPDATE | VECTOR_SELECT
deriving DecidableEq, Repr

inductive DivModResult where
  | QUOTIENT | REMAINDER
deriving DecidableEq, Repr

structure WordMetadata where
  width : Nat := 0
  outputBit : Nat := 0
  countWidth : Nat := 0
  subtract : Bool := false
  right : Bool := false
  arithmetic : Bool := false
deriving DecidableEq, Repr

structure RomMetadata where
  addressSize : Nat := 0
  depth : Nat := 0
  column : List Bool := []
deriving DecidableEq, Repr

structure VectorUpdateMetadata where
  width : Nat := 0
  updateWidth : Nat := 0
  addressSize : Nat := 0
  outputBit : Nat := 0
  isSigned : Bool := false
deriving DecidableEq, Repr

structure VectorSelectMetadata where
  width : Nat := 0
  selectWidth : Nat := 0
  addressSize : Nat := 0
  outputBit : Nat := 0
  isSigned : Bool := false
deriving DecidableEq, Repr

structure SNLTruthTable where
  size : Nat := 0
  bits : NLBitVecDynamic := .empty
  dependencies : List Word := []
  genericType : GenericType := .NONE
  tableSelectAddressSize : Nat := 0
  tableSelectDepth : Nat := 0
  divModWidth : Nat := 0
  divModSigned : Bool := false
  divModResult : DivModResult := .QUOTIENT
  divModOutputBit : Nat := 0
  word : WordMetadata := {}
  rom : RomMetadata := {}
  vectorUpdate : VectorUpdateMetadata := {}
  vectorSelect : VectorSelectMetadata := {}
deriving DecidableEq, Repr

namespace SNLTruthTable

def maxUInt32 : Nat := 2 ^ 32 - 1

/-- `1u << size`. A shift by 32 or more is undefined in C++; the 32-bit zero stands for it. -/
def oneShiftLeft (size : Nat) : Nat := 2 ^ size % 2 ^ 32

def fullDependencies (size : Nat) : List Word := encodeBits (List.range size)

def isGeneric (t : SNLTruthTable) : Bool := t.genericType != .NONE

def isWordArithmetic (t : SNLTruthTable) : Bool :=
  t.genericType == .ADD_SUB || t.genericType == .MULTIPLY || t.genericType == .SHIFT

def isInitialized (t : SNLTruthTable) : Bool :=
  if t.size = 0 then t.bits.nbits != 0
  else if t.dependencies.isEmpty then false
  else t.isGeneric || t.bits.nbits != 0

def wordInputCount (type : GenericType) (word : WordMetadata) : Nat :=
  word.width + (if type = .SHIFT then word.countWidth else word.width)

def invalidVectorSelect (t : SNLTruthTable) : Bool :=
  t.vectorSelect.width == 0 || t.vectorSelect.selectWidth == 0 || t.vectorSelect.addressSize == 0 ||
    decide (t.vectorSelect.selectWidth ≤ t.vectorSelect.outputBit) ||
    t.vectorSelect.width + t.vectorSelect.addressSize != t.size

def invalidVectorUpdate (t : SNLTruthTable) : Bool :=
  t.vectorUpdate.width == 0 || t.vectorUpdate.updateWidth == 0 || t.vectorUpdate.addressSize == 0 ||
    decide (t.vectorUpdate.width ≤ t.vectorUpdate.outputBit) ||
    t.vectorUpdate.updateWidth + t.vectorUpdate.addressSize + 2 != t.size

def invalidTableSelect (t : SNLTruthTable) : Bool :=
  t.tableSelectAddressSize == 0 || t.tableSelectDepth == 0 ||
    t.size != t.tableSelectAddressSize + t.tableSelectDepth

def invalidDivMod (t : SNLTruthTable) : Bool :=
  t.tableSelectAddressSize != 0 || t.tableSelectDepth != 0 || t.divModWidth == 0 ||
    decide (maxUInt32 / 2 < t.divModWidth) || t.size != t.divModWidth * 2 ||
    decide (t.divModWidth ≤ t.divModOutputBit)

def invalidRom (t : SNLTruthTable) : Bool :=
  t.tableSelectAddressSize != 0 || t.tableSelectDepth != 0 || t.divModWidth != 0 ||
    t.word != {} || t.rom.addressSize == 0 || decide (64 ≤ t.rom.addressSize) || t.rom.depth == 0 ||
    decide (2 ^ t.rom.addressSize < t.rom.depth) || t.size != t.rom.addressSize ||
    t.rom.column.length != t.rom.depth

def invalidWord (t : SNLTruthTable) : Bool :=
  t.tableSelectAddressSize != 0 || t.tableSelectDepth != 0 || t.divModWidth != 0 ||
    t.word.width == 0 || decide (t.word.width ≤ t.word.outputBit) ||
    t.size != wordInputCount t.genericType t.word ||
    (t.genericType == .SHIFT) != (t.word.countWidth != 0) ||
    (t.genericType != .ADD_SUB && t.word.subtract) ||
    (t.genericType != .SHIFT && (t.word.right || t.word.arithmetic)) ||
    (t.word.arithmetic && !t.word.right)

def validateGenericMetadata (t : SNLTruthTable) : Except String Unit :=
  if t.genericType = .VECTOR_SELECT then
    if t.invalidVectorSelect then .error "Invalid VECTOR_SELECT truth table metadata" else .ok ()
  else if t.vectorSelect ≠ {} then .error "Unexpected VECTOR_SELECT metadata on truth table"
  else if t.genericType = .VECTOR_UPDATE then
    if t.invalidVectorUpdate then .error "Invalid VECTOR_UPDATE truth table metadata" else .ok ()
  else if t.vectorUpdate ≠ {} then .error "Unexpected VECTOR_UPDATE metadata on truth table"
  else if t.genericType = .TABLE_SELECT then
    if t.invalidTableSelect then .error "Invalid TABLE_SELECT truth table metadata" else .ok ()
  else if t.genericType = .DIVMOD then
    if t.invalidDivMod then .error "Invalid DIVMOD truth table metadata" else .ok ()
  else if t.genericType = .ROM then
    if t.invalidRom then .error "Invalid ROM truth table metadata" else .ok ()
  else if t.isWordArithmetic then
    if t.invalidWord then .error "Invalid word arithmetic truth table metadata" else .ok ()
  else if t.tableSelectAddressSize ≠ 0 ∨ t.tableSelectDepth ≠ 0 then
    .error "Unexpected table select metadata on truth table"
  else if t.divModWidth ≠ 0 ∨ t.divModSigned ∨ t.divModResult ≠ .QUOTIENT ∨ t.divModOutputBit ≠ 0 then
    .error "Unexpected DIVMOD metadata on truth table"
  else if t.word ≠ {} then .error "Unexpected word arithmetic metadata on truth table"
  else if t.rom ≠ {} then .error "Unexpected ROM metadata on truth table"
  else .ok ()

/-- The dependency-count check shared by the public constructors. -/
def checkDependencyCount (size : Nat) (dependencies : List Word) : Except String Unit :=
  if 0 < size ∧ size < countBitsForVector dependencies then
    .error "Dependencies count cannot exceed truth table size"
  else .ok ()

/-- `SNLTruthTable(size, bits, dependencies)` with a mask. -/
def ofMask (size : Nat) (bits : Word) (dependencies : List Word) : Except String SNLTruthTable := do
  if 6 < size then
    throw ("Cannot create SNLTruthTable with bits_: " ++ toString bits.toNat ++
      " and size: " ++ toString size ++ " (max=6)")
  let table ← NLBitVecDynamic.ofMask bits (oneShiftLeft size)
  checkDependencyCount size dependencies
  return { size := size, bits := table, dependencies := dependencies }

/-- `SNLTruthTable(size, bits, dependencies)` with one entry per row. -/
def ofVector (size : Nat) (bits : List Bool) (dependencies : List Word) :
    Except String SNLTruthTable := do
  if size ≤ 6 then throw "Should use mask constructor for 6 or less inputs"
  let table ← NLBitVecDynamic.ofVector bits (oneShiftLeft size)
  checkDependencyCount size dependencies
  return { size := size, bits := table, dependencies := dependencies }

/-- The generic constructors: `size_` is the low 32 bits of the given size. -/
def ofGeneric (size : Nat) (type : GenericType) (dependencies : List Word)
    (addressSize depth : Nat) : Except String SNLTruthTable := do
  checkDependencyCount size dependencies
  let table : SNLTruthTable :=
    { size := size % 2 ^ 32, dependencies := dependencies, genericType := type,
      tableSelectAddressSize := addressSize, tableSelectDepth := depth }
  table.validateGenericMetadata
  return table

def Logic0 : SNLTruthTable := { bits := ⟨1, .mask 0, by decide⟩ }
def Logic1 : SNLTruthTable := { bits := ⟨1, .mask 1, by decide⟩ }

def TableSelect (addressSize depth : Nat) (dependencies : List Word) :
    Except String SNLTruthTable :=
  ofGeneric (addressSize + depth) .TABLE_SELECT dependencies addressSize depth

def DivMod (width : Nat) (isSigned : Bool) (result : DivModResult) (outputBit : Nat)
    (dependencies : List Word) : Except String SNLTruthTable := do
  if width = 0 ∨ maxUInt32 / 2 < width then throw "Invalid DIVMOD truth table width"
  if width ≤ outputBit then throw "DIVMOD truth table output bit is out of range"
  if countBitsForVector dependencies ≠ width * 2 then
    throw "DIVMOD truth table must depend on every operand bit"
  let table : SNLTruthTable :=
    { size := width * 2, dependencies := dependencies, genericType := .DIVMOD, divModWidth := width,
      divModSigned := isSigned, divModResult := result, divModOutputBit := outputBit }
  table.validateGenericMetadata
  return table

def Word (type : GenericType) (word : WordMetadata) (dependencies : List BitDependencies.Word) :
    Except String SNLTruthTable := do
  if maxUInt32 < wordInputCount type word ∨
      countBitsForVector dependencies ≠ wordInputCount type word then
    throw "Word arithmetic truth table must depend on every operand bit"
  let table : SNLTruthTable :=
    { size := wordInputCount type word, dependencies := dependencies, genericType := type,
      word := word }
  table.validateGenericMetadata
  return table

def AddSub (width : Nat) (subtract : Bool) (outputBit : Nat)
    (dependencies : List BitDependencies.Word) : Except String SNLTruthTable :=
  Word .ADD_SUB { width := width, outputBit := outputBit, subtract := subtract } dependencies

def Multiply (width outputBit : Nat) (dependencies : List BitDependencies.Word) :
    Except String SNLTruthTable :=
  Word .MULTIPLY { width := width, outputBit := outputBit } dependencies

def Shift (width countWidth : Nat) (right arithmetic : Bool) (outputBit : Nat)
    (dependencies : List BitDependencies.Word) : Except String SNLTruthTable :=
  Word .SHIFT
    { width := width, outputBit := outputBit, countWidth := countWidth, right := right,
      arithmetic := arithmetic } dependencies

def Rom (rom : RomMetadata) (dependencies : List BitDependencies.Word) :
    Except String SNLTruthTable := do
  if countBitsForVector dependencies ≠ rom.addressSize then
    throw "ROM truth table must depend on every address bit"
  let table : SNLTruthTable :=
    { size := rom.addressSize, dependencies := dependencies, genericType := .ROM, rom := rom }
  table.validateGenericMetadata
  return table

def VectorUpdate (metadata : VectorUpdateMetadata) (dependencies : List BitDependencies.Word) :
    Except String SNLTruthTable := do
  let size := metadata.updateWidth + metadata.addressSize + 2
  if maxUInt32 < size ∨ countBitsForVector dependencies ≠ size then
    throw "Invalid VECTOR_UPDATE dependency count"
  let table : SNLTruthTable :=
    { size := size, dependencies := dependencies, genericType := .VECTOR_UPDATE,
      vectorUpdate := metadata }
  table.validateGenericMetadata
  return table

def VectorSelect (metadata : VectorSelectMetadata) (dependencies : List BitDependencies.Word) :
    Except String SNLTruthTable := do
  let size := metadata.width + metadata.addressSize
  if maxUInt32 < size ∨ countBitsForVector dependencies ≠ size then
    throw "Invalid VECTOR_SELECT dependency count"
  let table : SNLTruthTable :=
    { size := size, dependencies := dependencies, genericType := .VECTOR_SELECT,
      vectorSelect := metadata }
  table.validateGenericMetadata
  return table

/-- What every construction leaves in the table: the given dependencies, and for a mask
its bits. -/
theorem ofMask_spec (size : Nat) (bits : BitDependencies.Word)
    (dependencies : List BitDependencies.Word) (table : SNLTruthTable)
    (built : ofMask size bits dependencies = .ok table) :
    ∃ short : oneShiftLeft size ≤ 64, size ≤ 6 ∧
      (0 < size → countBitsForVector dependencies ≤ size) ∧
      table = { size := size, bits := ⟨oneShiftLeft size, .mask bits, by simp [BitData.isMask, short]⟩,
                dependencies := dependencies } := by
  unfold ofMask NLBitVecDynamic.ofMask checkDependencyCount at built
  by_cases large : 6 < size
  · simp [large, bind, Except.bind, throw, throwThe, MonadExceptOf.throw] at built
  by_cases short : oneShiftLeft size ≤ 64
  · by_cases many : 0 < size ∧ size < countBitsForVector dependencies
    · simp [large, short, many, bind, Except.bind, pure, Except.pure] at built
    · simp [large, short, many, bind, Except.bind, pure, Except.pure] at built
      exact ⟨short, by omega, by omega, built.symm⟩
  · simp [large, short, bind, Except.bind, pure, Except.pure] at built

theorem ofVector_spec (size : Nat) (bits : List Bool)
    (dependencies : List BitDependencies.Word) (table : SNLTruthTable)
    (built : ofVector size bits dependencies = .ok table) :
    ∃ long : 64 < oneShiftLeft size, 6 < size ∧
      (0 < size → countBitsForVector dependencies ≤ size) ∧
      table = { size := size, bits := ⟨oneShiftLeft size, .vector bits, by simp [BitData.isMask, long]⟩,
                dependencies := dependencies } := by
  unfold ofVector NLBitVecDynamic.ofVector checkDependencyCount at built
  by_cases small : size ≤ 6
  · simp [small, bind, Except.bind, throw, throwThe, MonadExceptOf.throw] at built
  by_cases long : 64 < oneShiftLeft size
  · by_cases many : 0 < size ∧ size < countBitsForVector dependencies
    · simp [small, long, many, bind, Except.bind, pure, Except.pure] at built
    · simp [small, long, many, bind, Except.bind, pure, Except.pure] at built
      exact ⟨long, by omega, by omega, built.symm⟩
  · simp [small, long, bind, Except.bind, pure, Except.pure] at built

private theorem validated_eq (table result : SNLTruthTable)
    (built : (do table.validateGenericMetadata; return table) = Except.ok result) :
    result = table := by
  cases checked : table.validateGenericMetadata with
  | error message => simp [checked, bind, Except.bind] at built
  | ok _ =>
      simp [checked, bind, Except.bind, pure, Except.pure] at built
      exact built.symm

theorem ofGeneric_spec (size : Nat) (type : GenericType)
    (dependencies : List BitDependencies.Word) (addressSize depth : Nat) (table : SNLTruthTable)
    (built : ofGeneric size type dependencies addressSize depth = .ok table) :
    table.dependencies = dependencies ∧ table.genericType = type := by
  unfold ofGeneric checkDependencyCount at built
  split at built
  · simp [bind, Except.bind] at built
  · rw [validated_eq _ _ built]
    exact ⟨rfl, rfl⟩

theorem DivMod_spec (width : Nat) (isSigned : Bool) (result : DivModResult) (outputBit : Nat)
    (dependencies : List BitDependencies.Word) (table : SNLTruthTable)
    (built : DivMod width isSigned result outputBit dependencies = .ok table) :
    table.dependencies = dependencies ∧ table.genericType = .DIVMOD := by
  unfold DivMod at built
  by_cases invalid : width = 0 ∨ maxUInt32 / 2 < width
  · simp [invalid, bind, Except.bind, throw, throwThe, MonadExceptOf.throw] at built
  by_cases range : width ≤ outputBit
  · simp [invalid, range, bind, Except.bind, pure, Except.pure, throw, throwThe,
      MonadExceptOf.throw] at built
  by_cases count : countBitsForVector dependencies = width * 2
  · simp only [invalid, range, count, ne_eq, not_true_eq_false, if_false] at built
    rw [validated_eq _ _ built]
    exact ⟨rfl, rfl⟩
  · simp [invalid, range, count, bind, Except.bind, pure, Except.pure, throw, throwThe,
      MonadExceptOf.throw] at built

theorem Word_spec (type : GenericType) (word : WordMetadata)
    (dependencies : List BitDependencies.Word) (table : SNLTruthTable)
    (built : Word type word dependencies = .ok table) :
    table.dependencies = dependencies ∧ table.genericType = type := by
  unfold Word at built
  split at built
  · simp [bind, Except.bind, throw, throwThe, MonadExceptOf.throw] at built
  · rw [validated_eq _ _ built]
    exact ⟨rfl, rfl⟩

theorem VectorUpdate_spec (metadata : VectorUpdateMetadata)
    (dependencies : List BitDependencies.Word) (table : SNLTruthTable)
    (built : VectorUpdate metadata dependencies = .ok table) :
    table.dependencies = dependencies ∧ table.genericType = .VECTOR_UPDATE := by
  unfold VectorUpdate at built
  simp only at built
  split at built
  · simp [bind, Except.bind, throw, throwThe, MonadExceptOf.throw] at built
  · rw [validated_eq _ _ built]
    exact ⟨rfl, rfl⟩

theorem VectorSelect_spec (metadata : VectorSelectMetadata)
    (dependencies : List BitDependencies.Word) (table : SNLTruthTable)
    (built : VectorSelect metadata dependencies = .ok table) :
    table.dependencies = dependencies ∧ table.genericType = .VECTOR_SELECT := by
  unfold VectorSelect at built
  simp only at built
  split at built
  · simp [bind, Except.bind, throw, throwThe, MonadExceptOf.throw] at built
  · rw [validated_eq _ _ built]
    exact ⟨rfl, rfl⟩

end SNLTruthTable

end Naja.TruthTable
