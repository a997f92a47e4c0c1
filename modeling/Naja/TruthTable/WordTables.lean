import Naja.TruthTable.Cofactor

/-! Tables that carry only metadata: words, selections, memories. Their functions
are written here from the metadata; operands are read most significant bit first,
and a bit whose value is unknown has none. -/

namespace Naja.TruthTable
open BitDependencies
open Naja.Primitives.PinRoles (rowIndex evaluate)
open SNLTruthTable Restriction

/-! ### The described functions -/

/-- The number of a word, most significant bit first. -/
def wordValue (bits : List Bool) : Nat := rowIndex bits.reverse

/-- The number of a word as two's complement, or unsigned. -/
def numberOf (isSigned : Bool) (bits : List Bool) : Int :=
  if isSigned then (BitVec.ofNat bits.length (wordValue bits)).toInt else wordValue bits

def addSubBit (m : WordMetadata) (a b : Nat) : Bool :=
  if m.subtract then (a + 2 ^ m.width - b).testBit m.outputBit else (a + b).testBit m.outputBit

/-- Oversized counts shift everything out; an arithmetic shift repeats the sign. -/
def shiftBit (m : WordMetadata) (a count : Nat) : Bool :=
  if m.right then
    if m.outputBit + count < m.width then a.testBit (m.outputBit + count) else m.arithmetic && a.testBit (m.width - 1)
  else decide (count ≤ m.outputBit) && a.testBit (m.outputBit - count)

/-- Quotient and remainder truncate; a division by zero has no value. -/
def divModBit (t : SNLTruthTable) (a b : Int) : Option Bool :=
  if b = 0 then none
  else
    let value := if t.divModResult = .QUOTIENT then a.tdiv b else a.tmod b
    some ((BitVec.ofInt t.divModWidth value).getLsbD t.divModOutputBit)

/-- The bit of a word, counted from the least significant one, if it is inside. -/
def bitOf (bits : List Bool) (index : Int) : Option Bool :=
  if 0 ≤ index ∧ index < bits.length then some (bits.getD (bits.length - 1 - index.toNat) false) else none

/-- The selected bit of the data. -/
def vectorSelectBit (m : VectorSelectMetadata) (inputs : List Bool) : Option Bool :=
  bitOf (inputs.take m.width) (m.outputBit + numberOf m.isSigned (inputs.drop m.width))

/-- `BASE`, or the bit of `DATA` that the offset moves there. -/
def vectorUpdateBit (m : VectorUpdateMetadata) (inputs : List Bool) : Option Bool :=
  let base := inputs.headD false
  let data := (inputs.drop 1).take m.updateWidth
  let offset := (inputs.drop (1 + m.updateWidth)).take m.addressSize
  if inputs.getLastD false then some ((bitOf data (m.outputBit - numberOf m.isSigned offset)).getD base) else some base

/-- The function that the metadata of a table describes. -/
def described (t : SNLTruthTable) (inputs : List Bool) : Option Bool :=
  let first (width : Nat) := inputs.take width
  let second (width : Nat) := inputs.drop width
  match t.genericType with
  | .ADD_SUB => some (addSubBit t.word (wordValue (first t.word.width)) (wordValue (second t.word.width)))
  | .MULTIPLY =>
      some ((wordValue (first t.word.width) * wordValue (second t.word.width)).testBit t.word.outputBit)
  | .SHIFT => some (shiftBit t.word (wordValue (first t.word.width)) (wordValue (second t.word.width)))
  | .DIVMOD =>
      divModBit t (numberOf t.divModSigned (first t.divModWidth)) (numberOf t.divModSigned (second t.divModWidth))
  | .TABLE_SELECT => bitOf (first t.tableSelectDepth) (wordValue (second t.tableSelectDepth))
  | .ROM => some (t.rom.column.getD (wordValue inputs) false)
  | .VECTOR_SELECT => vectorSelectBit t.vectorSelect inputs
  | .VECTOR_UPDATE => vectorUpdateBit t.vectorUpdate inputs
  | _ => none

/-! ### Addresses -/

theorem testBit_wordValue (bits : List Bool) (i : Nat) (inside : i < bits.length) :
    (wordValue bits).testBit i = bits.getD (bits.length - 1 - i) false := by
  rw [wordValue, testBit_rowIndex, List.getD_eq_getElem?_getD, List.getElem?_reverse inside,
    ← List.getD_eq_getElem?_getD]

theorem wordValue_lt (bits : List Bool) : wordValue bits < 2 ^ bits.length := by
  have bound := rowIndex_lt bits.reverse
  rw [List.length_reverse] at bound
  exact bound

theorem expectedBit_eq (m bit : Nat) (offset : Int) (inside : bit < m) (low : -2 ^ 63 ≤ offset)
    (high : offset < 2 ^ 63) : expectedBit offset bit = (BitVec.ofInt m offset).getLsbD bit := by
  have far (k : Nat) (small : k < 2 ^ 63) (beyond : ¬ bit < 64) : k.testBit bit = false := by
    refine Nat.testBit_lt_two_pow (lt_of_lt_of_le small ?_)
    exact Nat.pow_le_pow_right (by decide) (by omega)
  unfold expectedBit
  cases offset with
  | ofNat k =>
      rw [Int.ofNat_eq_natCast] at low high ⊢
      rw [BitVec.ofInt_natCast, BitVec.ofInt_natCast, BitVec.getLsbD_ofNat, BitVec.getLsbD_ofNat]
      split
      · next near => simp [near, inside]
      · next beyond =>
          rw [far k (by omega) beyond]
          simp
  | negSucc k =>
      rw [BitVec.ofInt_negSucc_eq_not_ofNat, BitVec.ofInt_negSucc_eq_not_ofNat, BitVec.getLsbD_not,
        BitVec.getLsbD_not, BitVec.getLsbD_ofNat, BitVec.getLsbD_ofNat]
      have negative : Int.negSucc k < 0 := Int.negSucc_lt_zero k
      split
      · next near => simp [near, inside]
      · next beyond =>
          rw [Int.negSucc_eq] at low
          rw [far k (by omega) beyond]
          simp [inside, negative]

/-- What an address of `m` bits can hold. -/
theorem isAddressable_iff (isSigned : Bool) (m : Nat) (offset : Int) (positive : 0 < m) (low : -2 ^ 62 ≤ offset)
    (high : offset < 2 ^ 62) :
    isAddressable isSigned m offset = true ↔
      if isSigned then -(2 : Int) ^ (m - 1) ≤ offset ∧ offset < 2 ^ (m - 1) else 0 ≤ offset ∧ offset < 2 ^ m := by
  have grows (k : Nat) (wide : 63 ≤ k) : (2 : Int) ^ 62 ≤ 2 ^ k := by
    have natural : (2 : Nat) ^ 62 ≤ 2 ^ k := Nat.pow_le_pow_right (by decide) (by omega)
    exact_mod_cast natural
  unfold isAddressable
  cases isSigned with
  | true =>
      by_cases short : m < 64
      · simp [short]
      · have wide := grows (m - 1) (by omega)
        simp only [short, if_false, Bool.true_or, Bool.and_true, if_true, true_iff]
        omega
  | false =>
      by_cases short : m < 64
      · simp [short]
      · have wide := grows m (by omega)
        simp only [short, if_false, Bool.false_or, Bool.and_true, decide_eq_true_eq, Bool.false_eq_true]
        omega

/-- The bits of an address are those of an offset the address can hold exactly where it is the offset. -/
theorem matches_iff (isSigned : Bool) (bits : List Bool) (offset : Int) (positive : 0 < bits.length)
    (low : -2 ^ 62 ≤ offset) (high : offset < 2 ^ 62) :
    (isAddressable isSigned bits.length offset = true ∧
        ∀ bit < bits.length, bits.getD (bits.length - 1 - bit) false = expectedBit offset bit) ↔
      numberOf isSigned bits = offset := by
  let address : BitVec bits.length := BitVec.ofNat bits.length (wordValue bits)
  have same : (∀ bit < bits.length, bits.getD (bits.length - 1 - bit) false = expectedBit offset bit) ↔
      address = BitVec.ofInt bits.length offset := by
    constructor
    · intro all
      apply BitVec.eq_of_getLsbD_eq
      intro bit inside
      rw [BitVec.getLsbD_ofNat, testBit_wordValue bits bit inside, all bit inside,
        expectedBit_eq bits.length bit offset inside (by omega) (by omega)]
      simp [inside]
    · intro equal bit inside
      rw [expectedBit_eq bits.length bit offset inside (by omega) (by omega), ← equal, BitVec.getLsbD_ofNat,
        testBit_wordValue bits bit inside]
      simp [inside]
  rw [same, isAddressable_iff isSigned bits.length offset positive low high]
  unfold numberOf
  cases isSigned with
  | true =>
      simp only [if_true]
      constructor
      · rintro ⟨⟨above, below⟩, equal⟩
        change address.toInt = offset
        rw [equal, BitVec.toInt_ofInt_eq_self positive above below]
      · intro equal
        change address.toInt = offset at equal
        refine ⟨⟨?_, ?_⟩, ?_⟩
        · exact equal ▸ address.le_toInt
        · exact equal ▸ address.toInt_lt
        · rw [← equal, BitVec.ofInt_toInt]
  | false =>
      have bound := wordValue_lt bits
      have value : address.toNat = wordValue bits := by
        rw [BitVec.toNat_ofNat, Nat.mod_eq_of_lt bound]
      simp only [Bool.false_eq_true, if_false]
      constructor
      · rintro ⟨⟨above, below⟩, equal⟩
        have numbers := congrArg BitVec.toNat equal
        rw [value, BitVec.toNat_ofInt] at numbers
        have whole : offset % ((2 ^ bits.length : Nat) : Int) = offset := by
          refine Int.emod_eq_of_lt above ?_
          exact_mod_cast below
        rw [numbers, whole, Int.toNat_of_nonneg above]
      · intro equal
        subst equal
        refine ⟨⟨Int.natCast_nonneg _, by exact_mod_cast bound⟩, ?_⟩
        rw [BitVec.ofInt_natCast]

theorem addressMatches_iff (inputs : List Bool) (start size : Nat) (offset : Int)
    (inside : start + size ≤ inputs.length) (positive : 0 < size) :
    addressMatches inputs (start + size - 1) size offset = true ↔
      ∀ bit < ((inputs.drop start).take size).length,
        ((inputs.drop start).take size).getD (((inputs.drop start).take size).length - 1 - bit) false =
          expectedBit offset bit := by
  have length : ((inputs.drop start).take size).length = size := by
    rw [List.length_take, List.length_drop]
    omega
  rw [length, addressMatches, List.all_eq_true]
  have read (bit : Nat) (small : bit < size) :
      ((inputs.drop start).take size).getD (size - 1 - bit) false = inputs.getD (start + size - 1 - bit) false := by
    rw [List.getD_eq_getElem?_getD, List.getD_eq_getElem?_getD, List.getElem?_take_of_lt (by omega),
      List.getElem?_drop, show start + (size - 1 - bit) = start + size - 1 - bit by omega]
  constructor
  · intro all bit small
    rw [read bit small]
    exact beq_iff_eq.mp (all bit (List.mem_range.mpr small))
  · intro all bit member
    have small := List.mem_range.mp member
    rw [beq_iff_eq, ← read bit small]
    exact all bit small

theorem find_range (n : Nat) (p : Nat → Bool) (target : Int) (found : ∀ k < n, p k = true ↔ (k : Int) = target) :
    (List.range n).find? p = if 0 ≤ target ∧ target < n then some target.toNat else none := by
  split
  · next inside =>
      have isTarget : (target.toNat : Int) = target := Int.toNat_of_nonneg inside.1
      have small : target.toNat < n := by omega
      have met := (found target.toNat small).mpr isTarget
      cases result : (List.range n).find? p with
      | none =>
          have never := List.find?_eq_none.mp result target.toNat (List.mem_range.mpr small)
          exact absurd met never
      | some k =>
          have bound := List.mem_range.mp (List.mem_of_find?_eq_some result)
          have same := (found k bound).mp (List.find?_some result)
          rw [← same, Int.toNat_natCast]
  · next outside =>
      rw [List.find?_eq_none]
      intro k member met
      have bound := List.mem_range.mp member
      have same := (found k bound).mp met
      omega

/-- The loop over the data bits computes the described update. -/
theorem evaluateVectorUpdate_described (t : SNLTruthTable) (inputs : List Bool)
    (type : t.genericType = .VECTOR_UPDATE) (length : inputs.length = t.size)
    (size : t.size = t.vectorUpdate.updateWidth + t.vectorUpdate.addressSize + 2)
    (positive : 0 < t.vectorUpdate.addressSize) (small : t.size < 2 ^ 32) (bit : t.vectorUpdate.outputBit < 2 ^ 32) :
    ∃ value, t.evaluateVectorUpdate inputs = .ok value ∧ described t inputs = some value := by
  obtain ⟨m, metadata⟩ : ∃ m, t.vectorUpdate = m := ⟨_, rfl⟩
  rw [metadata] at size positive bit
  let offset := (inputs.drop (1 + m.updateWidth)).take m.addressSize
  let target : Int := m.outputBit - numberOf m.isSigned offset
  have offsetLength : offset.length = m.addressSize := by
    rw [List.length_take, List.length_drop]
    omega
  have found (k : Nat) (inside : k < m.updateWidth) :
      (isAddressable m.isSigned m.addressSize ((m.outputBit : Int) - k) &&
        addressMatches inputs (m.updateWidth + m.addressSize) m.addressSize ((m.outputBit : Int) - k)) = true ↔
        (k : Int) = target := by
    have narrow : m.updateWidth < 2 ^ 32 := by omega
    have last : m.updateWidth + m.addressSize = 1 + m.updateWidth + m.addressSize - 1 := by omega
    have address := addressMatches_iff inputs (1 + m.updateWidth) m.addressSize ((m.outputBit : Int) - k)
      (by omega) positive
    have number := matches_iff m.isSigned offset ((m.outputBit : Int) - k) (by omega) (by omega) (by omega)
    rw [offsetLength] at number
    rw [Bool.and_eq_true, last, address]
    change _ ∧ (∀ bit < offset.length, offset.getD (offset.length - 1 - bit) false = _) ↔ _
    rw [offsetLength, number]
    change numberOf m.isSigned offset = (m.outputBit : Int) - k ↔ (k : Int) = m.outputBit - numberOf m.isSigned offset
    omega
  have search := find_range m.updateWidth _ target found
  unfold evaluateVectorUpdate described
  rw [type, metadata]
  simp only [ne_eq, not_true_eq_false, if_false, length]
  unfold vectorUpdateBit
  by_cases enabled : inputs.getLastD false = true
  · rw [enabled]
    simp only [Bool.not_true, Bool.false_eq_true, if_false, if_true]
    rw [search]
    change ∃ value, _ ∧ some ((bitOf ((inputs.drop 1).take m.updateWidth) target).getD (inputs.headD false)) = some value
    have dataLength : ((inputs.drop 1).take m.updateWidth).length = m.updateWidth := by
      rw [List.length_take, List.length_drop]
      omega
    unfold bitOf
    rw [dataLength]
    by_cases inside : 0 ≤ target ∧ target < m.updateWidth
    · rw [if_pos inside, if_pos inside]
      refine ⟨_, rfl, ?_⟩
      rw [Option.getD_some, List.getD_eq_getElem?_getD, List.getElem?_take_of_lt (by omega), List.getElem?_drop,
        show 1 + (m.updateWidth - 1 - target.toNat) = m.updateWidth - target.toNat by omega,
        ← List.getD_eq_getElem?_getD]
    · rw [if_neg inside, if_neg inside]
      exact ⟨_, rfl, rfl⟩
  · rw [Bool.not_eq_true] at enabled
    rw [enabled]
    exact ⟨_, rfl, rfl⟩

/-! ### Reduction -/

/-- The tables with metadata, as their factories build them; the output bit is a 32-bit number. -/
inductive DescribedTable : SNLTruthTable → Prop where
  | word (type : GenericType) (isWord : type ∈ [GenericType.ADD_SUB, .MULTIPLY, .SHIFT]) (word : WordMetadata)
      (dependencies : List BitDependencies.Word) (t : SNLTruthTable)
      (built : SNLTruthTable.Word type word dependencies = .ok t) : DescribedTable t
  | divMod (width : Nat) (isSigned : Bool) (result : DivModResult) (outputBit : Nat)
      (dependencies : List BitDependencies.Word) (t : SNLTruthTable)
      (built : DivMod width isSigned result outputBit dependencies = .ok t) : DescribedTable t
  | tableSelect (addressSize depth : Nat) (dependencies : List BitDependencies.Word) (t : SNLTruthTable)
      (built : TableSelect addressSize depth dependencies = .ok t) : DescribedTable t
  | rom (rom : RomMetadata) (dependencies : List BitDependencies.Word) (t : SNLTruthTable)
      (built : Rom rom dependencies = .ok t) : DescribedTable t
  | vectorSelect (metadata : VectorSelectMetadata) (dependencies : List BitDependencies.Word) (t : SNLTruthTable)
      (built : VectorSelect metadata dependencies = .ok t) : DescribedTable t
  | vectorUpdate (metadata : VectorUpdateMetadata) (bounded : metadata.outputBit < 2 ^ 32)
      (dependencies : List BitDependencies.Word) (t : SNLTruthTable)
      (built : VectorUpdate metadata dependencies = .ok t) : DescribedTable t

def describedTypes : List GenericType :=
  [.TABLE_SELECT, .DIVMOD, .ADD_SUB, .MULTIPLY, .SHIFT, .ROM, .VECTOR_UPDATE, .VECTOR_SELECT]

/-- What a returned table stands for. -/
def meaning (t : SNLTruthTable) (inputs : List Bool) : Option Bool :=
  if t.genericType ∈ describedTypes then described t inputs else some ( denotation t inputs)

/-- The reduction throws, or returns a table of the cofactor. -/
def ReducesToCofactor (t : SNLTruthTable) (idxConsts : ConstantInputs) : Prop :=
  ∀ r, t.getReducedWithConstants idxConsts = .ok r →
    ∀ free : List Bool, free.length = unknowns (knownAt (List.range t.size) idxConsts) →
      meaning r free = described t (fill (knownAt (List.range t.size) idxConsts) free)

/-- The described function is 0 on all inputs with these constants. -/
def Vanishes (t : SNLTruthTable) (idxConsts : ConstantInputs) : Prop :=
  ∀ free : List Bool, free.length = unknowns (knownAt (List.range t.size) idxConsts) →
    described t (fill (knownAt (List.range t.size) idxConsts) free) = some false

theorem validated (table result : SNLTruthTable)
    (built : (do table.validateGenericMetadata; return table) = Except.ok result) :
    result = table ∧ table.validateGenericMetadata = .ok () := by
  cases checked : table.validateGenericMetadata with
  | error message =>
      rw [checked] at built
      nomatch built
  | ok _ =>
      rw [checked] at built
      exact ⟨(Except.ok.inj built).symm, rfl⟩

theorem word_blank (type : GenericType) (word : WordMetadata) (dependencies : List BitDependencies.Word)
    (t : SNLTruthTable) (built : SNLTruthTable.Word type word dependencies = .ok t) :
    t.genericType = type ∧ t.bits = .empty := by
  unfold SNLTruthTable.Word at built
  split at built
  · nomatch built
  · rw [(validated _ _ built).1]
    exact ⟨rfl, rfl⟩

theorem vectorUpdate_shape (metadata : VectorUpdateMetadata) (dependencies : List BitDependencies.Word)
    (t : SNLTruthTable) (built : VectorUpdate metadata dependencies = .ok t) :
    t.genericType = .VECTOR_UPDATE ∧ t.vectorUpdate = metadata ∧
      t.size = metadata.updateWidth + metadata.addressSize + 2 ∧ t.size < 2 ^ 32 ∧ 0 < metadata.addressSize := by
  unfold VectorUpdate at built
  simp only at built
  split at built
  · nomatch built
  · next inside =>
      obtain ⟨rfl, valid⟩ := validated _ _ built
      rw [not_or, Nat.not_lt] at inside
      refine ⟨rfl, rfl, rfl, ?_, ?_⟩
      · have bound : maxUInt32 < 2 ^ 32 := by decide
        exact lt_of_le_of_lt inside.1 bound
      · rw [Nat.pos_iff_ne_zero]
        intro zero
        simp [validateGenericMetadata, invalidVectorUpdate, zero] at valid

theorem rom_type (rom : RomMetadata) (dependencies : List BitDependencies.Word) (t : SNLTruthTable)
    (built : Rom rom dependencies = .ok t) : t.genericType = .ROM := by
  unfold Rom at built
  split at built
  · nomatch built
  · rw [(validated _ _ built).1]

/-- Rows of a table without bits are all zeros. -/
theorem reduceRows_blank (t : SNLTruthTable) (blank : t.bits = .empty) (idxConsts : ConstantInputs) (n : Nat)
    (small : n < 32) : reduceRows t idxConsts n = .ok Logic0 := by
  have row (j : Nat) : reducedRow t idxConsts j = false := by
    rw [reducedRow, blank]
    simp [NLBitVecDynamic.bit, NLBitVecDynamic.empty]
  have rows : (List.range (oneShiftLeft n)).map (reducedRow t idxConsts) = List.replicate (2 ^ n) false := by
    rw [List.eq_replicate_iff, StorageRoundTrip.oneShiftLeft_eq n small]
    refine ⟨by simp, fun b member => ?_⟩
    obtain ⟨j, -, rfl⟩ := List.mem_map.mp member
    exact row j
  have zero (k : Nat) : rowIndex (List.replicate k false) = 0 := by
    induction k with
    | zero => rfl
    | succ k ih =>
        rw [List.replicate_succ]
        change 0 + 2 * rowIndex (List.replicate k false) = 0
        rw [ih]
  have positive : (2 : Nat) ^ n ≠ 0 := (Nat.two_pow_pos n).ne'
  unfold reduceRows
  simp only [rows]
  by_cases large : 6 < n
  · have noOnes : all0 (⟨n, ⟨2 ^ n, .vector (List.replicate (2 ^ n) false), by
        simp [BitData.isMask, StorageRoundTrip.pow_le_64, large]⟩, fullDependencies n, .NONE, 0, 0, 0, false,
        .QUOTIENT, 0, {}, {}, {}, {}⟩ : SNLTruthTable) = true := by
      unfold all0
      rw [if_neg positive, if_neg (by change ¬ n ≤ 6; omega), List.all_eq_true]
      intro i member
      have inside := List.mem_range.mp member
      simp [NLBitVecDynamic.bit, inside]
    rw [if_pos large, StorageRoundTrip.ofVector_eq_ok n _ _ large small (by rw [countBits_fullDependencies])]
    exact congrArg Except.ok (if_pos noOnes)
  · have noOnes : all0 (⟨n, ⟨2 ^ n, .mask (maskOfRows (List.replicate (2 ^ n) false)), by
        simp [BitData.isMask, StorageRoundTrip.pow_le_64]; omega⟩, fullDependencies n, .NONE, 0, 0, 0, false,
        .QUOTIENT, 0, {}, {}, {}, {}⟩ : SNLTruthTable) = true := by
      unfold all0
      rw [if_neg positive, if_pos (by change n ≤ 6; omega)]
      simp [maskValue, maskOfRows, zero]
    rw [if_neg large, StorageRoundTrip.ofMask_eq_ok n _ _ (by omega) (fun _ => by rw [countBits_fullDependencies])]
    exact congrArg Except.ok (if_pos noOnes)

section
variable (t : SNLTruthTable) (idxConsts : ConstantInputs)

/-- Without constants the table is its own cofactor. -/
theorem reduces_nothing (type : t.genericType ∈ describedTypes) : ReducesToCofactor t [] := by
  intro r reduced free length
  have unchanged : r = t := by
    unfold getReducedWithConstants at reduced
    split at reduced
    · nomatch reduced
    · split at reduced
      · exact (Except.ok.inj reduced).symm
      · exact (Except.ok.inj reduced).symm
  have nothing : knownAt (List.range t.size) ([] : ConstantInputs) = List.replicate t.size none := by
    rw [List.eq_replicate_iff]
    refine ⟨by rw [knownAt, List.length_map, List.length_range], fun entry member => ?_⟩
    obtain ⟨position, -, same⟩ := List.mem_map.mp member
    exact same.symm
  have count : free.length = t.size := by
    rw [length, nothing, unknowns, List.countP_replicate]
    rfl
  rw [unchanged, meaning, if_pos type, nothing, ← count, fill_nothing]

/-- The reduction of a table that is refused, or returned for want of inputs. -/
theorem reduces_of_empty (type : t.genericType ∈ describedTypes) (empty : t.size = 0) :
    ReducesToCofactor t idxConsts := by
  intro r reduced free length
  have unchanged : r = t := by
    unfold getReducedWithConstants at reduced
    split at reduced
    · nomatch reduced
    · exact (Except.ok.inj reduced).symm
  rw [empty] at length ⊢
  have none : free = [] := List.length_eq_zero_iff.mp length
  rw [unchanged, meaning, if_pos type, none]
  rfl

/-- What is left after the checks on the list. -/
theorem checked (r : SNLTruthTable) (positive : t.size ≠ 0) (some_ : idxConsts ≠ [])
    (reduced : t.getReducedWithConstants idxConsts = .ok r) :
    isSimple t.dependencies = true ∧ (∀ c ∈ idxConsts, c.1 < t.size) ∧
      (t.genericType = .VECTOR_UPDATE → ∃ inputs value, updateInputs t.size idxConsts = .ok inputs ∧
        t.evaluateVectorUpdate inputs = .ok value ∧ r = constantTable value) ∧
      (t.genericType ∈ [GenericType.ADD_SUB, .MULTIPLY, .SHIFT] →
        reduceRows t idxConsts (t.size - idxConsts.length) = .ok r) ∧
      t.genericType ∉ [GenericType.TABLE_SELECT, .DIVMOD, .ROM, .VECTOR_SELECT] := by
  unfold getReducedWithConstants at reduced
  by_cases sparse : (!isSimple t.dependencies) = true
  · rw [if_pos sparse] at reduced
    nomatch reduced
  · rw [if_neg sparse, if_neg positive, if_neg (by simpa using some_)] at reduced
    by_cases outside : idxConsts.any (fun c => decide (t.size ≤ c.1)) = true
    · rw [if_pos outside] at reduced
      nomatch reduced
    · rw [if_neg outside] at reduced
      have inside (c : Nat × Bool) (member : c ∈ idxConsts) : c.1 < t.size := by
        by_contra high
        exact outside (List.any_eq_true.mpr ⟨c, member, by simpa using high⟩)
      refine ⟨by simpa using sparse, inside, ?_⟩
      simp only at reduced
      refine ⟨fun type => ?_, fun type => ?_, fun type => ?_⟩
      · rw [type] at reduced
        cases gathered : updateInputs t.size idxConsts with
        | error message =>
            rw [gathered] at reduced
            nomatch reduced
        | ok inputs =>
            cases evaluated : t.evaluateVectorUpdate inputs with
            | error message =>
                simp only [gathered, bind, Except.bind, evaluated] at reduced
                nomatch reduced
            | ok value =>
                simp only [gathered, bind, Except.bind, evaluated, pure, Except.pure] at reduced
                exact ⟨inputs, value, rfl, evaluated, (Except.ok.inj reduced).symm⟩
      · simp only [List.mem_cons, List.not_mem_nil, or_false] at type
        rcases type with type | type | type <;> rw [type] at reduced <;> exact reduced
      · simp only [List.mem_cons, List.not_mem_nil, or_false] at type
        rcases type with type | type | type | type <;> rw [type] at reduced <;> nomatch reduced

/-- The inputs of a full list of constants are the filled ones. -/
theorem updateInputs_spec (inputs : List Bool) (inside : ∀ c ∈ idxConsts, c.1 < t.size)
    (gathered : updateInputs t.size idxConsts = .ok inputs) :
    inputs.length = t.size ∧ unknowns (knownAt (List.range t.size) idxConsts) = 0 ∧
      fill (knownAt (List.range t.size) idxConsts) [] = inputs := by
  unfold updateInputs at gathered
  split at gathered
  · nomatch gathered
  · next count =>
      split at gathered
      · nomatch gathered
      · next distinct =>
          rw [ne_eq, Decidable.not_not] at count
          rw [Decidable.not_not] at distinct
          obtain rfl := Except.ok.inj gathered
          have fixes : Fixes (List.range t.size) idxConsts :=
            ⟨distinct, fun c member => List.mem_range.mpr (inside c member)⟩
          have total := length_remaining (List.range t.size) idxConsts List.nodup_range fixes
          rw [List.length_range] at total
          have full : unknowns (knownAt (List.range t.size) idxConsts) = 0 := by
            rw [unknowns_knownAt]
            omega
          refine ⟨by simp, full, ?_⟩
          rw [fill_known _ false full, knownAt, List.map_map]
          refine List.map_congr_left (fun index _ => ?_)
          rw [lookup_eq_valueAt]
          rfl

theorem reduces_vectorUpdate (metadata : VectorUpdateMetadata) (bounded : metadata.outputBit < 2 ^ 32)
    (dependencies : List BitDependencies.Word) (built : VectorUpdate metadata dependencies = .ok t)
    (some_ : idxConsts ≠ []) : ReducesToCofactor t idxConsts := by
  obtain ⟨type, same, size, small, positive⟩ := vectorUpdate_shape metadata dependencies t built
  intro r reduced free length
  obtain ⟨-, inside, update, -, -⟩ := checked t idxConsts r (by omega) some_ reduced
  obtain ⟨inputs, value, gathered, evaluated, rfl⟩ := update type
  obtain ⟨count, full, filled⟩ := updateInputs_spec t idxConsts inputs inside gathered
  rw [full] at length
  obtain ⟨value', evaluated', function⟩ := evaluateVectorUpdate_described t inputs type count
    (by rw [same]; exact size) (by rw [same]; exact positive) small (by rw [same]; exact bounded)
  obtain rfl := Except.ok.inj (evaluated.symm.trans evaluated')
  rw [List.length_eq_zero_iff.mp length, filled, function]
  cases value <;> rfl

/-- A word table is reduced to the constant 0, whatever it describes. -/
theorem reduces_word (type : t.genericType ∈ [GenericType.ADD_SUB, .MULTIPLY, .SHIFT]) (blank : t.bits = .empty)
    (defined : t.size - idxConsts.length < 32) (some_ : idxConsts ≠ []) (simple : isSimple t.dependencies = true)
    (inside : ∀ c ∈ idxConsts, c.1 < t.size) :
    t.getReducedWithConstants idxConsts = .ok Logic0 := by
  obtain ⟨c, member⟩ := List.exists_mem_of_ne_nil idxConsts some_
  have positive : t.size ≠ 0 := by
    have bound := inside c member
    omega
  have inRange : ¬ idxConsts.any (fun c => decide (t.size ≤ c.1)) = true := by
    rw [List.any_eq_true]
    rintro ⟨d, listed, high⟩
    have bound := inside d listed
    rw [decide_eq_true_eq] at high
    omega
  have rows := reduceRows_blank t blank idxConsts (t.size - idxConsts.length) defined
  unfold getReducedWithConstants
  rw [simple, if_neg (by decide), if_neg positive, if_neg (by simpa using some_), if_neg inRange]
  simp only [List.mem_cons, List.not_mem_nil, or_false] at type
  rcases type with type | type | type <;> rw [type] <;> exact rows

/-- The condition on a table and its constants: a word table keeps its function only where that is 0. -/
def KeepsFunction : Prop :=
  t.isWordArithmetic = true → isSimple t.dependencies = true → idxConsts ≠ [] → (∀ c ∈ idxConsts, c.1 < t.size) →
    Vanishes t idxConsts

end

end Naja.TruthTable
