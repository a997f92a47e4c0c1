import Mathlib.Data.Prod.Lex
import Naja.TruthTable.BitEncodings

/-! The order of truth tables that keys a map of primitives: a chain over all their fields, with the
rows compared as they are stored. -/

namespace Naja.TruthTable

/-! ### Chains of comparisons -/

/-- The first field that differs decides, and the ones after it otherwise. -/
theorem chain_iff {α κ β : Type} [DecidableEq α] [LinearOrder κ] [LinearOrder β] (key : α → κ)
    (injective : Function.Injective key) (x x' : α) (rest tail : Bool) (y y' : β)
    (later : rest = true ↔ y < y' ∨ y = y' ∧ tail = true) :
    (if x ≠ x' then decide (key x < key x') else rest) = true ↔
      toLex (key x, y) < toLex (key x', y') ∨ toLex (key x, y) = toLex (key x', y') ∧ tail = true := by
  have same : toLex (key x, y) = toLex (key x', y') ↔ x = x' ∧ y = y' := by
    simp [injective.eq_iff]
  rw [same, Prod.Lex.toLex_lt_toLex]
  by_cases equal : x = x'
  · subst equal
    simp [later]
  · have differ : key x ≠ key x' := fun contra => equal (injective contra)
    simp [equal, differ]

/-- The last field of a chain. -/
theorem last_iff {α κ : Type} [DecidableEq α] [LinearOrder κ] (key : α → κ) (injective : Function.Injective key)
    (x x' : α) (tail : Bool) :
    (if x ≠ x' then decide (key x < key x') else tail) = true ↔
      key x < key x' ∨ key x = key x' ∧ tail = true := by
  rw [injective.eq_iff]
  by_cases equal : x = x'
  · subst equal
    simp
  · simp [equal]

/-! ### The comparison of two tables -/

abbrev WordKey := Nat ×ₗ Nat ×ₗ Nat ×ₗ Bool ×ₗ Bool ×ₗ Bool

def WordMetadata.tie (m : WordMetadata) : WordKey :=
  toLex (m.width, toLex (m.outputBit, toLex (m.countWidth, toLex (m.subtract, toLex (m.right, m.arithmetic)))))

abbrev RomKey := Nat ×ₗ Nat ×ₗ List Bool

def RomMetadata.tie (m : RomMetadata) : RomKey := toLex (m.addressSize, toLex (m.depth, m.column))

abbrev VectorKey := Nat ×ₗ Nat ×ₗ Nat ×ₗ Nat ×ₗ Bool

def VectorUpdateMetadata.tie (m : VectorUpdateMetadata) : VectorKey :=
  toLex (m.width, toLex (m.updateWidth, toLex (m.addressSize, toLex (m.outputBit, m.isSigned))))

def VectorSelectMetadata.tie (m : VectorSelectMetadata) : VectorKey :=
  toLex (m.width, toLex (m.selectWidth, toLex (m.addressSize, toLex (m.outputBit, m.isSigned))))

/-- Position of a type in the enumeration. -/
def GenericType.rank (type : GenericType) : Nat := type.ctorIdx

def DivModResult.rank (result : DivModResult) : Nat := result.ctorIdx

namespace SNLTruthTable

/-- The words of the dependencies, compared one after the other. -/
def dependencyKey (dependencies : List BitDependencies.Word) : List Nat := dependencies.map BitVec.toNat

/-- The rows as they are stored, then the dependencies. -/
def lessTail (t o : SNLTruthTable) : Bool :=
  if t.bits ≠ o.bits then t.bits.less o.bits
  else decide (dependencyKey t.dependencies < dependencyKey o.dependencies)

/-- `operator<`. -/
def less (t o : SNLTruthTable) : Bool :=
  if t.size ≠ o.size then decide (t.size < o.size)
  else if t.genericType ≠ o.genericType then decide (t.genericType.rank < o.genericType.rank)
  else if t.tableSelectAddressSize ≠ o.tableSelectAddressSize then
    decide (t.tableSelectAddressSize < o.tableSelectAddressSize)
  else if t.tableSelectDepth ≠ o.tableSelectDepth then decide (t.tableSelectDepth < o.tableSelectDepth)
  else if t.divModWidth ≠ o.divModWidth then decide (t.divModWidth < o.divModWidth)
  else if t.divModSigned ≠ o.divModSigned then decide (t.divModSigned < o.divModSigned)
  else if t.divModResult ≠ o.divModResult then decide (t.divModResult.rank < o.divModResult.rank)
  else if t.divModOutputBit ≠ o.divModOutputBit then decide (t.divModOutputBit < o.divModOutputBit)
  else if t.word ≠ o.word then decide (t.word.tie < o.word.tie)
  else if t.rom ≠ o.rom then decide (t.rom.tie < o.rom.tie)
  else if t.vectorSelect ≠ o.vectorSelect then decide (t.vectorSelect.tie < o.vectorSelect.tie)
  else if t.vectorUpdate ≠ o.vectorUpdate then decide (t.vectorUpdate.tie < o.vectorUpdate.tie)
  else lessTail t o

abbrev Header :=
  Nat ×ₗ Nat ×ₗ Nat ×ₗ Nat ×ₗ Nat ×ₗ Bool ×ₗ Nat ×ₗ Nat ×ₗ WordKey ×ₗ RomKey ×ₗ VectorKey ×ₗ VectorKey

/-- All that is compared before the rows. -/
def header (t : SNLTruthTable) : Header :=
  toLex (t.size, toLex (t.genericType.rank, toLex (t.tableSelectAddressSize, toLex (t.tableSelectDepth,
    toLex (t.divModWidth, toLex (t.divModSigned, toLex (t.divModResult.rank, toLex (t.divModOutputBit,
      toLex (t.word.tie, toLex (t.rom.tie, toLex (t.vectorSelect.tie, t.vectorUpdate.tie)))))))))))

end SNLTruthTable

theorem WordMetadata.tie_injective : Function.Injective WordMetadata.tie := by
  rintro ⟨⟩ ⟨⟩ same
  simpa [WordMetadata.tie] using same

theorem RomMetadata.tie_injective : Function.Injective RomMetadata.tie := by
  rintro ⟨⟩ ⟨⟩ same
  simpa [RomMetadata.tie] using same

theorem VectorUpdateMetadata.tie_injective : Function.Injective VectorUpdateMetadata.tie := by
  rintro ⟨⟩ ⟨⟩ same
  simpa [VectorUpdateMetadata.tie] using same

theorem VectorSelectMetadata.tie_injective : Function.Injective VectorSelectMetadata.tie := by
  rintro ⟨⟩ ⟨⟩ same
  simpa [VectorSelectMetadata.tie] using same

theorem GenericType.rank_injective : Function.Injective GenericType.rank := by
  intro a b same
  cases a <;> cases b <;> first | rfl | nomatch same

theorem DivModResult.rank_injective : Function.Injective DivModResult.rank := by
  intro a b same
  cases a <;> cases b <;> first | rfl | nomatch same

namespace SNLTruthTable
open Naja.Primitives.PinRoles (rowIndex evaluate)
open StorageRoundTrip

theorem less_iff (t o : SNLTruthTable) :
    less t o = true ↔ t.header < o.header ∨ t.header = o.header ∧ lessTail t o = true := by
  have plain : Function.Injective (id : Nat → Nat) := Function.injective_id
  have sign : Function.Injective (id : Bool → Bool) := Function.injective_id
  apply chain_iff id plain
  apply chain_iff GenericType.rank GenericType.rank_injective
  apply chain_iff id plain
  apply chain_iff id plain
  apply chain_iff id plain
  apply chain_iff id sign
  apply chain_iff DivModResult.rank DivModResult.rank_injective
  apply chain_iff id plain
  apply chain_iff WordMetadata.tie WordMetadata.tie_injective
  apply chain_iff RomMetadata.tie RomMetadata.tie_injective
  apply chain_iff VectorSelectMetadata.tie VectorSelectMetadata.tie_injective
  exact last_iff VectorUpdateMetadata.tie VectorUpdateMetadata.tie_injective _ _ _

/-- Tables with one header differ by rows and dependencies at most. -/
theorem eq_of_header (t o : SNLTruthTable) (same : t.header = o.header) (bits : t.bits = o.bits)
    (dependencies : t.dependencies = o.dependencies) : t = o := by
  obtain ⟨⟩ := t
  obtain ⟨⟩ := o
  simp only [header, EmbeddingLike.apply_eq_iff_eq, Prod.mk.injEq, GenericType.rank_injective.eq_iff,
    DivModResult.rank_injective.eq_iff, WordMetadata.tie_injective.eq_iff, RomMetadata.tie_injective.eq_iff,
    VectorSelectMetadata.tie_injective.eq_iff, VectorUpdateMetadata.tie_injective.eq_iff] at same
  simp only at bits dependencies
  simp [same, bits, dependencies]

theorem dependencyKey_injective : Function.Injective dependencyKey :=
  List.map_injective_iff.mpr fun _ _ => BitVec.eq_of_toNat_eq

/-! ### Rows as they are stored -/

/-- The number two stored rows are compared by. -/
def storedNumber (v : NLBitVecDynamic) : Nat :=
  match v.data with
  | .mask value => value.toNat
  | .vector bits => rowIndex (bits.take v.nbits)

/-- The rows of a table over `size` inputs: one word, which may have more bits, or a vector with
an entry for every row, which may have more. -/
structure HasRows (size : Nat) (v : NLBitVecDynamic) : Prop where
  rows : v.nbits = 2 ^ size
  filled : ∀ bits, v.data = .vector bits → 2 ^ size ≤ bits.length

theorem data_of_small (size : Nat) (v : NLBitVecDynamic) (rows : HasRows size v) (small : size ≤ 6) :
    ∃ value, v.data = .mask value := by
  have short : v.nbits ≤ 64 := by
    rw [rows.rows]
    exact Nat.pow_le_pow_right (by decide) small
  have kind := v.kind
  cases data : v.data with
  | mask value => exact ⟨value, rfl⟩
  | vector bits => simp [data, BitData.isMask, short] at kind

theorem data_of_large (size : Nat) (v : NLBitVecDynamic) (rows : HasRows size v) (large : 6 < size) :
    ∃ bits, v.data = .vector bits := by
  have long : ¬ v.nbits ≤ 64 := by
    rw [rows.rows]
    have more : 2 ^ 7 ≤ 2 ^ size := Nat.pow_le_pow_right (by decide) large
    omega
  have kind := v.kind
  cases data : v.data with
  | mask value => simp [data, BitData.isMask, long] at kind
  | vector bits => exact ⟨bits, rfl⟩

/-- What the comparison reads of a vector, from the first entry on. -/
def readBits (v : NLBitVecDynamic) (pos : Nat) : Bool := if pos < v.nbits then v.shiftRight pos else false

theorem readBits_empty : readBits .empty = (0 : Nat).testBit := by
  funext pos
  simp [readBits, NLBitVecDynamic.empty]

theorem readBits_vector (v : NLBitVecDynamic) (bits : List Bool) (vector : v.data = .vector bits) :
    readBits v = (storedNumber v).testBit := by
  funext pos
  simp only [readBits, NLBitVecDynamic.shiftRight, storedNumber, vector, testBit_rowIndex]
  by_cases inside : pos < v.nbits
  · have past : ¬ v.nbits ≤ pos := by omega
    simp [inside, past, List.getD_eq_getElem?_getD]
  · simp [inside, List.getD_eq_getElem?_getD]

theorem storedNumber_vector_lt (v : NLBitVecDynamic) (bits : List Bool) (vector : v.data = .vector bits) :
    storedNumber v < 2 ^ v.nbits := by
  have bound := rowIndex_lt (bits.take v.nbits)
  have length : (bits.take v.nbits).length ≤ v.nbits := List.length_take_le ..
  simp only [storedNumber, vector]
  exact lt_of_lt_of_le bound (Nat.pow_le_pow_right (by decide) length)

theorem scan_iff (v w : NLBitVecDynamic) (a b : Nat) (readLeft : readBits v = a.testBit)
    (readRight : readBits w = b.testBit) (left : a < 2 ^ v.nbits) (right : b < 2 ^ w.nbits) :
    lessFrom (readBits v) (readBits w) (max v.nbits w.nbits) = true ↔ a < b := by
  have wide : a < 2 ^ max v.nbits w.nbits :=
    lt_of_lt_of_le left (Nat.pow_le_pow_right (by decide) (le_max_left _ _))
  have wide' : b < 2 ^ max v.nbits w.nbits :=
    lt_of_lt_of_le right (Nat.pow_le_pow_right (by decide) (le_max_right _ _))
  rw [readLeft, readRight, lessFrom_iff, Nat.mod_eq_of_lt wide, Nat.mod_eq_of_lt wide']

theorem less_masks (v w : NLBitVecDynamic) (a b : BitDependencies.Word) (left : v.data = .mask a)
    (right : w.data = .mask b) : v.less w = true ↔ storedNumber v < storedNumber w := by
  simp [NLBitVecDynamic.less, storedNumber, left, right, BitVec.lt_def]

theorem less_scan (v w : NLBitVecDynamic) (notMasks : ∀ a b, ¬ (v.data = .mask a ∧ w.data = .mask b)) :
    v.less w = lessFrom (readBits v) (readBits w) (max v.nbits w.nbits) := by
  unfold NLBitVecDynamic.less
  split
  · next a b left right => exact absurd ⟨left, right⟩ (notMasks a b)
  · rfl

/-- Stored rows of one size, or none, are ordered by their numbers. -/
theorem bits_less_iff (size : Nat) (v w : NLBitVecDynamic) (left : v = .empty ∨ HasRows size v)
    (right : w = .empty ∨ HasRows size w) : v.less w = true ↔ storedNumber v < storedNumber w := by
  rcases Nat.lt_or_ge 6 size with large | small
  · -- vectors, or no rows at all: the scan reads the numbers
    have read (u : NLBitVecDynamic) (kept : u = .empty ∨ HasRows size u) :
        readBits u = (storedNumber u).testBit ∧ storedNumber u < 2 ^ u.nbits := by
      rcases kept with rfl | rows
      · exact ⟨readBits_empty, by decide⟩
      · obtain ⟨bits, vector⟩ := data_of_large size u rows large
        exact ⟨readBits_vector u bits vector, storedNumber_vector_lt u bits vector⟩
    obtain ⟨readLeft, boundLeft⟩ := read v left
    obtain ⟨readRight, boundRight⟩ := read w right
    by_cases masks : ∃ a b, v.data = .mask a ∧ w.data = .mask b
    · obtain ⟨a, b, first, second⟩ := masks
      exact less_masks v w a b first second
    · rw [less_scan v w fun a b both => masks ⟨a, b, both⟩]
      exact scan_iff v w _ _ readLeft readRight boundLeft boundRight
  · have word (u : NLBitVecDynamic) (kept : u = .empty ∨ HasRows size u) : ∃ value, u.data = .mask value := by
      rcases kept with rfl | rows
      · exact ⟨0, rfl⟩
      · exact data_of_small size u rows small
    obtain ⟨a, first⟩ := word v left
    obtain ⟨b, second⟩ := word w right
    exact less_masks v w a b first second

/-- The same row at every place, whatever else is stored. -/
def SameRows (t o : SNLTruthTable) : Prop := ∀ row, row < 2 ^ t.size → t.bits.bit row = o.bits.bit row

theorem storedNumber_eq_of_large (size : Nat) (v w : NLBitVecDynamic) (left : HasRows size v)
    (right : HasRows size w) (large : 6 < size) :
    storedNumber v = storedNumber w ↔ ∀ row, row < 2 ^ size → v.bit row = w.bit row := by
  obtain ⟨bits, vector⟩ := data_of_large size v left large
  obtain ⟨bits', vector'⟩ := data_of_large size w right large
  have agree : storedNumber v = storedNumber w ↔
      ∀ row, (bits.take (2 ^ size)).getD row false = (bits'.take (2 ^ size)).getD row false := by
    simp only [storedNumber, vector, vector', left.rows, right.rows]
    constructor
    · intro same row
      rw [← testBit_rowIndex, same, testBit_rowIndex]
    · intro same
      apply Nat.eq_of_testBit_eq
      intro row
      rw [testBit_rowIndex, testBit_rowIndex, same]
  rw [agree]
  apply forall_congr'
  intro row
  by_cases inside : row < 2 ^ size
  · simp [NLBitVecDynamic.bit, vector, vector', inside, List.getD_eq_getElem?_getD]
  · simp [inside, List.getD_eq_getElem?_getD]

theorem storedNumber_eq_of_small (size : Nat) (v w : NLBitVecDynamic) (left : HasRows size v)
    (right : HasRows size w) (small : size ≤ 6) : storedNumber v = storedNumber w ↔ v = w := by
  obtain ⟨value, word⟩ := data_of_small size v left small
  obtain ⟨value', word'⟩ := data_of_small size w right small
  constructor
  · intro same
    simp only [storedNumber, word, word'] at same
    have equal : v.data = w.data := by rw [word, word', BitVec.eq_of_toNat_eq same]
    obtain ⟨_, _, _⟩ := v
    obtain ⟨_, _, _⟩ := w
    have lengths := left.rows.trans right.rows.symm
    simp only at equal lengths
    simp [equal, lengths]
  · intro same
    rw [same]

/-! ### The tables there are -/

/-- Built by a constructor, a factory or a reduction; a vector has an entry for every row. -/
inductive Constructed : SNLTruthTable → Prop where
  | default : Constructed {}
  | mask (size : Nat) (bits : BitDependencies.Word) (dependencies : List BitDependencies.Word) (t : SNLTruthTable)
      (built : ofMask size bits dependencies = .ok t) : Constructed t
  | vector (size : Nat) (bits : List Bool) (dependencies : List BitDependencies.Word) (t : SNLTruthTable)
      (filled : 2 ^ size ≤ bits.length) (built : ofVector size bits dependencies = .ok t) : Constructed t
  | generic (size : Nat) (type : GenericType) (dependencies : List BitDependencies.Word) (addressSize depth : Nat)
      (t : SNLTruthTable) (built : ofGeneric size type dependencies addressSize depth = .ok t) : Constructed t
  | divMod (width : Nat) (isSigned : Bool) (result : DivModResult) (outputBit : Nat)
      (dependencies : List BitDependencies.Word) (t : SNLTruthTable)
      (built : DivMod width isSigned result outputBit dependencies = .ok t) : Constructed t
  | word (type : GenericType) (word : WordMetadata) (dependencies : List BitDependencies.Word) (t : SNLTruthTable)
      (built : Word type word dependencies = .ok t) : Constructed t
  | rom (rom : RomMetadata) (dependencies : List BitDependencies.Word) (t : SNLTruthTable)
      (built : Rom rom dependencies = .ok t) : Constructed t
  | vectorUpdate (metadata : VectorUpdateMetadata) (dependencies : List BitDependencies.Word) (t : SNLTruthTable)
      (built : VectorUpdate metadata dependencies = .ok t) : Constructed t
  | vectorSelect (metadata : VectorSelectMetadata) (dependencies : List BitDependencies.Word) (t : SNLTruthTable)
      (built : VectorSelect metadata dependencies = .ok t) : Constructed t
  | reduced (t : SNLTruthTable) (idxConsts : ConstantInputs) (r : SNLTruthTable) (table : Constructed t)
      (built : getReducedWithConstants t idxConsts = .ok r) : Constructed r

/-- A table over rows, with nothing else in it. -/
structure RowTable (t : SNLTruthTable) : Prop where
  plain : t = { size := t.size, bits := t.bits, dependencies := t.dependencies }
  kept : HasRows t.size t.bits

def Shape (t : SNLTruthTable) : Prop := t.bits = .empty ∨ RowTable t

theorem shape_mask (size : Nat) (bits : BitDependencies.Word) (dependencies : List BitDependencies.Word)
    (t : SNLTruthTable) (built : ofMask size bits dependencies = .ok t) : Shape t := by
  obtain ⟨short, small, -, rfl⟩ := ofMask_spec size bits dependencies t built
  exact Or.inr ⟨rfl, oneShiftLeft_eq size (by omega), nofun⟩

theorem shape_vector (size : Nat) (bits : List Bool) (dependencies : List BitDependencies.Word) (t : SNLTruthTable)
    (filled : 2 ^ size ≤ bits.length) (built : ofVector size bits dependencies = .ok t) : Shape t := by
  obtain ⟨long, -, -, rfl⟩ := ofVector_spec size bits dependencies t built
  have small := small_of_oneShiftLeft size (by omega)
  refine Or.inr ⟨rfl, oneShiftLeft_eq size small, ?_⟩
  intro stored same
  cases same
  exact filled

theorem shape_constant (value : Bool) : Shape (if value then Logic1 else Logic0) := by
  cases value
  · exact Or.inr ⟨rfl, rfl, nofun⟩
  · exact Or.inr ⟨rfl, rfl, nofun⟩

/-- A generic table that passes the check of its metadata has no rows. -/
theorem shape_validated (table result : SNLTruthTable) (noRows : table.bits = .empty)
    (built : (do table.validateGenericMetadata; return table) = Except.ok result) : Shape result := by
  cases checked : table.validateGenericMetadata with
  | error message => simp [checked, bind, Except.bind] at built
  | ok _ =>
      simp [checked, bind, Except.bind, pure, Except.pure] at built
      exact Or.inl (built ▸ noRows)

theorem shape_generic (size : Nat) (type : GenericType) (dependencies : List BitDependencies.Word)
    (addressSize depth : Nat) (t : SNLTruthTable)
    (built : ofGeneric size type dependencies addressSize depth = .ok t) : Shape t := by
  unfold ofGeneric checkDependencyCount at built
  split at built
  · simp [bind, Except.bind] at built
  · exact shape_validated _ t rfl built

theorem shape_divMod (width : Nat) (isSigned : Bool) (result : DivModResult) (outputBit : Nat)
    (dependencies : List BitDependencies.Word) (t : SNLTruthTable)
    (built : DivMod width isSigned result outputBit dependencies = .ok t) : Shape t := by
  unfold DivMod at built
  by_cases invalid : width = 0 ∨ maxUInt32 / 2 < width
  · simp [invalid, bind, Except.bind, throw, throwThe, MonadExceptOf.throw] at built
  by_cases range : width ≤ outputBit
  · simp [invalid, range, bind, Except.bind, throw, throwThe, MonadExceptOf.throw] at built
  by_cases count : BitDependencies.countBitsForVector dependencies = width * 2
  · simp only [invalid, range, count, ne_eq, not_true_eq_false, if_false] at built
    exact shape_validated _ t rfl built
  · simp [invalid, range, count, bind, Except.bind, throw, throwThe, MonadExceptOf.throw] at built

theorem shape_word (type : GenericType) (word : WordMetadata) (dependencies : List BitDependencies.Word)
    (t : SNLTruthTable) (built : Word type word dependencies = .ok t) : Shape t := by
  unfold Word at built
  split at built
  · simp [bind, Except.bind, throw, throwThe, MonadExceptOf.throw] at built
  · exact shape_validated _ t rfl built

theorem shape_rom (rom : RomMetadata) (dependencies : List BitDependencies.Word) (t : SNLTruthTable)
    (built : Rom rom dependencies = .ok t) : Shape t := by
  unfold Rom at built
  split at built
  · simp [bind, Except.bind, throw, throwThe, MonadExceptOf.throw] at built
  · exact shape_validated _ t rfl built

theorem shape_vectorUpdate (metadata : VectorUpdateMetadata) (dependencies : List BitDependencies.Word)
    (t : SNLTruthTable) (built : VectorUpdate metadata dependencies = .ok t) : Shape t := by
  unfold VectorUpdate at built
  simp only at built
  split at built
  · simp [bind, Except.bind, throw, throwThe, MonadExceptOf.throw] at built
  · exact shape_validated _ t rfl built

theorem shape_vectorSelect (metadata : VectorSelectMetadata) (dependencies : List BitDependencies.Word)
    (t : SNLTruthTable) (built : VectorSelect metadata dependencies = .ok t) : Shape t := by
  unfold VectorSelect at built
  simp only at built
  split at built
  · simp [bind, Except.bind, throw, throwThe, MonadExceptOf.throw] at built
  · exact shape_validated _ t rfl built

theorem shape_smallerGate (newSize : Nat) (type : GenericType) (inverted : Bool) (r : SNLTruthTable)
    (built : smallerGate newSize type inverted = .ok r) : Shape r := by
  unfold smallerGate at built
  split at built
  · rw [← Except.ok.inj built]
    exact shape_constant inverted
  · split at built
    · rw [← Except.ok.inj built]
      cases inverted
      · exact Or.inr ⟨rfl, rfl, nofun⟩
      · exact Or.inr ⟨rfl, rfl, nofun⟩
    · exact shape_generic _ _ _ _ _ r built

theorem shape_reduceRows (t : SNLTruthTable) (idxConsts : ConstantInputs) (newSize : Nat) (r : SNLTruthTable)
    (built : reduceRows t idxConsts newSize = .ok r) : Shape r := by
  have chosen (out : SNLTruthTable) (shape : Shape out)
      (same : (if out.all0 then Logic0 else if out.all1 then Logic1 else out) = r) : Shape r := by
    rw [← same]
    by_cases zeros : out.all0 = true
    · rw [if_pos zeros]
      exact shape_constant false
    · rw [if_neg zeros]
      by_cases ones : out.all1 = true
      · rw [if_pos ones]
        exact shape_constant true
      · rw [if_neg ones]
        exact shape
  simp only [reduceRows, bind, Except.bind, pure, Except.pure] at built
  by_cases large : 6 < newSize
  · rw [if_pos large] at built
    split at built
    · contradiction
    next out made =>
      obtain ⟨long, -, -, -⟩ := ofVector_spec _ _ _ _ made
      have small := small_of_oneShiftLeft newSize (by omega)
      have filled : 2 ^ newSize ≤ ((List.range (oneShiftLeft newSize)).map (reducedRow t idxConsts)).length := by
        simp [oneShiftLeft_eq newSize small]
      exact chosen out (shape_vector _ _ _ out filled made) (Except.ok.inj built)
  · rw [if_neg large] at built
    split at built
    · contradiction
    next out made => exact chosen out (shape_mask _ _ _ out made) (Except.ok.inj built)

theorem shape_reduced (t : SNLTruthTable) (idxConsts : ConstantInputs) (r : SNLTruthTable) (table : Shape t)
    (built : getReducedWithConstants t idxConsts = .ok r) : Shape r := by
  have zero (same : Except.ok (ε := String) Logic0 = .ok r) : Shape r := Except.ok.inj same ▸ shape_constant false
  have one (same : Except.ok (ε := String) Logic1 = .ok r) : Shape r := Except.ok.inj same ▸ shape_constant true
  unfold getReducedWithConstants at built
  split at built
  · contradiction
  split at built
  · exact Except.ok.inj built ▸ table
  split at built
  · exact Except.ok.inj built ▸ table
  split at built
  · contradiction
  cases type : t.genericType with
  | VECTOR_SELECT | TABLE_SELECT | DIVMOD | ROM => simp [type] at built
  | NONE | ADD_SUB | MULTIPLY | SHIFT =>
      simp only [type] at built
      exact shape_reduceRows t idxConsts _ r built
  | XOR | XNOR =>
      simp only [type] at built
      exact shape_smallerGate _ _ _ r built
  | OR =>
      simp only [type] at built
      split at built
      · exact one built
      · exact shape_smallerGate _ _ _ r built
  | NOR =>
      simp only [type] at built
      split at built
      · exact zero built
      · exact shape_smallerGate _ _ _ r built
  | AND =>
      simp only [type] at built
      split at built
      · exact zero built
      · split at built
        · exact one built
        · exact shape_smallerGate _ _ _ r built
  | NAND =>
      simp only [type] at built
      split at built
      · exact one built
      · split at built
        · exact zero built
        · exact shape_smallerGate _ _ _ r built
  | VECTOR_UPDATE =>
      simp only [type, bind, Except.bind, pure, Except.pure] at built
      split at built
      · contradiction
      · split at built
        · contradiction
        · exact Except.ok.inj built ▸ shape_constant _

theorem Constructed.shape (t : SNLTruthTable) (constructed : Constructed t) : Shape t := by
  induction constructed with
  | default => exact Or.inl rfl
  | mask size bits dependencies t built => exact shape_mask size bits dependencies t built
  | vector size bits dependencies t filled built => exact shape_vector size bits dependencies t filled built
  | generic size type dependencies addressSize depth t built =>
      exact shape_generic size type dependencies addressSize depth t built
  | divMod width isSigned result outputBit dependencies t built =>
      exact shape_divMod width isSigned result outputBit dependencies t built
  | word type word dependencies t built => exact shape_word type word dependencies t built
  | rom rom dependencies t built => exact shape_rom rom dependencies t built
  | vectorUpdate metadata dependencies t built => exact shape_vectorUpdate metadata dependencies t built
  | vectorSelect metadata dependencies t built => exact shape_vectorSelect metadata dependencies t built
  | reduced t idxConsts r _ built ih => exact shape_reduced t idxConsts r ih built

/-! ### Order and equality -/

/-- Strictly and totally ordered, with `==` as the equality. -/
structure StrictTotalOn (s : Set SNLTruthTable) : Prop where
  irrefl : ∀ t ∈ s, ∀ u ∈ s, (t == u) = true → less t u = false
  trans : ∀ t ∈ s, ∀ u ∈ s, ∀ v ∈ s, less t u = true → less u v = true → less t v = true
  total : ∀ t ∈ s, ∀ u ∈ s, (t == u) = true ∨ less t u = true ∨ less u t = true

/-- Tables over rows, of one size and with the same dependencies, are equal when their values are. -/
def EqualByRows (s : Set SNLTruthTable) : Prop :=
  ∀ t ∈ s, ∀ u ∈ s, Explicit t → Explicit u → t.size = u.size → t.dependencies = u.dependencies →
    ((t == u) = true ↔ ∀ inputs : List Bool, inputs.length = t.size → evaluate t inputs = evaluate u inputs)

/-- One table without rows, and one that is the same but for its rows, all stored as zeros, and
its dependencies. -/
structure Blank (t u : SNLTruthTable) : Prop where
  noRows : t.bits.nbits = 0
  rows : u.bits.nbits ≠ 0
  zeros : storedNumber u.bits = 0
  else_same : { t with bits := u.bits, dependencies := u.dependencies } = u

/-- Two tables with the same rows that differ in what is stored past them. -/
structure Stray (t u : SNLTruthTable) : Prop where
  left : Explicit t
  right : Explicit u
  size : t.size = u.size
  sameRows : SameRows t u
  past : t.bits ≠ u.bits
  dependencies : t.size ≤ 6 → t.dependencies = u.dependencies

/-- The order by header, stored rows and dependencies, for tables of the right shape. -/
theorem Shape.less_iff (t o : SNLTruthTable) (left : Shape t) (right : Shape o) :
    less t o = true ↔ t.header < o.header ∨ t.header = o.header ∧
      (storedNumber t.bits < storedNumber o.bits ∨
        t.bits = o.bits ∧ dependencyKey t.dependencies < dependencyKey o.dependencies) := by
  rw [SNLTruthTable.less_iff]
  apply or_congr Iff.rfl
  apply and_congr_right
  intro same
  have size : t.size = o.size := congrArg (fun h : Header => (ofLex h).1) same
  have keptLeft : t.bits = .empty ∨ HasRows t.size t.bits := left.imp id RowTable.kept
  have keptRight : o.bits = .empty ∨ HasRows t.size o.bits := size ▸ right.imp id RowTable.kept
  have rows := bits_less_iff t.size t.bits o.bits keptLeft keptRight
  unfold lessTail
  by_cases equal : t.bits = o.bits
  · simp [equal]
  · simp [equal, rows]

theorem less_irrefl (t : SNLTruthTable) (shape : Shape t) : less t t = false := by
  rw [Bool.eq_false_iff]
  intro below
  rcases (Shape.less_iff t t shape shape).mp below with lower | ⟨-, lower | ⟨-, lower⟩⟩
  · exact lt_irrefl _ lower
  · exact lt_irrefl _ lower
  · exact lt_irrefl _ lower

theorem less_trans (t u v : SNLTruthTable) (first : Shape t) (second : Shape u) (third : Shape v)
    (below : less t u = true) (below' : less u v = true) : less t v = true := by
  rw [Shape.less_iff t v first third]
  rcases (Shape.less_iff t u first second).mp below with lower | ⟨same, rest⟩
  · rcases (Shape.less_iff u v second third).mp below' with lower' | ⟨same', -⟩
    · exact Or.inl (lt_trans lower lower')
    · exact Or.inl (same' ▸ lower)
  · rcases (Shape.less_iff u v second third).mp below' with lower' | ⟨same', rest'⟩
    · exact Or.inl (same ▸ lower')
    · refine Or.inr ⟨same.trans same', ?_⟩
      rcases rest with number | ⟨bits, words⟩
      · rcases rest' with number' | ⟨bits', -⟩
        · exact Or.inl (lt_trans number number')
        · exact Or.inl (bits' ▸ number)
      · rcases rest' with number' | ⟨bits', words'⟩
        · exact Or.inl (bits ▸ number')
        · exact Or.inr ⟨bits.trans bits', lt_trans words words'⟩

/-- Two tables that neither are equal nor ordered: only what is stored of the rows differs. -/
theorem incomparable_iff (t u : SNLTruthTable) (left : Shape t) (right : Shape u) :
    ¬ ((t == u) = true ∨ less t u = true ∨ less u t = true) ↔
      t.header = u.header ∧ storedNumber t.bits = storedNumber u.bits ∧ t.bits ≠ u.bits := by
  rw [beq_iff_eq, Shape.less_iff t u left right, Shape.less_iff u t right left]
  constructor
  · intro neither
    have header : t.header = u.header := by
      rcases lt_trichotomy t.header u.header with below | same | above
      · exact absurd (Or.inr (Or.inl (Or.inl below))) neither
      · exact same
      · exact absurd (Or.inr (Or.inr (Or.inl above))) neither
    have number : storedNumber t.bits = storedNumber u.bits := by
      rcases lt_trichotomy (storedNumber t.bits) (storedNumber u.bits) with below | same | above
      · exact absurd (Or.inr (Or.inl (Or.inr ⟨header, Or.inl below⟩))) neither
      · exact same
      · exact absurd (Or.inr (Or.inr (Or.inr ⟨header.symm, Or.inl above⟩))) neither
    refine ⟨header, number, fun bits => ?_⟩
    rcases lt_trichotomy (dependencyKey t.dependencies) (dependencyKey u.dependencies) with below | same | above
    · exact neither (Or.inr (Or.inl (Or.inr ⟨header, Or.inr ⟨bits, below⟩⟩)))
    · exact neither (Or.inl (eq_of_header t u header bits (dependencyKey_injective same)))
    · exact neither (Or.inr (Or.inr (Or.inr ⟨header.symm, Or.inr ⟨bits.symm, above⟩⟩)))
  · rintro ⟨header, number, bits⟩ (same | below | above)
    · exact bits (congrArg SNLTruthTable.bits same)
    · rcases below with lower | ⟨-, lower | ⟨same, -⟩⟩
      · exact lower.ne header
      · exact lower.ne number
      · exact bits same
    · rcases above with lower | ⟨-, lower | ⟨same, -⟩⟩
      · exact lower.ne header.symm
      · exact lower.ne number.symm
      · exact bits same.symm

/-- The row that a list of inputs selects can be any. -/
theorem exists_inputs (size row : Nat) (inside : row < 2 ^ size) :
    ∃ inputs : List Bool, inputs.length = size ∧ rowIndex inputs = row := by
  refine ⟨(List.range size).map row.testBit, by simp, ?_⟩
  apply Nat.eq_of_testBit_eq
  intro i
  rw [testBit_rowIndex]
  by_cases bit : i < size
  · simp [bit]
  · have above : row < 2 ^ i := lt_of_lt_of_le inside (Nat.pow_le_pow_right (by decide) (by omega))
    simp [bit, Nat.testBit_lt_two_pow above]

theorem sameValues_iff (t u : SNLTruthTable) (left : Explicit t) (right : Explicit u) :
    (∀ inputs : List Bool, inputs.length = t.size → evaluate t inputs = evaluate u inputs) ↔ SameRows t u := by
  have value (v : SNLTruthTable) (explicit : Explicit v) (inputs : List Bool) :
      evaluate v inputs = some (v.bits.bit (rowIndex inputs)) := by
    rw [evaluate, explicit.type]
  constructor
  · intro same row inside
    obtain ⟨inputs, length, rfl⟩ := exists_inputs t.size row inside
    have equal := same inputs length
    rw [value t left, value u right] at equal
    exact Option.some.inj equal
  · intro same inputs length
    rw [value t left, value u right, same _ (length ▸ rowIndex_lt inputs)]

theorem rowTable_of_explicit (t : SNLTruthTable) (explicit : Explicit t) (shape : Shape t) : RowTable t := by
  rcases shape with empty | rows
  · have none := explicit.rows
    have positive : 0 < 2 ^ t.size := Nat.two_pow_pos t.size
    rw [empty] at none
    change 0 = 2 ^ t.size at none
    omega
  · exact rows

theorem RowTable.explicit (t : SNLTruthTable) (table : RowTable t) : Explicit t :=
  ⟨table.kept.rows, congrArg SNLTruthTable.genericType table.plain⟩

theorem RowTable.header (t u : SNLTruthTable) (left : RowTable t) (right : RowTable u) (size : t.size = u.size) :
    t.header = u.header := by
  rw [left.plain, right.plain, size]
  rfl

/-- The tables that are neither equal nor ordered: blank ones, and long ones with strays. -/
theorem incomparable_cases (t u : SNLTruthTable) (left : Shape t) (right : Shape u)
    (neither : ¬ ((t == u) = true ∨ less t u = true ∨ less u t = true)) : Blank t u ∨ Blank u t ∨ Stray t u := by
  obtain ⟨header, number, bits⟩ := (incomparable_iff t u left right).mp neither
  have size : t.size = u.size := congrArg (fun h : Header => (ofLex h).1) header
  have positive (n : Nat) : 2 ^ n ≠ 0 := (Nat.two_pow_pos n).ne'
  rcases left with empty | rows
  · rcases right with empty' | rows'
    · exact absurd (empty.trans empty'.symm) bits
    · refine Or.inl ⟨by rw [empty]; rfl, by rw [rows'.kept.rows]; exact positive _, ?_, ?_⟩
      · rw [← number, empty]
        rfl
      · exact eq_of_header _ u header rfl rfl
  · rcases right with empty' | rows'
    · refine Or.inr (Or.inl ⟨by rw [empty']; rfl, by rw [rows.kept.rows]; exact positive _, ?_, ?_⟩)
      · rw [number, empty']
        rfl
      · exact eq_of_header _ t header.symm rfl rfl
    · have kept : HasRows t.size u.bits := size ▸ rows'.kept
      rcases Nat.lt_or_ge 6 t.size with large | small
      · have sameRows := (storedNumber_eq_of_large t.size _ _ rows.kept kept large).mp number
        exact Or.inr (Or.inr ⟨rows.explicit, rows'.explicit, size, sameRows, bits, by omega⟩)
      · exact absurd ((storedNumber_eq_of_small t.size _ _ rows.kept kept small).mp number) bits

theorem Blank.incomparable (t u : SNLTruthTable) (left : Shape t) (right : Shape u) (blank : Blank t u) :
    ¬ ((t == u) = true ∨ less t u = true ∨ less u t = true) := by
  rw [incomparable_iff t u left right]
  have empty : t.bits = .empty := by
    rcases left with empty | rows
    · exact empty
    · have none := blank.noRows
      rw [rows.kept.rows] at none
      exact absurd none (Nat.two_pow_pos _).ne'
  refine ⟨?_, ?_, ?_⟩
  · rw [← blank.else_same]
    rfl
  · rw [blank.zeros, empty]
    rfl
  · intro same
    exact blank.rows (same ▸ blank.noRows)

/-- Sets of tables that are strictly and totally ordered, and where equality is that of the values:
those without a table that has no rows beside one of zero rows, and without strays. -/
theorem order_iff (s : Set SNLTruthTable) (constructed : ∀ t ∈ s, Constructed t) :
    (StrictTotalOn s ∧ EqualByRows s) ↔ ∀ t ∈ s, ∀ u ∈ s, ¬ Blank t u ∧ ¬ Stray t u := by
  have shape (t : SNLTruthTable) (member : t ∈ s) : Shape t := (constructed t member).shape
  constructor
  · rintro ⟨order, equal⟩ t here u there
    constructor
    · intro blank
      exact blank.incomparable t u (shape t here) (shape u there) (order.total t here u there)
    · intro stray
      have rows := rowTable_of_explicit t stray.left (shape t here)
      have rows' := rowTable_of_explicit u stray.right (shape u there)
      rcases Nat.lt_or_ge 6 t.size with large | small
      · have number := (storedNumber_eq_of_large t.size _ _ rows.kept (stray.size ▸ rows'.kept) large).mpr stray.sameRows
        exact (incomparable_iff t u (shape t here) (shape u there)).mpr
          ⟨rows.header t u rows' stray.size, number, stray.past⟩ (order.total t here u there)
      · have values := (sameValues_iff t u stray.left stray.right).mpr stray.sameRows
        have same := (equal t here u there stray.left stray.right stray.size (stray.dependencies small)).mpr values
        exact stray.past (congrArg SNLTruthTable.bits (beq_iff_eq.mp same))
  · intro clean
    refine ⟨⟨?_, ?_, ?_⟩, ?_⟩
    · intro t here u _ same
      rw [← beq_iff_eq.mp same]
      exact less_irrefl t (shape t here)
    · intro t here u there v last
      exact less_trans t u v (shape t here) (shape u there) (shape v last)
    · intro t here u there
      by_contra neither
      rcases incomparable_cases t u (shape t here) (shape u there) neither with blank | blank | stray
      · exact (clean t here u there).1 blank
      · exact (clean u there t here).1 blank
      · exact (clean t here u there).2 stray
    · intro t here u there left right size dependencies
      rw [sameValues_iff t u left right, beq_iff_eq]
      constructor
      · rintro rfl row _
        rfl
      · intro sameRows
        have rows := rowTable_of_explicit t left (shape t here)
        have rows' := rowTable_of_explicit u right (shape u there)
        by_contra differ
        refine (clean t here u there).2 ⟨left, right, size, sameRows, fun bits => differ ?_, fun _ => dependencies⟩
        exact eq_of_header t u (rows.header t u rows' size) bits dependencies

theorem constructed_inv : Constructed Inv := .mask 1 0b01 (fullDependencies 1) Inv rfl

theorem constructed_buf : Constructed Buf := .mask 1 0b10 (fullDependencies 1) Buf rfl

/-- The inverter and the buffer. -/
theorem order_wires : StrictTotalOn {Inv, Buf} ∧ EqualByRows {Inv, Buf} := by
  refine (order_iff {Inv, Buf} ?_).mpr ?_
  · rintro t (rfl | rfl)
    · exact constructed_inv
    · exact constructed_buf
  · rintro t (rfl | rfl) u (rfl | rfl)
    · exact ⟨fun blank => absurd blank.noRows (by decide), fun stray => stray.past rfl⟩
    · exact ⟨fun blank => absurd blank.noRows (by decide), fun stray => absurd (stray.sameRows 0 (by decide)) (by decide)⟩
    · exact ⟨fun blank => absurd blank.noRows (by decide), fun stray => absurd (stray.sameRows 0 (by decide)) (by decide)⟩
    · exact ⟨fun blank => absurd blank.noRows (by decide), fun stray => stray.past rfl⟩

/-- The mask of a buffer with a bit set above its two rows. -/
def strayBuf : SNLTruthTable := { Buf with bits := ⟨2, .mask 0b110, by decide⟩ }

/-- The table without rows is neither below, above nor equal to the constant 0, and one buffer is
not equal to the other. -/
theorem order_violated :
    ¬ StrictTotalOn {{}, Logic0} ∧
      ofMask 1 0b110 (fullDependencies 1) = .ok strayBuf ∧ ¬ EqualByRows {Buf, strayBuf} := by
  refine ⟨?_, rfl, ?_⟩
  · intro order
    have ordered := order.total {} (Set.mem_insert _ _) Logic0 (Set.mem_insert_of_mem _ rfl)
    exact absurd ordered (by decide)
  · intro equal
    have same := equal Buf (Set.mem_insert _ _) strayBuf (Set.mem_insert_of_mem _ rfl) ⟨rfl, rfl⟩ ⟨rfl, rfl⟩ rfl rfl
    have values : SameRows Buf strayBuf := by
      intro row inside
      change row < 2 at inside
      obtain rfl | rfl : row = 0 ∨ row = 1 := by omega
      · rfl
      · rfl
    exact absurd (same.mpr ((sameValues_iff Buf strayBuf ⟨rfl, rfl⟩ ⟨rfl, rfl⟩).mpr values)) (by decide)

end SNLTruthTable

end Naja.TruthTable
