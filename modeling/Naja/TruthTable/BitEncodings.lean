import Mathlib.Data.Finset.Sort
import Naja.TruthTable.Cofactor

/-! The two encodings under every truth table: bit positions in blocks of 64 bits, and the bits of
the rows in one word or in a vector. Both are compared with plain sets and lists. -/

namespace Naja.TruthTable

/-! ### Positions in blocks -/

namespace NLBitDependencies
open BitDependencies

/-- `(DesignObjectID) blockIdx * 64`, a product of 32 bits. -/
def blockStart (blockIdx : Nat) : Nat := blockIdx % 2 ^ 32 * 64 % 2 ^ 32

def decodeFrom (blockIdx : Nat) : List Word → List Nat
  | [] => []
  | block :: rest => (decodeBlock 0 64 block).map (blockStart blockIdx + ·) ++ decodeFrom (blockIdx + 1) rest

/-- The decoder with the width of its product; `BitDependencies.decodeBits` is the same up to `2 ^ 26` blocks. -/
def decodeBits (blocks : List Word) : List Nat := decodeFrom 0 blocks

theorem blockStart_add (blockIdx bit : Nat) (inside : bit < 64) :
    blockStart blockIdx + bit = (blockIdx * 64 + bit) % 2 ^ 32 := by
  unfold blockStart
  omega

theorem decodeBlock_shift (blockIdx fuel : Nat) (x : Word) :
    decodeBlock blockIdx fuel x = (decodeBlock 0 fuel x).map (blockIdx * 64 + ·) := by
  induction fuel generalizing x with
  | zero => rfl
  | succ fuel ih =>
      rw [decodeBlock, decodeBlock]
      split
      · rfl
      · simp [ih]

theorem decodeFrom_eq (blockIdx : Nat) (blocks : List Word) :
    decodeFrom blockIdx blocks = (BitDependencies.decodeFrom blockIdx blocks).map (· % 2 ^ 32) := by
  induction blocks generalizing blockIdx with
  | nil => rfl
  | cons block rest ih =>
      rw [decodeFrom, BitDependencies.decodeFrom, List.map_append, ih, decodeBlock_shift blockIdx, List.map_map]
      congr 1
      apply List.map_congr_left
      intro bit member
      obtain ⟨i, set, rfl⟩ := (mem_decodeBlock 0 64 block bit (by omega)).mp member
      have inside : i < 64 := BitVec.lt_of_getLsbD set
      exact blockStart_add blockIdx (0 * 64 + i) (by omega)

/-- Decoding gives the positions by their low 32 bits. -/
theorem decodeBits_eq (blocks : List Word) :
    decodeBits blocks = (BitDependencies.decodeBits blocks).map (· % 2 ^ 32) :=
  decodeFrom_eq 0 blocks

/-- The sorted list of the positions, without repetitions. -/
def sortedPositions (positions : List Nat) : List Nat := positions.toFinset.sort (· ≤ ·)

theorem mem_sortedPositions (positions : List Nat) (position : Nat) :
    position ∈ sortedPositions positions ↔ position ∈ positions := by
  simp [sortedPositions]

theorem decode_encode (positions : List Nat) :
    BitDependencies.decodeBits (encodeBits positions) = sortedPositions positions :=
  decodeBits_encodeBits_eq positions _ (Finset.sortedLT_sort _).pairwise (mem_sortedPositions positions)

theorem decodeBits_encodeBits (positions : List Nat) :
    decodeBits (encodeBits positions) = (sortedPositions positions).map (· % 2 ^ 32) := by
  rw [decodeBits_eq, decode_encode]

theorem round_trip_iff (positions : List Nat) :
    decodeBits (encodeBits positions) = sortedPositions positions ↔ ∀ position ∈ positions, position < 2 ^ 32 := by
  have fixed : (sortedPositions positions).map (· % 2 ^ 32) = (sortedPositions positions).map id ↔
      ∀ position ∈ sortedPositions positions, position % 2 ^ 32 = id position := List.map_inj_left
  rw [decodeBits_encodeBits, ← List.map_id (sortedPositions positions), List.map_map]
  change (sortedPositions positions).map (· % 2 ^ 32) = _ ↔ _
  rw [fixed]
  constructor
  · intro same position member
    have kept := same position ((mem_sortedPositions _ _).mpr member)
    simp only [id] at kept
    omega
  · intro narrow position member
    exact Nat.mod_eq_of_lt (narrow position ((mem_sortedPositions _ _).mp member))

theorem countBits_encodeBits (positions : List Nat) :
    countBitsForVector (encodeBits positions) = (sortedPositions positions).length := by
  rw [← StorageRoundTrip.length_decodeBits, decode_encode]

/-! ### Holes -/

theorem noHoles_iff (foundZero : Bool) (bits : List Bool) :
    noHoles foundZero bits = true ↔
      bits.Pairwise (fun earlier later => later = true → earlier = true) ∧ (foundZero = true → ∀ b ∈ bits, b = false) := by
  induction bits generalizing foundZero with
  | nil => simp [noHoles]
  | cons bit rest ih =>
      cases bit with
      | false =>
          rw [noHoles, if_neg Bool.false_ne_true, ih]
          simp
          tauto
      | true =>
          rw [noHoles, if_pos rfl, Bool.and_eq_true, ih]
          cases foundZero <;> simp

/-- No holes: with a position all the lower ones. -/
theorem isSimple_iff (blocks : List Word) :
    isSimple blocks = true ↔ ∀ i j, i < j → testBlocks blocks j = true → testBlocks blocks i = true := by
  have inside (j : Nat) (set : testBlocks blocks j = true) : j < 64 * blocks.length := by
    by_contra beyond
    have outside : blocks.length ≤ j / 64 := by omega
    simp [testBlocks, List.getD_eq_getElem?_getD, List.getElem?_eq_none outside] at set
  rw [isSimple, flatMap_blocks, noHoles_iff, List.pairwise_map, List.pairwise_iff_getElem]
  simp only [List.length_range, List.getElem_range, Bool.false_eq_true, false_implies, and_true]
  constructor
  · intro closed i j below set
    have bound := inside j set
    exact closed i j (by omega) bound below set
  · intro closed i j _ _ below set
    exact closed i j below set

/-- A finite set of numbers that is closed downwards holds the first ones. -/
theorem eq_range_iff (s : Finset Nat) : (∃ n, s = Finset.range n) ↔ ∀ i j, i < j → j ∈ s → i ∈ s := by
  constructor
  · rintro ⟨n, rfl⟩ i j below member
    simp only [Finset.mem_range] at member ⊢
    omega
  · intro closed
    have missing := Infinite.exists_notMem_finset s
    refine ⟨Nat.find missing, Finset.ext fun i => ?_⟩
    rw [Finset.mem_range, Nat.lt_find_iff]
    constructor
    · intro member j notAbove
      rw [not_not]
      rcases Nat.lt_or_eq_of_le notAbove with below | rfl
      · exact closed j i below member
      · exact member
    · intro below
      exact not_not.mp (below i (Nat.le_refl i))

theorem isSimple_encodeBits (positions : List Nat) :
    isSimple (encodeBits positions) = true ↔ ∃ n, positions.toFinset = Finset.range n := by
  rw [isSimple_iff, eq_range_iff]
  simp [testBlocks_encodeBits]

end NLBitDependencies
/-! ### Bits of rows -/

/-- The first difference from the top decides. -/
def lessFrom (f g : Nat → Bool) : Nat → Bool
  | 0 => false
  | pos + 1 => if f pos ≠ g pos then !f pos && g pos else lessFrom f g pos

theorem mod_two_pow_succ (x n : Nat) : x % 2 ^ (n + 1) = x % 2 ^ n + if x.testBit n then 2 ^ n else 0 := by
  rw [Nat.mod_pow_succ, Nat.testBit_eq_decide_div_mod_eq]
  rcases Nat.mod_two_eq_zero_or_one (x / 2 ^ n) with even | odd
  · simp [even]
  · simp [odd]

theorem lessFrom_iff (a b n : Nat) : lessFrom a.testBit b.testBit n = true ↔ a % 2 ^ n < b % 2 ^ n := by
  induction n with
  | zero => simp [lessFrom, Nat.mod_one]
  | succ n ih =>
      have low := Nat.mod_lt a (Nat.two_pow_pos n)
      have low' := Nat.mod_lt b (Nat.two_pow_pos n)
      rw [lessFrom, mod_two_pow_succ, mod_two_pow_succ]
      cases top : a.testBit n <;> cases top' : b.testBit n <;> simp [ih] <;> omega

namespace NLBitVecDynamic
open BitDependencies (Word testBlocks)
open Naja.Primitives.PinRoles (rowIndex)

def shiftRight (v : NLBitVecDynamic) (pos : Nat) : Bool :=
  if v.nbits ≤ pos then false
  else match v.data with
    | .mask value => value.getLsbD pos
    | .vector bits => bits.getD pos false

/-- `|=` on the stored bits; of a vector only the first 64 entries are reached. -/
def orData (nbits : Nat) (mask : Word) : BitData → BitData
  | .mask value => .mask (value ||| mask)
  | .vector bits =>
      .vector ((List.range (min nbits 64)).foldl (fun vec i => if mask.getLsbD i then vec.set i true else vec) bits)

/-- `&` on the stored bits; the entries of a vector past the mask are cleared. -/
def andData (nbits : Nat) (mask : Word) : BitData → BitData
  | .mask value => .mask (value &&& mask)
  | .vector bits =>
      .vector ((List.range (min nbits 64)).foldl (fun out i => out.set i (bits.getD i false && mask.getLsbD i))
        (List.replicate nbits false))

def orMask (v : NLBitVecDynamic) (mask : Word) : NLBitVecDynamic :=
  ⟨v.nbits, orData v.nbits mask v.data, by rw [← v.kind]; cases v.data <;> rfl⟩

def andMask (v : NLBitVecDynamic) (mask : Word) : NLBitVecDynamic :=
  ⟨v.nbits, andData v.nbits mask v.data, by rw [← v.kind]; cases v.data <;> rfl⟩

/-- Two words are compared whole, whatever their lengths. -/
def less (v w : NLBitVecDynamic) : Bool :=
  match v.data, w.data with
  | .mask a, .mask b => decide (a < b)
  | _, _ =>
      lessFrom (fun pos => if pos < v.nbits then v.shiftRight pos else false)
        (fun pos => if pos < w.nbits then w.shiftRight pos else false) (max v.nbits w.nbits)

/-! ### The bits a vector stands for -/

def listOf (nbits : Nat) : BitData → List Bool
  | .mask value => (List.range nbits).map value.getLsbD
  | .vector bits => bits

def bitList (v : NLBitVecDynamic) : List Bool := listOf v.nbits v.data

/-- The vector of a bit string, least significant bit first. -/
def ofBits (bits : List Bool) : NLBitVecDynamic :=
  if short : bits.length ≤ 64 then ⟨bits.length, .mask (BitVec.ofNat 64 (rowIndex bits)), by simp [BitData.isMask, short]⟩
  else ⟨bits.length, .vector bits, by simp [BitData.isMask, short]⟩

/-- No bit of the word is set at or above the length. -/
def Normal (v : NLBitVecDynamic) : Prop :=
  ∀ value, v.data = .mask value → ∀ i, v.nbits ≤ i → value.getLsbD i = false

def orBits (mask : Word) (bits : List Bool) : List Bool := bits.mapIdx (fun i b => b || mask.getLsbD i)

def andBits (mask : Word) (bits : List Bool) : List Bool := bits.mapIdx (fun i b => b && mask.getLsbD i)

/-- A vector behaves as the bit string it holds, also next to the vector of any bit string. -/
structure Agrees (v : NLBitVecDynamic) : Prop where
  chunks : (List.range v.nbits).map (testBlocks v.getChunks) = v.bitList
  shift : ∀ pos, v.shiftRight pos = v.bitList.getD pos false
  equal : ∀ bits, (v == ofBits bits) = true ↔ v.bitList = bits
  below : ∀ bits, v.less (ofBits bits) = true ↔ rowIndex v.bitList < rowIndex bits
  above : ∀ bits, (ofBits bits).less v = true ↔ rowIndex bits < rowIndex v.bitList

theorem getLsbD_ofNat_rowIndex (bits : List Bool) (short : bits.length ≤ 64) :
    (BitVec.ofNat 64 (rowIndex bits)).getLsbD = fun i => bits.getD i false := by
  funext i
  rw [BitVec.getLsbD_ofNat, testBit_rowIndex]
  by_cases inside : i < 64
  · simp [inside]
  · have outside : bits.length ≤ i := by omega
    simp [List.getD_eq_getElem?_getD, List.getElem?_eq_none outside]

theorem map_getD (bits : List Bool) : (List.range bits.length).map (fun i => bits.getD i false) = bits := by
  apply List.ext_getElem
  · simp
  · intro i _ inside
    simp [List.getD_eq_getElem?_getD, inside]

@[simp] theorem nbits_ofBits (bits : List Bool) : (ofBits bits).nbits = bits.length := by
  unfold ofBits
  split <;> rfl

theorem ofBits_short (bits : List Bool) (short : bits.length ≤ 64) :
    (ofBits bits).data = .mask (BitVec.ofNat 64 (rowIndex bits)) := by
  simp [ofBits, short]

theorem ofBits_long (bits : List Bool) (long : ¬ bits.length ≤ 64) : (ofBits bits).data = .vector bits := by
  simp [ofBits, long]

@[simp] theorem bitList_ofBits (bits : List Bool) : (ofBits bits).bitList = bits := by
  unfold bitList
  by_cases short : bits.length ≤ 64
  · simp only [ofBits_short bits short, nbits_ofBits, listOf, getLsbD_ofNat_rowIndex bits short, map_getD]
  · simp only [ofBits_long bits short, listOf]

theorem ofBits_injective : Function.Injective ofBits := fun a b same => by
  rw [← bitList_ofBits a, same, bitList_ofBits]

end NLBitVecDynamic

/-- A bit vector with an entry for every bit. -/
structure FilledVector extends NLBitVecDynamic where
  filled : ∀ bits, data = .vector bits → bits.length = nbits

namespace NLBitVecDynamic
open BitDependencies (Word testBlocks)
open Naja.Primitives.PinRoles (rowIndex)

variable (v : FilledVector)

theorem length_bitList : v.bitList.length = v.nbits := by
  obtain ⟨⟨nbits, data, kind⟩, filled⟩ := v
  cases data with
  | mask value => simp [bitList, listOf]
  | vector bits => exact filled bits rfl

theorem shiftRight_eq (pos : Nat) : v.shiftRight pos = v.bitList.getD pos false := by
  have length := length_bitList v
  unfold shiftRight
  split
  · next beyond => simp [List.getD_eq_getElem?_getD, List.getElem?_eq_none (length ▸ beyond)]
  · next inside =>
      have position : pos < v.nbits := by omega
      unfold bitList listOf
      split <;> simp [position]

/-- The vectors without bits past their length are those of bit strings. -/
theorem normal_iff : v.Normal ↔ v.toNLBitVecDynamic = ofBits v.bitList := by
  have length := length_bitList v
  constructor
  · intro normal
    obtain ⟨⟨nbits, data, kind⟩, filled⟩ := v
    cases data with
    | mask value =>
        have short : nbits ≤ 64 := by simpa [BitData.isMask] using kind
        have same : value = BitVec.ofNat 64 (rowIndex ((List.range nbits).map value.getLsbD)) := by
          apply BitVec.eq_of_getLsbD_eq
          intro i _
          rw [getLsbD_ofNat_rowIndex _ (by simpa using short)]
          by_cases inside : i < nbits
          · simp [inside]
          · have clear := normal value rfl i (by simpa using inside)
            simp [inside, clear]
        have string : ofBits ((List.range nbits).map value.getLsbD) = ⟨nbits, .mask value, kind⟩ := by
          have half : ((List.range nbits).map value.getLsbD).length ≤ 64 := by simpa using short
          rw [ofBits, dif_pos half]
          simp only [List.length_map, List.length_range, ← same]
        exact string.symm
    | vector bits =>
        have size : bits.length = nbits := filled bits rfl
        have long : ¬ bits.length ≤ 64 := by simpa [BitData.isMask, size] using kind
        subst size
        change _ = ofBits bits
        rw [ofBits, dif_neg long]
  · intro same value word i beyond
    have short : v.bitList.length ≤ 64 := by
      by_contra long
      rw [same, ofBits_long _ long] at word
      cases word
    rw [same, ofBits_short _ short] at word
    cases word
    have outside : v.bitList.length ≤ i := by omega
    simp [getLsbD_ofNat_rowIndex _ short, List.getD_eq_getElem?_getD, List.getElem?_eq_none outside]

theorem chunks_eq : (List.range v.nbits).map (testBlocks v.getChunks) = v.bitList := by
  obtain ⟨⟨nbits, data, kind⟩, filled⟩ := v
  cases data with
  | mask value =>
      have short : nbits ≤ 64 := by simpa [BitData.isMask] using kind
      apply List.map_congr_left
      intro i member
      have inside : i < 64 := lt_of_lt_of_le (List.mem_range.mp member) short
      simp [getChunks, testBlocks, Nat.div_eq_of_lt inside, Nat.mod_eq_of_lt inside]
  | vector bits =>
      have length : bits.length = nbits := filled bits rfl
      subst length
      exact StorageRoundTrip.map_testBlocks_packBits bits

theorem testBit_bitList :
    (rowIndex v.bitList).testBit = fun pos => if pos < v.nbits then v.shiftRight pos else false := by
  funext pos
  rw [testBit_rowIndex, ← shiftRight_eq]
  by_cases inside : pos < v.nbits
  · simp [inside]
  · have beyond : v.nbits ≤ pos := by omega
    simp [shiftRight, beyond]

/-- The vector of a bit string has all its entries. -/
def filledOfBits (bits : List Bool) : FilledVector :=
  { ofBits bits with
    filled := by
      intro stored same
      by_cases short : bits.length ≤ 64
      · rw [ofBits_short bits short] at same
        nomatch same
      · rw [ofBits_long bits short] at same
        cases same
        rw [nbits_ofBits] }

theorem less_ofBits (a b : List Bool) : (ofBits a).less (ofBits b) = true ↔ rowIndex a < rowIndex b := by
  have low := rowIndex_lt a
  have low' := rowIndex_lt b
  have bits (c : List Bool) : (fun pos => if pos < (ofBits c).nbits then (ofBits c).shiftRight pos else false) =
      (rowIndex c).testBit := by
    have stored := testBit_bitList (filledOfBits c)
    rw [show (filledOfBits c).bitList = c from bitList_ofBits c] at stored
    exact stored.symm
  have scanned : lessFrom (rowIndex a).testBit (rowIndex b).testBit (max a.length b.length) = true ↔
      rowIndex a < rowIndex b := by
    have wide : rowIndex a < 2 ^ max a.length b.length :=
      lt_of_lt_of_le low (Nat.pow_le_pow_right (by decide) (le_max_left _ _))
    have wide' : rowIndex b < 2 ^ max a.length b.length :=
      lt_of_lt_of_le low' (Nat.pow_le_pow_right (by decide) (le_max_right _ _))
    rw [lessFrom_iff, Nat.mod_eq_of_lt wide, Nat.mod_eq_of_lt wide']
  unfold less
  rw [bits a, bits b, nbits_ofBits, nbits_ofBits]
  by_cases short : a.length ≤ 64
  · by_cases short' : b.length ≤ 64
    · have fits : rowIndex a < 2 ^ 64 := lt_of_lt_of_le low (Nat.pow_le_pow_right (by decide) short)
      have fits' : rowIndex b < 2 ^ 64 := lt_of_lt_of_le low' (Nat.pow_le_pow_right (by decide) short')
      rw [ofBits_short a short, ofBits_short b short']
      simp only [decide_eq_true_eq, BitVec.lt_def, BitVec.toNat_ofNat, Nat.mod_eq_of_lt fits, Nat.mod_eq_of_lt fits']
    · rw [ofBits_short a short, ofBits_long b short']
      exact scanned
  · rw [ofBits_long a short]
    exact scanned

/-- A vector behaves as its bit string exactly when nothing is stored past its length. -/
theorem agrees_iff : v.Agrees ↔ v.Normal := by
  constructor
  · intro agrees
    exact (normal_iff v).mpr (beq_iff_eq.mp ((agrees.equal v.bitList).mpr rfl))
  · intro normal
    have string := (normal_iff v).mp normal
    refine ⟨chunks_eq v, shiftRight_eq v, fun bits => ?_, fun bits => ?_, fun bits => ?_⟩
    · rw [string, beq_iff_eq, bitList_ofBits]
      exact ofBits_injective.eq_iff
    · rw [string, less_ofBits, bitList_ofBits]
    · rw [string, less_ofBits, bitList_ofBits]

/-! ### Masks -/

/-- A loop over the first entries that replaces each of them. -/
theorem getElem?_foldl_write (f : List Bool → Nat → List Bool) (g : Nat → Bool → Bool) (count : Nat) (vec : List Bool)
    (writes : ∀ vec i j, (f vec i)[j]? = if i = j then vec[j]?.map (g j) else vec[j]?) (j : Nat) :
    ((List.range count).foldl f vec)[j]? = if j < count then vec[j]?.map (g j) else vec[j]? := by
  induction count with
  | zero => simp
  | succ count ih =>
      rw [List.range_succ, List.foldl_append, List.foldl_cons, List.foldl_nil, writes, ih]
      by_cases here : count = j
      · subst here
        simp
      · by_cases before : j < count
        · simp [here, before, Nat.lt_succ_of_lt before]
        · have after : ¬ j < count + 1 := by omega
          simp [here, before, after]

theorem orData_vector (bits : List Bool) (mask : Word) : orData bits.length mask (.vector bits) = .vector (orBits mask bits) := by
  apply congrArg BitData.vector
  apply List.ext_getElem?
  intro j
  have write (vec : List Bool) (i j : Nat) : (if mask.getLsbD i then vec.set i true else vec)[j]? =
      if i = j then vec[j]?.map (fun b => b || mask.getLsbD j) else vec[j]? := by
    by_cases here : i = j
    · subst here
      cases mask.getLsbD i with
      | false => simp
      | true =>
          rw [if_pos rfl, if_pos rfl, List.getElem?_set_self']
          cases vec[i]? <;> simp
    · cases mask.getLsbD i <;> simp [here]
  rw [getElem?_foldl_write _ (fun j b => b || mask.getLsbD j) _ _ write, orBits, List.getElem?_mapIdx]
  by_cases inside : j < min bits.length 64
  · rw [if_pos inside]
  · rw [if_neg inside]
    rcases Nat.lt_or_ge j bits.length with short | long
    · have clear : mask.getLsbD j = false := BitVec.getLsbD_of_ge mask j (by omega)
      simp [clear, short]
    · simp [List.getElem?_eq_none long]

theorem andData_vector (bits : List Bool) (mask : Word) :
    andData bits.length mask (.vector bits) = .vector (andBits mask bits) := by
  apply congrArg BitData.vector
  apply List.ext_getElem?
  intro j
  have write (vec : List Bool) (i j : Nat) : (vec.set i (bits.getD i false && mask.getLsbD i))[j]? =
      if i = j then vec[j]?.map (fun _ => bits.getD j false && mask.getLsbD j) else vec[j]? := by
    by_cases here : i = j
    · subst here
      rw [if_pos rfl, List.getElem?_set_self']
      cases vec[i]? <;> rfl
    · simp [here]
  rw [getElem?_foldl_write _ (fun j _ => bits.getD j false && mask.getLsbD j) _ _ write, andBits, List.getElem?_mapIdx]
  rcases Nat.lt_or_ge j bits.length with short | long
  · by_cases inside : j < 64
    · simp [short, inside]
    · have clear : mask.getLsbD j = false := BitVec.getLsbD_of_ge mask j (by omega)
      simp [short, inside, clear]
  · simp [Nat.not_lt.mpr long]

theorem bitList_orMask (mask : Word) : (v.orMask mask).bitList = orBits mask v.bitList := by
  obtain ⟨⟨nbits, data, kind⟩, filled⟩ := v
  cases data with
  | mask value =>
      change (List.range nbits).map (value ||| mask).getLsbD = orBits mask ((List.range nbits).map value.getLsbD)
      apply List.ext_getElem <;> simp [orBits]
  | vector bits =>
      have length : bits.length = nbits := filled bits rfl
      subst length
      change listOf bits.length (orData bits.length mask (.vector bits)) = _
      rw [orData_vector]
      rfl

theorem bitList_andMask (mask : Word) : (v.andMask mask).bitList = andBits mask v.bitList := by
  obtain ⟨⟨nbits, data, kind⟩, filled⟩ := v
  cases data with
  | mask value =>
      change (List.range nbits).map (value &&& mask).getLsbD = andBits mask ((List.range nbits).map value.getLsbD)
      apply List.ext_getElem <;> simp [andBits]
  | vector bits =>
      have length : bits.length = nbits := filled bits rfl
      subst length
      change listOf bits.length (andData bits.length mask (.vector bits)) = _
      rw [andData_vector]
      rfl

theorem length_orBits (mask : Word) (bits : List Bool) : (orBits mask bits).length = bits.length := by
  simp [orBits]

theorem length_andBits (mask : Word) (bits : List Bool) : (andBits mask bits).length = bits.length := by
  simp [andBits]

theorem filled_of_length (data : BitData) (nbits : Nat) (length : (listOf nbits data).length = nbits) (bits : List Bool)
    (same : data = .vector bits) : bits.length = nbits := by
  subst same
  exact length

/-- The vector after `|=`. -/
def filledOr (mask : Word) : FilledVector :=
  { v.orMask mask with
    filled := filled_of_length _ _ (by
      change (v.orMask mask).bitList.length = v.nbits
      rw [bitList_orMask, length_orBits, length_bitList]) }

def filledAnd (mask : Word) : FilledVector :=
  { v.andMask mask with
    filled := filled_of_length _ _ (by
      change (v.andMask mask).bitList.length = v.nbits
      rw [bitList_andMask, length_andBits, length_bitList]) }

theorem normal_orMask (mask : Word) :
    (v.orMask mask).Normal ↔ v.Normal ∧ ∀ i, v.nbits ≤ i → mask.getLsbD i = false := by
  obtain ⟨⟨nbits, data, kind⟩, filled⟩ := v
  cases data with
  | mask value =>
      have clear (i : Nat) : (value ||| mask).getLsbD i = false ↔ value.getLsbD i = false ∧ mask.getLsbD i = false := by
        simp
      simp only [Normal, orMask, orData, BitData.mask.injEq, forall_eq', clear]
      exact ⟨fun both => ⟨fun i beyond => (both i beyond).1, fun i beyond => (both i beyond).2⟩,
        fun both i beyond => ⟨both.1 i beyond, both.2 i beyond⟩⟩
  | vector bits =>
      have long : ¬ nbits ≤ 64 := by simpa [BitData.isMask] using kind
      have clear (i : Nat) (beyond : nbits ≤ i) : mask.getLsbD i = false := BitVec.getLsbD_of_ge mask i (by omega)
      simpa [Normal, orMask, orData] using clear

theorem normal_andMask (mask : Word) (normal : v.Normal) : (v.andMask mask).Normal := by
  obtain ⟨⟨nbits, data, kind⟩, filled⟩ := v
  cases data with
  | mask value =>
      intro word same i beyond
      cases same
      have clear := normal value rfl i beyond
      simp [clear]
  | vector bits =>
      intro word same
      nomatch same

end NLBitVecDynamic

open NLBitDependencies NLBitVecDynamic BitDependencies in
/-- Positions survive as long as they fit 32 bits, and a vector behaves as its bit string, also under
masks, as long as neither its word nor the mask has bits past its length. -/
theorem encodings_iff (positions : List Nat) (v : FilledVector) (mask : BitDependencies.Word) :
    ((NLBitDependencies.decodeBits (encodeBits positions) = sortedPositions positions ∧
        countBitsForVector (encodeBits positions) = (sortedPositions positions).length ∧
        (isSimple (encodeBits positions) = true ↔ ∃ n, positions.toFinset = Finset.range n)) ↔
      ∀ position ∈ positions, position < 2 ^ 32) ∧
    ((v.Agrees ∧ (v.andMask mask).bitList = andBits mask v.bitList ∧ (v.andMask mask).Agrees ∧
        (v.orMask mask).bitList = orBits mask v.bitList ∧ (v.orMask mask).Agrees) ↔
      v.Normal ∧ ∀ i, v.nbits ≤ i → mask.getLsbD i = false) := by
  constructor
  · rw [round_trip_iff]
    exact and_iff_left ⟨countBits_encodeBits positions, isSimple_encodeBits positions⟩
  · have afterOr := agrees_iff (filledOr v mask)
    have afterAnd := agrees_iff (filledAnd v mask)
    constructor
    · rintro ⟨-, -, -, -, agrees⟩
      exact (normal_orMask v mask).mp (afterOr.mp agrees)
    · rintro ⟨normal, clear⟩
      refine ⟨(agrees_iff v).mpr normal, bitList_andMask v mask, ?_, bitList_orMask v mask, ?_⟩
      · exact afterAnd.mpr (normal_andMask v mask normal)
      · exact afterOr.mpr ((normal_orMask v mask).mpr ⟨normal, clear⟩)

open NLBitDependencies NLBitVecDynamic BitDependencies in
/-- Position `2 ^ 32` comes back as 0, and a mask bit past the length makes equal bit strings differ. -/
theorem encodings_lossy :
    NLBitDependencies.decodeBits (encodeBits [2 ^ 32]) = [0] ∧ sortedPositions [2 ^ 32] = [2 ^ 32] ∧
      ((ofBits [false]).orMask 2).bitList = (ofBits [false]).bitList ∧
      ((ofBits [false]).orMask 2 == ofBits [false]) = false := by
  have sorted : sortedPositions [2 ^ 32] = [2 ^ 32] := by simp [sortedPositions]
  refine ⟨?_, sorted, by decide, by decide⟩
  rw [decodeBits_encodeBits, sorted]
  rfl

end Naja.TruthTable
