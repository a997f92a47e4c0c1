import Mathlib.Data.BitVec
import Mathlib.Data.List.Sort
import Mathlib.Data.Nat.Factorization.Basic

/-! Bit positions packed into 64-bit blocks, as `NLBitDependencies` stores them.
Encoding loses the order and the repetitions of the positions, and decoding
lists the set bits in increasing order: a decoded dependency list is always the
sorted list of the encoded set. -/

namespace Naja.TruthTable.BitDependencies

abbrev Word := BitVec 64

/-- Bit `position` of a block list; blocks past the end read as zero. -/
def testBlocks (blocks : List Word) (position : Nat) : Bool :=
  (blocks.getD (position / 64) 0).getLsbD (position % 64)

def setPosition (blocks : List Word) (position : Nat) : List Word :=
  blocks.modify (position / 64) (fun block => block ||| BitVec.twoPow 64 (position % 64))

def encodeBits (positions : List Nat) : List Word :=
  match positions with
  | [] => []
  | position :: rest =>
      let maxPos := (position :: rest).foldl max 0
      (position :: rest).foldl setPosition (List.replicate (maxPos / 64 + 1) 0)

def countBits (block : Word) : Nat :=
  ((List.range 64).filter block.getLsbD).length

def countBitsForVector (blocks : List Word) : Nat :=
  (blocks.map countBits).sum

/-- The `while (x != 0)` loop on one block; each turn clears one of its 64 bits. -/
def decodeBlock (blockIdx : Nat) : Nat → Word → List Nat
  | 0, _ => []
  | fuel + 1, x =>
      if x = 0 then []
      else (blockIdx * 64 + x.ctz.toNat) :: decodeBlock blockIdx fuel (x &&& (x - 1))

def decodeFrom (blockIdx : Nat) : List Word → List Nat
  | [] => []
  | block :: rest => decodeBlock blockIdx 64 block ++ decodeFrom (blockIdx + 1) rest

def decodeBits (blocks : List Word) : List Nat := decodeFrom 0 blocks

/-- No set bit follows a clear one, scanning from `found_zero_bit = foundZero`. -/
def noHoles (foundZero : Bool) : List Bool → Bool
  | [] => true
  | bit :: rest => if bit then !foundZero && noHoles foundZero rest else noHoles true rest

def isSimple (blocks : List Word) : Bool :=
  noHoles false (blocks.flatMap (fun block => (List.range 64).map block.getLsbD))

private theorem testBit_clear_lowest (low rest index : Nat) :
    ((2 ^ low * (2 * rest + 1)) &&& (2 ^ low * (2 * rest + 1) - 1)).testBit index =
      ((2 ^ low * (2 * rest + 1)).testBit index && decide (index ≠ low)) := by
  have positive : 0 < 2 ^ low := Nat.two_pow_pos low
  have pred : 2 ^ low * (2 * rest + 1) - 1 = 2 ^ low * (2 * rest) + (2 ^ low - 1) := by
    rw [Nat.mul_add, Nat.mul_one]
    omega
  have whole : 2 ^ low * (2 * rest + 1) = 2 ^ low * (2 * rest + 1) + 0 := rfl
  rw [Nat.testBit_and, pred, Nat.testBit_two_pow_mul_add _ (by omega), whole,
    Nat.testBit_two_pow_mul_add _ positive]
  rcases Nat.lt_trichotomy index low with below | rfl | above
  · simp [below]
  · simp
  · have shift : index - low = index - low - 1 + 1 := by omega
    have notBelow : ¬ index < low := by omega
    have ne : index ≠ low := by omega
    rw [shift]
    simp [notBelow, ne, Nat.testBit_succ, show (2 * rest + 1) / 2 = rest by omega]

theorem getLsbD_clear_lowest (x : Word) (nonzero : x ≠ 0) (index : Nat) :
    (x &&& (x - 1)).getLsbD index = (x.getLsbD index && decide (index ≠ x.ctz.toNat)) := by
  have positive : x.toNat ≠ 0 := by
    intro zero
    exact nonzero (BitVec.eq_of_toNat_eq (by simpa using zero))
  have pred : (x - 1).toNat = x.toNat - 1 := by
    have bound := x.isLt
    rw [BitVec.toNat_sub_of_le]
    · rfl
    · rw [BitVec.le_def]
      simp
      omega
  obtain ⟨low, odd, isOdd, value⟩ := Nat.exists_eq_two_pow_mul_odd positive
  obtain ⟨rest, rfl⟩ := isOdd
  have same (i : Nat) : (x &&& (x - 1)).getLsbD i = (x.getLsbD i && decide (i ≠ low)) := by
    rw [← BitVec.testBit_toNat, ← BitVec.testBit_toNat, BitVec.toNat_and, pred, value]
    exact testBit_clear_lowest low rest i
  have atLow : x.getLsbD low = true := by
    rw [← BitVec.testBit_toNat, value, ← Nat.add_zero (2 ^ low * _),
      Nat.testBit_two_pow_mul_add _ (Nat.two_pow_pos low)]
    simp
  have belowLow (i : Nat) (below : i < low) : x.getLsbD i = false := by
    rw [← BitVec.testBit_toNat, value, ← Nat.add_zero (2 ^ low * _),
      Nat.testBit_two_pow_mul_add _ (Nat.two_pow_pos low)]
    simp [below]
  have lowest : x.ctz.toNat = low := by
    rcases Nat.lt_trichotomy x.ctz.toNat low with below | equal | above
    · have set := BitVec.getLsbD_true_ctz_of_ne_zero nonzero
      rw [belowLow _ below] at set
      contradiction
    · exact equal
    · have clear := BitVec.getLsbD_false_of_lt_ctz above
      rw [atLow] at clear
      contradiction
  rw [same, lowest]

/-- With no set bit below `64 - fuel` the loop lists every set bit of the block. -/
theorem mem_decodeBlock (blockIdx fuel : Nat) (x : Word) (position : Nat)
    (clear : ∀ i, i + fuel < 64 → x.getLsbD i = false) :
    position ∈ decodeBlock blockIdx fuel x ↔
      ∃ i, x.getLsbD i = true ∧ position = blockIdx * 64 + i := by
  induction fuel generalizing x with
  | zero =>
      have empty (i : Nat) : x.getLsbD i = false := by
        by_cases inside : i < 64
        · exact clear i (by omega)
        · exact BitVec.getLsbD_of_ge x i (by omega)
      simp [decodeBlock, empty]
  | succ fuel ih =>
      rw [decodeBlock]
      split
      · next zero => simp [zero]
      · next nonzero =>
          have lowest := BitVec.getLsbD_true_ctz_of_ne_zero nonzero
          have next (i : Nat) (small : i + fuel < 64) :
              (x &&& (x - 1)).getLsbD i = false := by
            rw [getLsbD_clear_lowest x nonzero]
            by_cases equal : i = x.ctz.toNat
            · simp [equal]
            · have notAbove : ¬ x.ctz.toNat < i := by
                intro above
                rw [clear _ (by omega)] at lowest
                contradiction
              rw [BitVec.getLsbD_false_of_lt_ctz (by omega), Bool.false_and]
          rw [List.mem_cons, ih _ next]
          constructor
          · rintro (rfl | ⟨i, set, rfl⟩)
            · exact ⟨x.ctz.toNat, lowest, rfl⟩
            · rw [getLsbD_clear_lowest x nonzero] at set
              exact ⟨i, (Bool.and_eq_true _ _ ▸ set).1, rfl⟩
          · rintro ⟨i, set, rfl⟩
            by_cases equal : i = x.ctz.toNat
            · exact Or.inl (by rw [equal])
            · refine Or.inr ⟨i, ?_, rfl⟩
              rw [getLsbD_clear_lowest x nonzero, set]
              simpa using equal

theorem decodeBlock_sorted (blockIdx fuel : Nat) (x : Word)
    (clear : ∀ i, i + fuel < 64 → x.getLsbD i = false) :
    (decodeBlock blockIdx fuel x).Pairwise (· < ·) := by
  induction fuel generalizing x with
  | zero => simp [decodeBlock]
  | succ fuel ih =>
      rw [decodeBlock]
      split
      · exact List.Pairwise.nil
      · next nonzero =>
          have cleared (i : Nat) (set : (x &&& (x - 1)).getLsbD i = true) :
              x.ctz.toNat < i := by
            rw [getLsbD_clear_lowest x nonzero, Bool.and_eq_true, decide_eq_true_eq] at set
            by_contra notAbove
            rw [BitVec.getLsbD_false_of_lt_ctz (by omega)] at set
            exact Bool.false_ne_true set.1
          have lowest := BitVec.getLsbD_true_ctz_of_ne_zero nonzero
          have next (i : Nat) (small : i + fuel < 64) :
              (x &&& (x - 1)).getLsbD i = false := by
            by_contra set
            have above := cleared i (by simpa using set)
            rw [clear _ (by omega)] at lowest
            contradiction
          refine List.Pairwise.cons ?_ (ih _ next)
          intro position member
          obtain ⟨i, set, rfl⟩ := (mem_decodeBlock blockIdx fuel _ position next).mp member
          have above := cleared i set
          omega

theorem mem_decodeFrom (blockIdx : Nat) (blocks : List Word) (position : Nat) :
    position ∈ decodeFrom blockIdx blocks ↔
      blockIdx * 64 ≤ position ∧ testBlocks blocks (position - blockIdx * 64) = true := by
  induction blocks generalizing blockIdx with
  | nil => simp [decodeFrom, testBlocks]
  | cons block rest ih =>
      rw [decodeFrom, List.mem_append, mem_decodeBlock _ _ _ _ (by omega), ih]
      constructor
      · rintro (⟨i, set, rfl⟩ | ⟨le, set⟩)
        · have inside : i < 64 := BitVec.lt_of_getLsbD set
          refine ⟨by omega, ?_⟩
          have first : i / 64 = 0 := by omega
          have offset : i % 64 = i := by omega
          simpa [testBlocks, first, offset] using set
        · refine ⟨by omega, ?_⟩
          have later : (position - blockIdx * 64) / 64 =
              (position - (blockIdx + 1) * 64) / 64 + 1 := by omega
          have offset : (position - blockIdx * 64) % 64 =
              (position - (blockIdx + 1) * 64) % 64 := by omega
          simpa [testBlocks, later, offset] using set
      · rintro ⟨le, set⟩
        by_cases first : position - blockIdx * 64 < 64
        · refine Or.inl ⟨position - blockIdx * 64, ?_, by omega⟩
          have zero : (position - blockIdx * 64) / 64 = 0 := by omega
          have offset : (position - blockIdx * 64) % 64 = position - blockIdx * 64 := by omega
          simpa [testBlocks, zero, offset] using set
        · refine Or.inr ⟨by omega, ?_⟩
          have later : (position - blockIdx * 64) / 64 =
              (position - (blockIdx + 1) * 64) / 64 + 1 := by omega
          have offset : (position - blockIdx * 64) % 64 =
              (position - (blockIdx + 1) * 64) % 64 := by omega
          simpa [testBlocks, later, offset] using set

theorem decodeFrom_sorted (blockIdx : Nat) (blocks : List Word) :
    (decodeFrom blockIdx blocks).Pairwise (· < ·) := by
  induction blocks generalizing blockIdx with
  | nil => exact List.Pairwise.nil
  | cons block rest ih =>
      refine List.pairwise_append.mpr ⟨decodeBlock_sorted _ _ _ (by omega), ih _, ?_⟩
      intro left inBlock right inRest
      obtain ⟨i, set, rfl⟩ := (mem_decodeBlock _ _ _ _ (by omega)).mp inBlock
      have inside : i < 64 := BitVec.lt_of_getLsbD set
      have above := ((mem_decodeFrom _ _ _).mp inRest).1
      omega

theorem mem_decodeBits (blocks : List Word) (position : Nat) :
    position ∈ decodeBits blocks ↔ testBlocks blocks position = true := by
  simp [decodeBits, mem_decodeFrom]

theorem decodeBits_sorted (blocks : List Word) : (decodeBits blocks).Pairwise (· < ·) :=
  decodeFrom_sorted 0 blocks

theorem setPosition_length (blocks : List Word) (position : Nat) :
    (setPosition blocks position).length = blocks.length := by
  simp [setPosition]

theorem testBlocks_setPosition (blocks : List Word) (position other : Nat)
    (inside : position / 64 < blocks.length) :
    testBlocks (setPosition blocks position) other =
      (testBlocks blocks other || decide (other = position)) := by
  simp only [testBlocks, setPosition, List.getD_eq_getElem?_getD, List.getElem?_modify]
  by_cases sameBlock : position / 64 = other / 64
  · have present : other / 64 < blocks.length := by omega
    have offset : other % 64 < 64 := Nat.mod_lt _ (by omega)
    have sameBit : (other % 64 = position % 64) = (other = position) := by
      apply propext
      omega
    simp [sameBlock, present, offset, sameBit]
  · have ne : other ≠ position := by
      rintro rfl
      exact sameBlock rfl
    simp [sameBlock, ne]

theorem testBlocks_foldl_setPosition (positions : List Nat) (blocks : List Word) (other : Nat)
    (inside : ∀ position ∈ positions, position / 64 < blocks.length) :
    testBlocks (positions.foldl setPosition blocks) other =
      (testBlocks blocks other || decide (other ∈ positions)) := by
  induction positions generalizing blocks with
  | nil => simp
  | cons position rest ih =>
      have head := inside position List.mem_cons_self
      rw [List.foldl_cons, ih _ (by
        intro later member
        rw [setPosition_length]
        exact inside later (List.mem_cons_of_mem _ member)), testBlocks_setPosition _ _ _ head]
      simp [Bool.or_assoc]

private theorem le_foldl_max (positions : List Nat) (start : Nat) :
    start ≤ positions.foldl max start ∧ ∀ position ∈ positions, position ≤ positions.foldl max start := by
  induction positions generalizing start with
  | nil => simp
  | cons position rest ih =>
      obtain ⟨fromStart, fromRest⟩ := ih (max start position)
      rw [List.foldl_cons]
      refine ⟨by omega, ?_⟩
      intro later member
      rcases List.mem_cons.mp member with rfl | inRest
      · omega
      · exact fromRest later inRest

theorem testBlocks_encodeBits (positions : List Nat) (other : Nat) :
    testBlocks (encodeBits positions) other = decide (other ∈ positions) := by
  cases positions with
  | nil => simp [encodeBits, testBlocks]
  | cons position rest =>
      rw [encodeBits, testBlocks_foldl_setPosition]
      · have zero : testBlocks (List.replicate
            ((position :: rest).foldl max 0 / 64 + 1) (0 : Word)) other = false := by
          simp only [testBlocks, List.getD_eq_getElem?_getD, List.getElem?_replicate]
          split <;> simp
        rw [zero, Bool.false_or]
      · intro later member
        have bound := (le_foldl_max (position :: rest) 0).2 later member
        simp only [List.length_replicate]
        omega

theorem mem_decodeBits_encodeBits (positions : List Nat) (other : Nat) :
    other ∈ decodeBits (encodeBits positions) ↔ other ∈ positions := by
  rw [mem_decodeBits, testBlocks_encodeBits, decide_eq_true_eq]

/-- Encoding re-sorts: an increasing list with the encoded members is what decoding returns. -/
theorem decodeBits_encodeBits_eq (positions sorted : List Nat)
    (increasing : sorted.Pairwise (· < ·)) (same : ∀ other, other ∈ sorted ↔ other ∈ positions) :
    decodeBits (encodeBits positions) = sorted := by
  apply List.Pairwise.eq_of_mem_iff (decodeBits_sorted _) increasing
  intro other
  rw [mem_decodeBits_encodeBits, same]

end Naja.TruthTable.BitDependencies
