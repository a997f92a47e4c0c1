import Naja.TruthTable.Storage

/-! The storage round trip. A list of tables is read back unchanged exactly when
each table is an explicit one over all its rows whose dependency blocks already
have the length the design pads them to, and the list is not one small table on
a design with more than 64 bit terms. -/

namespace Naja.TruthTable.StorageRoundTrip
open Naja.Primitives BitDependencies Storage

/-- A table the flat value list represents faithfully, on a design of `chunkCount` blocks. -/
structure Storable (chunkCount : Nat) (t : SNLTruthTable) : Prop where
  explicit : t = { size := t.size, bits := t.bits, dependencies := t.dependencies }
  small : t.size < 32
  rows : t.bits.nbits = 2 ^ t.size
  entries : ∀ bits, t.bits.data = .vector bits → bits.length = 2 ^ t.size
  constant : t.size = 0 → t.dependencies = []
  blocks : t.size ≠ 0 → t.dependencies.length = chunkCount

theorem oneShiftLeft_eq (size : Nat) (small : size < 32) :
    SNLTruthTable.oneShiftLeft size = 2 ^ size := by
  unfold SNLTruthTable.oneShiftLeft
  exact Nat.mod_eq_of_lt (Nat.pow_lt_pow_right (by decide) small)

theorem small_of_oneShiftLeft (size : Nat) (positive : 0 < SNLTruthTable.oneShiftLeft size) :
    size < 32 := by
  by_contra large
  unfold SNLTruthTable.oneShiftLeft at positive
  rw [Nat.mod_eq_zero_of_dvd (Nat.pow_dvd_pow 2 (by omega))] at positive
  contradiction

theorem sizeShiftLeft_eq (size : Nat) (small : size < 32) : sizeShiftLeft size = 2 ^ size := by
  unfold sizeShiftLeft
  exact Nat.mod_eq_of_lt (Nat.pow_lt_pow_right (by decide) (by omega))

theorem pow_le_64 (size : Nat) : 2 ^ size ≤ 64 ↔ size ≤ 6 := by
  have base : (64 : Nat) = 2 ^ 6 := by decide
  rw [base, Nat.pow_le_pow_iff_right (by decide)]

/-! ### Bits in chunks -/

theorem length_packBits (bits : List Bool) :
    (packBits bits).length = chunksFromBits bits.length := by
  have kept (positions : List Nat) (blocks : List Word) :
      (positions.foldl setPosition blocks).length = blocks.length := by
    induction positions generalizing blocks with
    | nil => rfl
    | cons position rest ih => rw [List.foldl_cons, ih, setPosition_length]
  unfold packBits chunksFromBits
  rw [kept, List.length_replicate]
  split <;> omega

theorem testBlocks_packBits (bits : List Bool) (i : Nat) :
    testBlocks (packBits bits) i = bits.getD i false := by
  unfold packBits
  rw [testBlocks_foldl_setPosition]
  · have zero : testBlocks (List.replicate ((bits.length + 63) / 64) (0 : Word)) i = false := by
      simp only [testBlocks, List.getD_eq_getElem?_getD, List.getElem?_replicate]
      split <;> simp
    rw [zero, Bool.false_or]
    by_cases inside : i < bits.length
    · simp [inside]
    · simp [inside]
  · intro position member
    have bound := List.mem_range.mp (List.mem_filter.mp member).1
    rw [List.length_replicate]
    omega

theorem map_testBlocks_packBits (bits : List Bool) :
    (List.range bits.length).map (testBlocks (packBits bits)) = bits := by
  apply List.ext_getElem
  · simp
  · intro i inside _
    simp only [List.length_map, List.length_range] at inside
    simp [testBlocks_packBits, inside]

theorem length_decodeBits (blocks : List Word) :
    (decodeBits blocks).length = countBitsForVector blocks := by
  have block (blockIdx : Nat) (x : Word) :
      decodeBlock blockIdx 64 x = ((List.range 64).filter x.getLsbD).map (blockIdx * 64 + ·) := by
    apply List.Pairwise.eq_of_mem_iff (decodeBlock_sorted blockIdx 64 x (by omega))
    · refine List.pairwise_map.mpr ((List.pairwise_lt_range.filter _).imp ?_)
      intro left right below
      omega
    · intro position
      rw [mem_decodeBlock _ _ _ _ (by omega), List.mem_map]
      apply exists_congr
      intro i
      rw [List.mem_filter, List.mem_range]
      constructor
      · rintro ⟨set, rfl⟩
        exact ⟨⟨BitVec.lt_of_getLsbD set, set⟩, rfl⟩
      · rintro ⟨⟨-, set⟩, rfl⟩
        exact ⟨set, rfl⟩
  have whole (blockIdx : Nat) : (decodeFrom blockIdx blocks).length = countBitsForVector blocks := by
    induction blocks generalizing blockIdx with
    | nil => rfl
    | cons x rest ih =>
        rw [decodeFrom, List.length_append, ih, block, List.length_map]
        rfl
  exact whole 0

/-! ### Reading a segment of the value list -/

theorem getUInt64Value_segment (pre post : List Word) (value : Word) :
    getUInt64Value (pre ++ value :: post) pre.length = .ok value := by
  unfold getUInt64Value
  rw [List.getElem?_append_right (Nat.le_refl _), Nat.sub_self]
  rfl

theorem getUInt64Values_segment (pre segment post : List Word) :
    getUInt64Values (pre ++ (segment ++ post)) pre.length segment.length = .ok segment := by
  induction segment generalizing pre with
  | nil => rfl
  | cons value rest ih =>
      have next := ih (pre ++ [value])
      simp only [List.append_assoc, List.length_append, List.length_singleton,
        List.singleton_append] at next
      simp only [List.length_cons, List.cons_append, getUInt64Values, getUInt64Value_segment, next,
        bind, Except.bind, pure, Except.pure]

theorem readDependencies_segment (pre segment post : List Word) :
    readDependencies (pre ++ (segment ++ post)) pre.length segment.length = .ok segment := by
  induction segment generalizing pre with
  | nil => rfl
  | cons value rest ih =>
      have next := ih (pre ++ [value])
      simp only [List.append_assoc, List.length_append, List.length_singleton,
        List.singleton_append] at next
      have inside : ¬ (pre ++ value :: (rest ++ post)).length ≤ pre.length := by
        simp
      simp only [List.length_cons, List.cons_append, readDependencies, getUInt64Value_segment, next,
        inside, if_false, bind, Except.bind, pure, Except.pure]

theorem length_getUInt64Values (values : List Word) (start count : Nat) (result : List Word)
    (read : getUInt64Values values start count = .ok result) : result.length = count := by
  induction count generalizing start result with
  | zero =>
      simp only [getUInt64Values, Except.ok.injEq] at read
      rw [← read]
      rfl
  | succ count ih =>
      simp only [getUInt64Values, bind, Except.bind, pure, Except.pure] at read
      split at read
      · contradiction
      split at read
      · contradiction
      next rest later =>
        rw [← Except.ok.inj read, List.length_cons, ih _ _ later]

theorem length_readDependencies (values : List Word) (start count : Nat) (result : List Word)
    (read : readDependencies values start count = .ok result) : result.length = count := by
  induction count generalizing start result with
  | zero =>
      simp only [readDependencies, Except.ok.injEq] at read
      rw [← read]
      rfl
  | succ count ih =>
      simp only [readDependencies, bind, Except.bind, pure, Except.pure] at read
      split at read
      · contradiction
      split at read
      · contradiction
      split at read
      · contradiction
      next rest later =>
        rw [← Except.ok.inj read, List.length_cons, ih _ _ later]

/-! ### One table -/

theorem ofMask_eq_ok (size : Nat) (bits : Word) (dependencies : List Word) (small : size ≤ 6)
    (count : size ≠ 0 → countBitsForVector dependencies ≤ size) :
    SNLTruthTable.ofMask size bits dependencies = .ok
      { size := size,
        bits := ⟨2 ^ size, .mask bits, by simp [BitData.isMask, pow_le_64, small]⟩,
        dependencies := dependencies } := by
  have notLarge : ¬ 6 < size := by omega
  have notMany : ¬ (0 < size ∧ size < countBitsForVector dependencies) := by
    rintro ⟨positive, many⟩
    have bound := count (by omega)
    omega
  have short : 2 ^ size ≤ 64 := (pow_le_64 size).mpr small
  simp [SNLTruthTable.ofMask, NLBitVecDynamic.ofMask, SNLTruthTable.checkDependencyCount, notLarge,
    notMany, oneShiftLeft_eq size (by omega), short, bind, Except.bind, pure, Except.pure]

theorem ofVector_eq_ok (size : Nat) (bits : List Bool) (dependencies : List Word)
    (large : 6 < size) (small : size < 32) (count : countBitsForVector dependencies ≤ size) :
    SNLTruthTable.ofVector size bits dependencies = .ok
      { size := size,
        bits := ⟨2 ^ size, .vector bits, by simp [BitData.isMask, pow_le_64, large]⟩,
        dependencies := dependencies } := by
  have notSmall : ¬ size ≤ 6 := by omega
  have notMany : ¬ (0 < size ∧ size < countBitsForVector dependencies) := by omega
  have long : 64 < 2 ^ size := by
    have bound := (pow_le_64 size).not.mpr notSmall
    omega
  simp [SNLTruthTable.ofVector, NLBitVecDynamic.ofVector, SNLTruthTable.checkDependencyCount, notSmall,
    notMany, oneShiftLeft_eq size small, long, bind, Except.bind, pure, Except.pure]

/-- A storable table of at most 6 inputs is one mask. -/
theorem Storable.mask {chunkCount : Nat} {t : SNLTruthTable} (storable : Storable chunkCount t)
    (few : t.size ≤ 6) : ∃ bits, t.bits.data = .mask bits := by
  have kind := t.bits.kind
  rw [storable.rows, decide_eq_true ((pow_le_64 t.size).mpr few)] at kind
  cases data : t.bits.data with
  | mask bits => exact ⟨bits, rfl⟩
  | vector bits => simp [data, BitData.isMask] at kind

theorem Storable.vector {chunkCount : Nat} {t : SNLTruthTable} (storable : Storable chunkCount t)
    (many : 6 < t.size) : ∃ bits, t.bits.data = .vector bits := by
  have kind := t.bits.kind
  rw [storable.rows, decide_eq_false ((pow_le_64 t.size).not.mpr (by omega))] at kind
  cases data : t.bits.data with
  | mask bits => simp [data, BitData.isMask] at kind
  | vector bits => exact ⟨bits, rfl⟩

theorem Storable.length_getChunks {chunkCount : Nat} {t : SNLTruthTable}
    (storable : Storable chunkCount t) :
    t.bits.getChunks.length = chunksFromBits (2 ^ t.size) := by
  unfold NLBitVecDynamic.getChunks
  by_cases few : t.size ≤ 6
  · obtain ⟨bits, data⟩ := storable.mask few
    rw [data]
    have rows : 0 < 2 ^ t.size ∧ 2 ^ t.size ≤ 64 := ⟨Nat.two_pow_pos _, (pow_le_64 _).mpr few⟩
    simp only [List.length_singleton]
    unfold chunksFromBits
    split <;> omega
  · obtain ⟨bits, data⟩ := storable.vector (by omega)
    rw [data]
    simp only [length_packBits, storable.entries bits data]

/-- What acceptance says about the stored dependency blocks of a storable table. -/
theorem validate_spec (d : Design) (t : SNLTruthTable) (deps : List Word)
    (storable : Storable (getDependencyChunkCount d) t)
    (valid : validateAndPadDependenciesForDesign d t = .ok deps) :
    deps.length = getDependencyChunkCount d ∧
      (if t.size = 0 then [] else deps) = t.dependencies ∧
      (t.size ≠ 0 → countBitsForVector t.dependencies ≤ t.size) := by
  unfold validateAndPadDependenciesForDesign at valid
  simp only at valid
  by_cases zero : t.size = 0
  · rw [if_pos zero, Except.ok.injEq] at valid
    rw [if_pos zero, ← valid]
    exact ⟨List.length_replicate, (storable.constant zero).symm, fun nonzero => absurd zero nonzero⟩
  · have blocks := storable.blocks zero
    have padded : padDependencies (getDependencyChunkCount d) t.dependencies = t.dependencies := by
      unfold padDependencies
      rw [← blocks, List.take_left]
    rw [if_neg zero] at valid
    split at valid
    · contradiction
    split at valid
    · contradiction
    next fits =>
      rw [length_decodeBits] at fits
      have same : deps = t.dependencies := by
        rw [padded] at valid
        split at valid
        · exact (Except.ok.inj valid).symm
        split at valid
        · contradiction
        split at valid
        · contradiction
        exact (Except.ok.inj valid).symm
      rw [if_neg zero, same]
      exact ⟨blocks, rfl, fun _ => by omega⟩

theorem length_tableValues (d : Design) (t : SNLTruthTable) (deps : List Word)
    (storable : Storable (getDependencyChunkCount d) t)
    (length : deps.length = getDependencyChunkCount d) :
    (tableValues t deps).length =
      1 + chunksFromBits (2 ^ t.size) + getDependencyChunkCount d := by
  simp only [tableValues, List.length_cons, List.length_append, storable.length_getChunks, length]
  omega

theorem size_toNat (t : SNLTruthTable) (small : t.size < 32) :
    (BitVec.ofNat 64 t.size).toNat = t.size := by
  rw [BitVec.toNat_ofNat]
  exact Nat.mod_eq_of_lt (by omega)

theorem size_uint32 (t : SNLTruthTable) (small : t.size < 32) :
    uint32 (BitVec.ofNat 64 t.size) = t.size := by
  unfold uint32
  rw [size_toNat t small]
  exact Nat.mod_eq_of_lt (by omega)

private theorem eq_of_explicit (t : SNLTruthTable) (data : BitData) (kind)
    (explicit : t = { size := t.size, bits := t.bits, dependencies := t.dependencies })
    (rows : t.bits.nbits = 2 ^ t.size) (same : t.bits.data = data) :
    ({ size := t.size, bits := ⟨2 ^ t.size, data, kind⟩, dependencies := t.dependencies } :
      SNLTruthTable) = t := by
  conv_rhs => rw [explicit]
  congr 1
  cases stored : t.bits with
  | mk nbits entries proof =>
      rw [stored] at rows same
      simp only at rows same
      subst rows same
      rfl

theorem Storable.ofMask {chunkCount : Nat} {t : SNLTruthTable} (storable : Storable chunkCount t)
    (few : t.size ≤ 6) (count : t.size ≠ 0 → countBitsForVector t.dependencies ≤ t.size)
    (bits : Word) (data : t.bits.data = .mask bits) :
    SNLTruthTable.ofMask t.size bits t.dependencies = .ok t :=
  (ofMask_eq_ok t.size bits _ few count).trans
    (congrArg Except.ok (eq_of_explicit t _ _ storable.explicit storable.rows data))

theorem Storable.ofVector {chunkCount : Nat} {t : SNLTruthTable} (storable : Storable chunkCount t)
    (many : 6 < t.size) (count : countBitsForVector t.dependencies ≤ t.size)
    (bits : List Bool) (data : t.bits.data = .vector bits) :
    SNLTruthTable.ofVector t.size bits t.dependencies = .ok t :=
  (ofVector_eq_ok t.size bits _ many storable.small count).trans
    (congrArg Except.ok (eq_of_explicit t _ _ storable.explicit storable.rows data))

theorem readTableAt_segment (d : Design) (t : SNLTruthTable) (deps pre post : List Word)
    (storable : Storable (getDependencyChunkCount d) t)
    (valid : validateAndPadDependenciesForDesign d t = .ok deps) :
    readTableAt d (pre ++ (tableValues t deps ++ post)) pre.length = .ok t := by
  obtain ⟨length, stored, count⟩ := validate_spec d t deps storable valid
  have first : getUInt64Value (pre ++ (tableValues t deps ++ post)) pre.length =
      .ok (BitVec.ofNat 64 t.size) := getUInt64Value_segment pre _ _
  unfold readTableAt
  simp only [first, bind, Except.bind, size_toNat t storable.small, size_uint32 t storable.small]
  by_cases few : t.size ≤ 6
  · obtain ⟨bits, data⟩ := storable.mask few
    have values : pre ++ (tableValues t deps ++ post) =
        (pre ++ [BitVec.ofNat 64 t.size]) ++ bits :: (deps ++ post) := by
      simp [tableValues, NLBitVecDynamic.getChunks, data]
    have mask : getUInt64Value (pre ++ (tableValues t deps ++ post)) (pre.length + 1) = .ok bits := by
      rw [values]
      simpa using getUInt64Value_segment (pre ++ [BitVec.ofNat 64 t.size]) (deps ++ post) bits
    have blocks : getUInt64Values (pre ++ (tableValues t deps ++ post)) (pre.length + 2)
        (getDependencyChunkCount d) = .ok deps := by
      rw [values, ← length]
      simpa using getUInt64Values_segment (pre ++ [BitVec.ofNat 64 t.size, bits]) deps post
    simp only [few, if_true, mask, blocks]
    rw [stored]
    exact storable.ofMask few count bits data
  · obtain ⟨bits, data⟩ := storable.vector (by omega)
    have nonzero : t.size ≠ 0 := by omega
    have entries := storable.entries bits data
    have values : pre ++ (tableValues t deps ++ post) =
        (pre ++ [BitVec.ofNat 64 t.size]) ++ (packBits bits ++ (deps ++ post)) := by
      simp [tableValues, NLBitVecDynamic.getChunks, data]
    have chunks : getUInt64Values (pre ++ (tableValues t deps ++ post)) (pre.length + 1)
        (chunksFromBits (2 ^ t.size)) = .ok (packBits bits) := by
      rw [values, ← entries, ← length_packBits]
      simpa using getUInt64Values_segment (pre ++ [BitVec.ofNat 64 t.size]) (packBits bits)
        (deps ++ post)
    have blocks : readDependencies (pre ++ (tableValues t deps ++ post))
        (pre.length + 1 + chunksFromBits (2 ^ t.size)) (getDependencyChunkCount d) = .ok deps := by
      rw [values, ← entries, ← length_packBits, ← length]
      simpa [Nat.add_assoc, Nat.add_comm, Nat.add_left_comm] using
        readDependencies_segment (pre ++ [BitVec.ofNat 64 t.size] ++ packBits bits) deps post
    rw [if_neg few, oneShiftLeft_eq t.size storable.small]
    simp only [fillBits, chunks, blocks, stored, bind, Except.bind, pure, Except.pure]
    rw [← entries, map_testBlocks_packBits]
    exact storable.ofVector (by omega) (count nonzero) bits data

/-- The single-table reader rejects a short table behind more than one dependency block. -/
theorem readSingleTable_stored (d : Design) (t : SNLTruthTable) (deps : List Word)
    (storable : Storable (getDependencyChunkCount d) t)
    (valid : validateAndPadDependenciesForDesign d t = .ok deps)
    (nonempty : 0 < getDependencyChunkCount d)
    (readable : t.size ≤ 6 → getDependencyChunkCount d < 2) :
    readSingleTable d (tableValues t deps) = .ok t := by
  obtain ⟨length, stored, count⟩ := validate_spec d t deps storable valid
  have total := length_tableValues d t deps storable length
  have first : getUInt64Value (tableValues t deps) 0 = .ok (BitVec.ofNat 64 t.size) := rfl
  have expected : chunksFromBits (SNLTruthTable.oneShiftLeft t.size) + getDependencyChunkCount d =
      (tableValues t deps).length - 1 := by
    rw [oneShiftLeft_eq t.size storable.small]
    omega
  unfold readSingleTable
  simp only [first, bind, Except.bind, size_toNat t storable.small, size_uint32 t storable.small,
    expected, ne_eq, not_true_eq_false, if_false]
  by_cases few : t.size ≤ 6
  · obtain ⟨bits, data⟩ := storable.mask few
    have values : tableValues t deps = BitVec.ofNat 64 t.size :: bits :: deps := by
      simp [tableValues, NLBitVecDynamic.getChunks, data]
    have one := readable few
    have short : ¬ 3 < (tableValues t deps).length := by
      rw [values]
      simp only [List.length_cons]
      omega
    have mask : getUInt64Value (tableValues t deps) 1 = .ok bits := by
      rw [values]
      rfl
    have blocks : ((tableValues t deps).drop 2).take (getDependencyChunkCount d) = deps := by
      rw [values, ← length]
      simp
    rw [if_neg short, if_pos few, mask]
    simp only
    rw [blocks, stored]
    exact storable.ofMask few count bits data
  · obtain ⟨bits, data⟩ := storable.vector (by omega)
    have nonzero : t.size ≠ 0 := by omega
    have entries := storable.entries bits data
    have rows : 64 < 2 ^ t.size := by
      have bound := (pow_le_64 t.size).not.mpr few
      omega
    have values : tableValues t deps = [BitVec.ofNat 64 t.size] ++ (packBits bits ++ (deps ++ [])) := by
      simp [tableValues, NLBitVecDynamic.getChunks, data]
    have long : 3 < (tableValues t deps).length := by
      rw [total]
      unfold chunksFromBits
      split <;> omega
    have chunks : getUInt64Values (tableValues t deps) 1 (chunksFromBits (2 ^ t.size)) =
        .ok (packBits bits) := by
      rw [values, ← entries, ← length_packBits]
      exact getUInt64Values_segment [BitVec.ofNat 64 t.size] (packBits bits) (deps ++ [])
    have blocks : readDependencies (tableValues t deps) (1 + chunksFromBits (2 ^ t.size))
        (getDependencyChunkCount d) = .ok deps := by
      rw [values, ← entries, ← length_packBits, ← length]
      simpa [Nat.add_comm] using
        readDependencies_segment ([BitVec.ofNat 64 t.size] ++ packBits bits) deps []
    have notShort : ¬ 2 ^ t.size ≤ 64 := by omega
    rw [if_pos long, oneShiftLeft_eq t.size storable.small, if_neg notShort]
    simp only [fillBits, chunks, blocks, stored, bind, Except.bind, pure, Except.pure]
    rw [← entries, map_testBlocks_packBits]
    exact storable.ofVector (by omega) (count nonzero) bits data

/-! ### A list of tables -/

theorem serialize_cons (d : Design) (t : SNLTruthTable) (rest : List SNLTruthTable)
    (values : List Word) (stored : serialize d (t :: rest) = .ok values) :
    ∃ deps later, validateAndPadDependenciesForDesign d t = .ok deps ∧
      serialize d rest = .ok later ∧ values = tableValues t deps ++ later := by
  simp only [serialize, bind, Except.bind, pure, Except.pure] at stored
  split at stored
  · contradiction
  next deps valid =>
    split at stored
    · contradiction
    next later more =>
      exact ⟨deps, later, valid, more, (Except.ok.inj stored).symm⟩

theorem advance_table (d : Design) (t : SNLTruthTable) (deps pre : List Word)
    (storable : Storable (getDependencyChunkCount d) t)
    (length : deps.length = getDependencyChunkCount d) :
    advanceTruthTableValueIndex d pre.length (uint32 (BitVec.ofNat 64 t.size)) =
      (pre ++ tableValues t deps).length := by
  rw [List.length_append, length_tableValues d t deps storable length,
    size_uint32 t storable.small]
  unfold advanceTruthTableValueIndex
  rw [sizeShiftLeft_eq t.size storable.small]
  omega

/-- The counting loop started after `pre` counts the tables that are left. -/
theorem countTables_stored (d : Design) (tables : List SNLTruthTable) (pre values : List Word)
    (storable : ∀ t ∈ tables, Storable (getDependencyChunkCount d) t)
    (stored : serialize d tables = .ok values) (fuel tableIdx : Nat) (enough : values.length ≤ fuel) :
    countTables d (pre ++ values) fuel pre.length tableIdx = .ok (tableIdx + tables.length) := by
  induction tables generalizing pre values fuel tableIdx with
  | nil =>
      obtain rfl : values = [] := (Except.ok.inj stored).symm
      cases fuel with
      | zero => rfl
      | succ fuel => simp [countTables]
  | cons t rest ih =>
      obtain ⟨deps, later, valid, more, rfl⟩ := serialize_cons d t rest values stored
      have here := storable t List.mem_cons_self
      have length := (validate_spec d t deps here valid).1
      have total := length_tableValues d t deps here length
      rw [List.length_append] at enough
      cases fuel with
      | zero => omega
      | succ fuel =>
          have first : getUInt64Value (pre ++ (tableValues t deps ++ later)) pre.length =
              .ok (BitVec.ofNat 64 t.size) := getUInt64Value_segment pre _ _
          have inside : ¬ (pre ++ (tableValues t deps ++ later)).length ≤ pre.length := by
            simp only [List.length_append]
            omega
          have next := ih (pre ++ tableValues t deps) later
            (fun other member => storable other (List.mem_cons_of_mem _ member)) more fuel
            (tableIdx + 1) (by omega)
          have within : ¬ (pre ++ (tableValues t deps ++ later)).length + 1 ≤
              (pre ++ tableValues t deps).length := by
            simp only [List.length_append]
            omega
          rw [List.append_assoc] at next
          simp only [countTables, inside, if_false, first, bind, Except.bind,
            advance_table d t deps pre here length, within, pure, Except.pure, next, List.length_cons]
          rw [Nat.add_right_comm, Nat.add_assoc]

/-- The index walk finds the table of rank `rank` and reads it. -/
theorem seekTable_stored (d : Design) (tables : List SNLTruthTable) (pre values : List Word)
    (storable : ∀ t ∈ tables, Storable (getDependencyChunkCount d) t)
    (stored : serialize d tables = .ok values) (outputID rank : Nat) (t : SNLTruthTable)
    (found : tables[rank]? = some t) :
    ∃ valIdx, seekTable d (pre ++ values) outputID rank pre.length = .ok valIdx ∧
      readTableAt d (pre ++ values) valIdx = .ok t := by
  induction tables generalizing pre values rank with
  | nil => simp at found
  | cons head rest ih =>
      obtain ⟨deps, later, valid, more, rfl⟩ := serialize_cons d head rest values stored
      have here := storable head List.mem_cons_self
      have length := (validate_spec d head deps here valid).1
      have within : ¬ (pre ++ (tableValues head deps ++ later)).length + 1 ≤ pre.length := by
        simp only [List.length_append]
        omega
      cases rank with
      | zero =>
          obtain rfl : head = t := by simpa using found
          refine ⟨pre.length, ?_, readTableAt_segment d head deps pre later here valid⟩
          simp only [seekTable, within, if_false]
      | succ rank =>
          have first : getUInt64Value (pre ++ (tableValues head deps ++ later)) pre.length =
              .ok (BitVec.ofNat 64 head.size) := getUInt64Value_segment pre _ _
          obtain ⟨valIdx, seek, read⟩ := ih (pre ++ tableValues head deps) later
            (fun other member => storable other (List.mem_cons_of_mem _ member)) more rank
            (by simpa using found)
          rw [List.append_assoc] at seek read
          refine ⟨valIdx, ?_, read⟩
          simp only [seekTable, within, if_false, first, bind, Except.bind,
            advance_table d head deps pre here length, seek]

/-! ### What the readers can return -/

theorem storable_of_ofMask (chunkCount size : Nat) (bits : Word) (deps : List Word)
    (t : SNLTruthTable) (length : size ≠ 0 → deps.length = chunkCount)
    (built : SNLTruthTable.ofMask size bits (if size = 0 then [] else deps) = .ok t) :
    Storable chunkCount t ∧ t.size ≤ 6 := by
  obtain ⟨short, few, -, rfl⟩ := SNLTruthTable.ofMask_spec _ _ _ _ built
  refine ⟨⟨rfl, ?_, oneShiftLeft_eq size (by omega), nofun, ?_, ?_⟩, few⟩
  · change size < 32
    omega
  · intro zero
    exact if_pos zero
  · intro nonzero
    change (if size = 0 then [] else deps).length = chunkCount
    rw [if_neg nonzero]
    exact length nonzero

theorem storable_of_ofVector (chunkCount size : Nat) (bits : List Bool) (deps : List Word)
    (t : SNLTruthTable) (length : deps.length = chunkCount)
    (entries : bits.length = SNLTruthTable.oneShiftLeft size)
    (built : SNLTruthTable.ofVector size bits (if size = 0 then [] else deps) = .ok t) :
    Storable chunkCount t ∧ 6 < t.size := by
  obtain ⟨long, many, -, rfl⟩ := SNLTruthTable.ofVector_spec _ _ _ _ built
  have small : size < 32 := small_of_oneShiftLeft size (by omega)
  refine ⟨⟨rfl, small, oneShiftLeft_eq size small, ?_, ?_, ?_⟩, many⟩
  · intro other same
    rw [← BitData.vector.inj same, entries]
    exact oneShiftLeft_eq size small
  · intro zero
    change size = 0 at zero
    omega
  · intro nonzero
    change (if size = 0 then [] else deps).length = chunkCount
    rw [if_neg (show size ≠ 0 by omega), length]

theorem length_fillBits (values : List Word) (bitsIdx nBits : Nat) (bits : List Bool)
    (read : fillBits values bitsIdx nBits = .ok bits) : bits.length = nBits := by
  simp only [fillBits, bind, Except.bind, pure, Except.pure] at read
  split at read
  · contradiction
  · rw [← Except.ok.inj read, List.length_map, List.length_range]

theorem storable_of_readTableAt (d : Design) (values : List Word) (valIdx : Nat) (t : SNLTruthTable)
    (read : readTableAt d values valIdx = .ok t) : Storable (getDependencyChunkCount d) t := by
  simp only [readTableAt, bind, Except.bind] at read
  split at read
  · contradiction
  split at read
  · split at read
    · contradiction
    next deps blocks =>
      split at read
      · contradiction
      · exact (storable_of_ofMask _ _ _ _ t
          (fun _ => length_getUInt64Values _ _ _ _ blocks) read).1
  · split at read
    · contradiction
    next bits filled =>
      split at read
      · contradiction
      next deps blocks =>
        exact (storable_of_ofVector _ _ _ _ t (length_readDependencies _ _ _ _ blocks)
          (length_fillBits _ _ _ _ filled) read).1

theorem storable_of_readSingleTable (d : Design) (values : List Word) (t : SNLTruthTable)
    (read : readSingleTable d values = .ok t) :
    Storable (getDependencyChunkCount d) t ∧ (t.size ≤ 6 → getDependencyChunkCount d < 2) := by
  simp only [readSingleTable, bind, Except.bind] at read
  split at read
  · contradiction
  next declared first =>
    split at read
    · contradiction
    next expected =>
      split at read
      · split at read
        · contradiction
        split at read
        · contradiction
        next bits filled =>
          split at read
          · contradiction
          next deps blocks =>
            obtain ⟨storable, many⟩ := storable_of_ofVector _ _ _ _ t
              (length_readDependencies _ _ _ _ blocks) (length_fillBits _ _ _ _ filled) read
            exact ⟨storable, by omega⟩
      next short =>
        split at read
        next few =>
          split at read
          · contradiction
          have oneChunk : chunksFromBits (2 ^ declared.toNat) = 1 := by
            have rows := (pow_le_64 _).mpr few
            have positive := Nat.two_pow_pos declared.toNat
            unfold chunksFromBits
            split <;> omega
          rw [oneShiftLeft_eq _ (by omega), oneChunk] at expected
          have length : ((values.drop 2).take (getDependencyChunkCount d)).length =
              getDependencyChunkCount d := by
            rw [List.length_take, List.length_drop]
            omega
          exact ⟨(storable_of_ofMask _ _ _ _ t (fun _ => length) read).1, fun _ => by omega⟩
        · contradiction

end Naja.TruthTable.StorageRoundTrip
