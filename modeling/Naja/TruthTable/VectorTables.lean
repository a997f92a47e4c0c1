import Naja.TruthTable.WordTables

/-! Selecting and updating a part of a vector. Both tables decode the offset from the address
bits one candidate bit at a time; the number they decode is the exact one, whatever the width of
the address. -/

namespace Naja.TruthTable
open SNLTruthTable

/-! ### The two tables of one bit -/

theorem VectorSelect_eq (m : VectorSelectMetadata) (dependencies : List BitDependencies.Word) (t : SNLTruthTable)
    (built : VectorSelect m dependencies = .ok t) :
    t.genericType = .VECTOR_SELECT ∧ t.vectorSelect = m ∧ t.size = m.width + m.addressSize ∧ t.size < 2 ^ 32 ∧
      0 < m.width ∧ 0 < m.selectWidth ∧ 0 < m.addressSize ∧ m.outputBit < m.selectWidth := by
  unfold VectorSelect at built
  simp only at built
  split at built
  · cases built
  · next fits =>
      simp only [validateGenericMetadata, if_true] at built
      split at built
      · cases built
      · next valid =>
          cases built
          simp only [invalidVectorSelect, Bool.or_eq_true, beq_iff_eq, decide_eq_true_eq, bne_iff_ne] at valid
          simp only [maxUInt32] at fits
          have narrow : m.width + m.addressSize < 2 ^ 32 := by omega
          exact ⟨rfl, rfl, rfl, narrow, by omega⟩

theorem VectorUpdate_eq (m : VectorUpdateMetadata) (dependencies : List BitDependencies.Word) (t : SNLTruthTable)
    (built : VectorUpdate m dependencies = .ok t) :
    t.genericType = .VECTOR_UPDATE ∧ t.vectorUpdate = m ∧ t.size = m.updateWidth + m.addressSize + 2 ∧
      t.size < 2 ^ 32 ∧ 0 < m.updateWidth ∧ 0 < m.addressSize ∧ m.outputBit < m.width := by
  unfold VectorUpdate at built
  simp only at built
  split at built
  · cases built
  · next fits =>
      simp only [validateGenericMetadata, reduceCtorEq, ne_eq, not_true_eq_false, if_false, if_true] at built
      split at built
      · cases built
      · next valid =>
          cases built
          simp only [invalidVectorUpdate, Bool.or_eq_true, beq_iff_eq, decide_eq_true_eq, bne_iff_ne] at valid
          simp only [maxUInt32] at fits
          have narrow : m.updateWidth + m.addressSize + 2 < 2 ^ 32 := by omega
          exact ⟨rfl, rfl, rfl, narrow, by omega⟩

/-- The loop over the data bits computes the described selection. -/
theorem evaluateVectorSelect_described (t : SNLTruthTable) (inputs : List Bool)
    (type : t.genericType = .VECTOR_SELECT) (length : inputs.length = t.size)
    (size : t.size = t.vectorSelect.width + t.vectorSelect.addressSize)
    (positive : 0 < t.vectorSelect.addressSize) (small : t.size < 2 ^ 32) (bit : t.vectorSelect.outputBit < 2 ^ 32) :
    t.evaluateVectorSelect inputs = .ok (vectorSelectBit t.vectorSelect inputs) := by
  obtain ⟨m, metadata⟩ : ∃ m, t.vectorSelect = m := ⟨_, rfl⟩
  rw [metadata] at size positive bit
  let offset := inputs.drop m.width
  let target : Int := m.outputBit + numberOf m.isSigned offset
  have offsetLength : offset.length = m.addressSize := by
    rw [List.length_drop]
    omega
  have whole : offset.take m.addressSize = offset := List.take_of_length_le (le_of_eq offsetLength)
  have found (k : Nat) (inside : k < m.width) :
      (isAddressable m.isSigned m.addressSize ((k : Int) - m.outputBit) &&
        addressMatches inputs (m.width + m.addressSize - 1) m.addressSize ((k : Int) - m.outputBit)) = true ↔
        (k : Int) = target := by
    have address := addressMatches_iff inputs m.width m.addressSize ((k : Int) - m.outputBit) (by omega) positive
    have number := matches_iff m.isSigned offset ((k : Int) - m.outputBit) (by omega) (by omega) (by omega)
    rw [Bool.and_eq_true, address]
    change _ ∧ (∀ bit < (offset.take m.addressSize).length, _) ↔ _
    rw [whole]
    rw [offsetLength] at number ⊢
    rw [number]
    change numberOf m.isSigned offset = (k : Int) - m.outputBit ↔ (k : Int) = m.outputBit + numberOf m.isSigned offset
    omega
  have search := find_range m.width _ target found
  have dataLength : (inputs.take m.width).length = m.width := by
    rw [List.length_take]
    omega
  unfold evaluateVectorSelect
  rw [type, metadata]
  simp only [ne_eq, not_true_eq_false, if_false, length, search]
  congr 1
  change _ = bitOf (inputs.take m.width) target
  unfold bitOf
  rw [dataLength]
  by_cases inside : 0 ≤ target ∧ target < m.width
  · rw [if_pos inside, if_pos inside, Option.map_some, List.getD_eq_getElem?_getD, List.getD_eq_getElem?_getD,
      List.getElem?_take_of_lt (by omega)]
  · rw [if_neg inside, if_neg inside, Option.map_none]

/-! ### A vector written and read back -/

/-- Bit `p` of a word that lists its most significant bit first. -/
def bitAt (bits : List Bool) (p : Nat) : Bool := bits.getD (bits.length - 1 - p) false

theorem bitOf_eq (bits : List Bool) (index : Int) :
    bitOf bits index = if 0 ≤ index ∧ index < bits.length then some (bitAt bits index.toNat) else none := rfl

/-- The tables of the bits of an update and of a selection with one kind of offset. -/
structure VectorTables where
  width : Nat
  updateWidth : Nat
  addressSize : Nat
  isSigned : Bool
  update : Nat → SNLTruthTable
  select : Nat → SNLTruthTable
  updates : ∀ p < width, ∃ dependencies, VectorUpdate ⟨width, updateWidth, addressSize, p, isSigned⟩ dependencies =
    .ok (update p)
  selects : ∀ j < updateWidth, ∃ dependencies,
    VectorSelect ⟨width, updateWidth, addressSize, j, isSigned⟩ dependencies = .ok (select j)

namespace VectorTables
variable (v : VectorTables)

/-- The vector that an enabled update makes of a vector. -/
def updateVector (base data offset : List Bool) : Except String (List Bool) :=
  (List.range v.width).reverse.mapM (fun p => (v.update p).evaluateVectorUpdate (bitAt base p :: (data ++ offset ++ [true])))

/-- The bits that the selection at an offset reads, the least significant one first. -/
def selectVector (vector offset : List Bool) : Except String (List (Option Bool)) :=
  (List.range v.updateWidth).mapM (fun j => (v.select j).evaluateVectorSelect (vector ++ offset))

end VectorTables

theorem mapM_ok {α β : Type} (f : α → Except String β) (g : α → β) (xs : List α) (each : ∀ x ∈ xs, f x = .ok (g x)) :
    xs.mapM f = .ok (xs.map g) := by
  induction xs with
  | nil => rfl
  | cons x rest ih =>
      have head := each x List.mem_cons_self
      have tail := ih (fun y inRest => each y (List.mem_cons_of_mem x inRest))
      simp [List.mapM_cons, head, tail, bind, Except.bind, pure, Except.pure]

/-- The word whose bit `p` is `bit p`. -/
def wordOf (width : Nat) (bit : Nat → Bool) : List Bool := (List.range width).reverse.map bit

@[simp] theorem length_wordOf (width : Nat) (bit : Nat → Bool) : (wordOf width bit).length = width := by
  simp [wordOf]

theorem bitAt_wordOf (width : Nat) (bit : Nat → Bool) (p : Nat) (inside : p < width) :
    bitAt (wordOf width bit) p = bit p := by
  have place : width - 1 - (width - 1 - p) = p := by omega
  have bound : width - 1 - p < width := by omega
  simp [bitAt, wordOf, List.getD_eq_getElem?_getD, place, bound]

/-- The parts of the inputs of an update table. -/
theorem updateInputs_parts (base : Bool) (data offset : List Bool) (enable : Bool) :
    let inputs := base :: (data ++ offset ++ [enable])
    inputs.headD false = base ∧ (inputs.drop 1).take data.length = data ∧
      (inputs.drop (1 + data.length)).take offset.length = offset ∧ inputs.getLastD false = enable := by
  refine ⟨rfl, ?_, ?_, ?_⟩
  · simp [List.append_assoc]
  · rw [Nat.add_comm, List.drop_succ_cons]
    simp [List.append_assoc]
  · exact List.getLastD_concat (l := base :: (data ++ offset))

namespace VectorTables
variable (v : VectorTables)

/-- What the update puts into place `p`. -/
def written (base data offset : List Bool) (p : Nat) : Bool :=
  (bitOf data (p - numberOf v.isSigned offset)).getD (bitAt base p)

theorem updateVector_eq (base data offset : List Bool) (dataLength : data.length = v.updateWidth)
    (offsetLength : offset.length = v.addressSize) (narrow : v.width < 2 ^ 32) :
    v.updateVector base data offset = .ok (wordOf v.width (v.written base data offset)) := by
  apply mapM_ok
  intro p member
  have inside : p < v.width := by simpa using member
  obtain ⟨dependencies, built⟩ := v.updates p inside
  obtain ⟨type, metadata, size, small, -, positive, -⟩ := VectorUpdate_eq _ _ _ built
  have length : (bitAt base p :: (data ++ offset ++ [true])).length = (v.update p).size := by
    rw [size]
    simp only [List.length_cons, List.length_append, List.length_nil]
    omega
  obtain ⟨value, evaluated, function⟩ := evaluateVectorUpdate_described (v.update p) _ type length
    (by rw [metadata]; exact size) (by rw [metadata]; exact positive) small (by rw [metadata]; exact lt_trans inside narrow)
  obtain ⟨first, middle, address, last⟩ := updateInputs_parts (bitAt base p) data offset true
  rw [dataLength] at middle address
  rw [offsetLength] at address
  rw [evaluated]
  unfold described at function
  rw [type, metadata] at function
  simp only [vectorUpdateBit, first, middle, address, last, if_true, Option.some.injEq] at function
  rw [← function]
  rfl

theorem selectVector_eq (vector offset : List Bool) (length : vector.length = v.width)
    (offsetLength : offset.length = v.addressSize) (narrow : v.updateWidth < 2 ^ 32) :
    v.selectVector vector offset = .ok ((List.range v.updateWidth).map (fun (j : Nat) =>
      bitOf vector (j + numberOf v.isSigned offset))) := by
  apply mapM_ok
  intro j member
  have inside : j < v.updateWidth := by simpa using member
  obtain ⟨dependencies, built⟩ := v.selects j inside
  obtain ⟨type, metadata, size, small, -, -, positive, -⟩ := VectorSelect_eq _ _ _ built
  have inputs : (vector ++ offset).length = (v.select j).size := by
    rw [size, List.length_append, length, offsetLength]
  rw [evaluateVectorSelect_described (v.select j) _ type inputs (by rw [metadata]; exact size)
    (by rw [metadata]; exact positive) small (by rw [metadata]; exact lt_trans inside narrow)]
  rw [metadata]
  simp [vectorSelectBit, ← length]

/-- The tables exist only for widths of 32 bits. -/
theorem narrow : v.width < 2 ^ 32 ∧ v.updateWidth < 2 ^ 32 := by
  have updateWidth : 0 < v.updateWidth ∧ v.updateWidth < 2 ^ 32 ∨ v.width = 0 := by
    rcases Nat.eq_zero_or_pos v.width with none | some
    · exact Or.inr none
    · obtain ⟨dependencies, built⟩ := v.updates 0 some
      obtain ⟨-, -, size, small, positive, -⟩ := VectorUpdate_eq _ _ _ built
      simp only at size positive
      exact Or.inl (by omega)
  have width : 0 < v.updateWidth → 0 < v.width ∧ v.width < 2 ^ 32 := by
    intro some
    obtain ⟨dependencies, built⟩ := v.selects 0 some
    obtain ⟨-, -, size, small, positive, -⟩ := VectorSelect_eq _ _ _ built
    simp only at size positive
    omega
  omega

/-- Reading back an update: the written bits in range, and the old ones outside the window. -/
theorem select_updated (base data offset : List Bool) (dataLength : data.length = v.updateWidth)
    (offsetLength : offset.length = v.addressSize) :
    ∃ updated, v.updateVector base data offset = .ok updated ∧ updated.length = v.width ∧
      v.selectVector updated offset = .ok ((List.range v.updateWidth).map (fun (j : Nat) =>
        if 0 ≤ j + numberOf v.isSigned offset ∧ j + numberOf v.isSigned offset < v.width then some (bitAt data j)
        else none)) ∧
      ∀ p < v.width, ¬ (0 ≤ p - numberOf v.isSigned offset ∧ p - numberOf v.isSigned offset < v.updateWidth) →
        bitAt updated p = bitAt base p := by
  obtain ⟨narrow, narrow'⟩ := v.narrow
  refine ⟨_, v.updateVector_eq base data offset dataLength offsetLength narrow, length_wordOf _ _, ?_, ?_⟩
  · rw [v.selectVector_eq _ _ (length_wordOf _ _) offsetLength narrow']
    congr 1
    apply List.map_congr_left
    intro j member
    have inside : j < v.updateWidth := by simpa using member
    rw [bitOf_eq, length_wordOf]
    by_cases range : 0 ≤ (j : Int) + numberOf v.isSigned offset ∧ (j : Int) + numberOf v.isSigned offset < v.width
    · -- the place that is read is the one where bit `j` was written
      have place : (((j : Int) + numberOf v.isSigned offset).toNat : Int) - numberOf v.isSigned offset = j := by omega
      rw [if_pos range, if_pos range, bitAt_wordOf _ _ _ (by omega), written, place, bitOf_eq, dataLength,
        if_pos (by omega)]
      simp
    · rw [if_neg range, if_neg range]
  · intro p inside outside
    rw [bitAt_wordOf _ _ _ inside, written, bitOf_eq, dataLength, if_neg outside]
    simp

end VectorTables

/-- The two tables read the offset as the exact number of its address bits, so that what an update
writes is what a selection at the same offset reads. The fields of the metadata are 32-bit numbers. -/
theorem vector_tables_exact :
    (∀ (m : VectorSelectMetadata) (dependencies : List BitDependencies.Word) (t : SNLTruthTable) (inputs : List Bool),
      m.selectWidth < 2 ^ 32 → VectorSelect m dependencies = .ok t → inputs.length = t.size →
      let data := inputs.take m.width
      let place := numberOf m.isSigned (inputs.drop m.width) + m.outputBit
      t.evaluateVectorSelect inputs =
        .ok (if 0 ≤ place ∧ place < m.width then some (bitAt data place.toNat) else none)) ∧
    (∀ (m : VectorUpdateMetadata) (dependencies : List BitDependencies.Word) (t : SNLTruthTable) (inputs : List Bool),
      m.width < 2 ^ 32 → VectorUpdate m dependencies = .ok t → inputs.length = t.size →
      let data := (inputs.drop 1).take m.updateWidth
      let place := m.outputBit - numberOf m.isSigned ((inputs.drop (1 + m.updateWidth)).take m.addressSize)
      t.evaluateVectorUpdate inputs =
        .ok (if inputs.getLastD false = true ∧ 0 ≤ place ∧ place < m.updateWidth then bitAt data place.toNat
          else inputs.headD false)) ∧
    ∀ (v : VectorTables) (base data offset : List Bool), data.length = v.updateWidth → offset.length = v.addressSize →
      ∃ updated, v.updateVector base data offset = .ok updated ∧ updated.length = v.width ∧
        v.selectVector updated offset = .ok ((List.range v.updateWidth).map (fun (j : Nat) =>
          if 0 ≤ j + numberOf v.isSigned offset ∧ j + numberOf v.isSigned offset < v.width then some (bitAt data j)
          else none)) ∧
        ∀ p < v.width, ¬ (0 ≤ p - numberOf v.isSigned offset ∧ p - numberOf v.isSigned offset < v.updateWidth) →
          bitAt updated p = bitAt base p := by
  refine ⟨?_, ?_, fun v base data offset => v.select_updated base data offset⟩
  · intro m dependencies t inputs bounded built length
    obtain ⟨type, metadata, size, small, -, -, positive, bit⟩ := VectorSelect_eq m dependencies t built
    have data : (inputs.take m.width).length = m.width := by
      rw [List.length_take]
      omega
    simp only
    rw [evaluateVectorSelect_described t inputs type length (by rw [metadata]; exact size)
      (by rw [metadata]; exact positive) small (by rw [metadata]; omega)]
    rw [metadata, vectorSelectBit, bitOf_eq, data, Int.add_comm]
  · intro m dependencies t inputs bounded built length
    obtain ⟨type, metadata, size, small, -, positive, bit⟩ := VectorUpdate_eq m dependencies t built
    have data : ((inputs.drop 1).take m.updateWidth).length = m.updateWidth := by
      rw [List.length_take, List.length_drop]
      omega
    obtain ⟨value, evaluated, function⟩ := evaluateVectorUpdate_described t inputs type length
      (by rw [metadata]; exact size) (by rw [metadata]; exact positive) small (by rw [metadata]; omega)
    unfold described at function
    rw [type, metadata] at function
    simp only [vectorUpdateBit, bitOf_eq, data] at function
    simp only
    rw [evaluated]
    congr 1
    cases enable : inputs.getLastD false with
    | false =>
        rw [enable, if_neg Bool.false_ne_true] at function
        rw [if_neg (fun all => Bool.false_ne_true all.1)]
        exact (Option.some.inj function).symm
    | true =>
        simp only [enable, if_true, Option.some.injEq] at function
        rw [← function]
        simp only [true_and]
        split
        · rfl
        · rfl

/-- Updates and selections of one bit of a vector of two. -/
def pairTables : VectorTables where
  width := 2
  updateWidth := 1
  addressSize := 2
  isSigned := true
  update := fun p =>
    { size := 5, dependencies := fullDependencies 5, genericType := .VECTOR_UPDATE, vectorUpdate := ⟨2, 1, 2, p, true⟩ }
  select := fun j =>
    { size := 4, dependencies := fullDependencies 4, genericType := .VECTOR_SELECT, vectorSelect := ⟨2, 1, 2, j, true⟩ }
  updates := by
    intro p inside
    refine ⟨fullDependencies 5, ?_⟩
    obtain rfl | rfl : p = 0 ∨ p = 1 := by omega
    · decide
    · decide
  selects := by
    intro j inside
    refine ⟨fullDependencies 4, ?_⟩
    obtain rfl : j = 0 := by omega
    decide

/-- The offset 1 reads and writes the upper bit, the offset -2 none. -/
theorem pairTables_exact :
    (pairTables.select 0).evaluateVectorSelect [true, false, false, true] = .ok (some true) ∧
      (pairTables.update 1).evaluateVectorUpdate [false, true, true, false, true] = .ok false ∧
      ∃ updated, pairTables.updateVector [false, false] [true] [false, true] = .ok updated ∧ updated.length = 2 ∧
        pairTables.selectVector updated [false, true] = .ok [some true] ∧ bitAt updated 0 = false := by
  obtain ⟨selects, updates, together⟩ := vector_tables_exact
  refine ⟨?_, ?_, ?_⟩
  · have selected := selects ⟨2, 1, 2, 0, true⟩ (fullDependencies 4) (pairTables.select 0) [true, false, false, true]
      (by decide) (by decide) rfl
    rw [selected]
    decide
  · have updated := updates ⟨2, 1, 2, 1, true⟩ (fullDependencies 5) (pairTables.update 1)
      [false, true, true, false, true] (by decide) (by decide) rfl
    rw [updated]
    decide
  · obtain ⟨updated, made, length, read, kept⟩ := together pairTables [false, false] [true] [false, true] rfl rfl
    refine ⟨updated, made, length, ?_, ?_⟩
    · rw [read]
      decide
    · rw [kept 0 (by decide) (by decide)]
      decide

end Naja.TruthTable
