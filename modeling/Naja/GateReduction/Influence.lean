import Naja.GateReduction.Lookup

/-! Inputs that do not matter. `hasNoInfluence` finds them in every explicit table with
simple dependencies. `removeVariable` builds its rows in a word of 32 bits, and the
lookup of a primitive removes at most one of them. -/

namespace Naja.GateReduction
open TruthTable TruthTable.SNLTruthTable TruthTable.LibraryTables TruthTable.StorageRoundTrip TruthTable.BitDependencies
open Restriction
open Naja.Primitives.PinRoles (rowIndex evaluate)

/-! ### What is claimed -/

/-- The value never depends on the input. -/
def Independent (t : SNLTruthTable) (v : Nat) : Prop :=
  ∀ inputs : List Bool, inputs.length = t.size → evaluate t (inputs.set v false) = evaluate t (inputs.set v true)

/-- The table over the other inputs, with the same value on every assignment. -/
def Removes (t r : SNLTruthTable) (v : Nat) : Prop :=
  r.size + 1 = t.size ∧ ∀ inputs : List Bool, inputs.length = t.size → evaluate r (inputs.eraseIdx v) = evaluate t inputs

/-- Seven inputs at most, and no row that is true beyond the first 32 of the new table. -/
def Removable (t : SNLTruthTable) (v : Nat) : Prop :=
  t.size ≤ 7 ∧ ∀ inputs : List Bool, inputs.length = t.size → inputs.getD v false = false →
    (inputs.eraseIdx v).getD 5 false = true → evaluate t inputs = some false

/-! ### Rows as assignments -/

/-- The inputs of row `j`. -/
def assignment (n j : Nat) : List Bool := (List.range n).map j.testBit

theorem length_assignment (n j : Nat) : (assignment n j).length = n := by simp [assignment]

theorem rowIndex_assignment (n j : Nat) (inside : j < 2 ^ n) : rowIndex (assignment n j) = j := by
  apply Nat.eq_of_testBit_eq
  intro i
  rw [testBit_rowIndex, assignment, List.getD_eq_getElem?_getD, List.getElem?_map]
  by_cases below : i < n
  · rw [List.getElem?_range below]
    rfl
  · rw [List.getElem?_eq_none (by simpa using below)]
    exact (Nat.testBit_lt_two_pow (Nat.lt_of_lt_of_le inside (Nat.pow_le_pow_right (by decide) (Nat.le_of_not_lt below)))).symm

theorem set_insertIdx (free : List Bool) (v : Nat) (a b : Bool) (inside : v ≤ free.length) :
    (free.insertIdx v a).set v b = free.insertIdx v b := by
  induction v generalizing free with
  | zero => simp
  | succ v ih =>
      cases free with
      | nil => cases inside
      | cons c rest =>
          rw [List.insertIdx_succ_cons, List.insertIdx_succ_cons, List.set_cons_succ,
            ih rest (Nat.le_of_succ_le_succ inside)]

theorem insertIdx_eraseIdx (inputs : List Bool) (v : Nat) (b : Bool) (inside : v < inputs.length) :
    (inputs.eraseIdx v).insertIdx v b = inputs.set v b := by
  induction v generalizing inputs with
  | zero =>
      cases inputs with
      | nil => cases inside
      | cons c rest => rfl
  | succ v ih =>
      cases inputs with
      | nil => cases inside
      | cons c rest =>
          rw [List.eraseIdx_cons_succ, List.insertIdx_succ_cons, List.set_cons_succ,
            ih rest (Nat.lt_of_succ_lt_succ inside)]

section explicit
variable (t : SNLTruthTable) (explicit : Explicit t) (small : t.size < 32)
include explicit

theorem evaluate_explicit (inputs : List Bool) : evaluate t inputs = some (t.bits.bit (rowIndex inputs)) := by
  unfold evaluate
  rw [explicit.type]

theorem independent_iff (v : Nat) (inside : v < t.size) : Independent t v ↔ ∀ free : List Bool, free.length = t.size - 1 →
    t.bits.bit (rowIndex (free.insertIdx v false)) = t.bits.bit (rowIndex (free.insertIdx v true)) := by
  constructor
  · intro independent free length
    have fits : v ≤ free.length := by omega
    have same := independent (free.insertIdx v false) (by rw [List.length_insertIdx, if_pos fits]; omega)
    rw [set_insertIdx free v _ _ fits, set_insertIdx free v _ _ fits, evaluate_explicit t explicit,
      evaluate_explicit t explicit, Option.some.injEq] at same
    exact same
  · intro rows inputs length
    have same := rows (inputs.eraseIdx v) (by rw [List.length_eraseIdx, if_pos (by omega), length])
    rw [insertIdx_eraseIdx inputs v _ (by omega), insertIdx_eraseIdx inputs v _ (by omega)] at same
    rw [evaluate_explicit t explicit, evaluate_explicit t explicit, same]

omit explicit in
/-- The row that is read once the input has a value. -/
theorem reducedRow_one (v : Nat) (inside : v < t.size) (b : Bool) (free : List Bool) (length : free.length = t.size - 1) :
    reducedRow t [(v, b)] (rowIndex free) = t.bits.bit (rowIndex (free.insertIdx v b)) := by
  have fits : v ≤ free.length := by omega
  have longer : (free.insertIdx v b).length = t.size := by
    rw [List.length_insertIdx, if_pos fits]
    omega
  have fixes : Fixes (List.range t.size) [(v, b)] := by
    refine ⟨List.nodup_singleton _, fun c mem => ?_⟩
    rw [List.mem_singleton.mp mem]
    exact List.mem_range.mpr inside
  have filled := fill_one 0 v b (free.insertIdx v b) (by rw [longer]; exact inside)
  rw [Nat.zero_add, longer, ← List.range_eq_range', List.eraseIdx_insertIdx_self, set_insertIdx free v b b fits] at filled
  rw [reducedRow_fill t [(v, b)] fixes free length]
  exact congrArg (fun inputs => t.bits.bit (rowIndex inputs)) filled

theorem getReduced_one (simple : isSimple t.dependencies = true) (v : Nat) (inside : v < t.size) (b : Bool) :
    t.getReducedWithConstants [(v, b)] = reduceRows t [(v, b)] (t.size - 1) := by
  unfold getReducedWithConstants
  rw [simple, if_neg (by decide), if_neg (by omega), if_neg (by simp), if_neg (by simpa using inside)]
  simp only [explicit.type]
  rfl

include small

/-- The test compares the tables for both values, which have the same rows exactly when the input does not matter. -/
theorem hasNoInfluence_exact (simple : isSimple t.dependencies = true) (v : Nat) (inside : v < t.size) :
    ∃ b, hasNoInfluence t v = .ok b ∧ (b = true ↔ Independent t v) := by
  have own : ∀ b, ∃ r, t.getReducedWithConstants [(v, b)] = .ok r := by
    intro b
    have fixes : Fixes (List.range t.size) [(v, b)] := by
      refine ⟨List.nodup_singleton _, fun c mem => ?_⟩
      rw [List.mem_singleton.mp mem]
      exact List.mem_range.mpr inside
    obtain ⟨r, reduced, -⟩ := explicit_cofactor t [(v, b)] fixes explicit small simple (by omega) (by simp)
    exact ⟨r, reduced⟩
  obtain ⟨t0, reduced0⟩ := own false
  obtain ⟨t1, reduced1⟩ := own true
  have result : hasNoInfluence t v = .ok (t0 == t1) := by
    unfold hasNoInfluence
    rw [reduced0, reduced1]
    rfl
  refine ⟨_, result, ?_, ?_⟩
  · intro same inputs length
    rw [same] at result
    exact hasNoInfluence_spec t (.inl ⟨explicit, small⟩) simple v inside result inputs length
  · intro independent
    rw [beq_iff_eq]
    rw [getReduced_one t explicit simple v inside] at reduced0 reduced1
    have rows : (List.range (oneShiftLeft (t.size - 1))).map (reducedRow t [(v, false)]) =
        (List.range (oneShiftLeft (t.size - 1))).map (reducedRow t [(v, true)]) := by
      apply List.map_congr_left
      intro j member
      rw [oneShiftLeft_eq _ (by omega), List.mem_range] at member
      rw [← rowIndex_assignment (t.size - 1) j member,
        reducedRow_one t v inside false _ (length_assignment _ _),
        reducedRow_one t v inside true _ (length_assignment _ _)]
      exact (independent_iff t explicit v inside).mp independent _ (length_assignment _ _)
    unfold reduceRows at reduced0 reduced1
    rw [rows] at reduced0
    exact Except.ok.inj (reduced0.symm.trans reduced1)

/-- Dependencies with holes are refused. -/
theorem hasNoInfluence_iff (v : Nat) (inside : v < t.size) :
    (∃ b, hasNoInfluence t v = .ok b ∧ (b = true ↔ Independent t v)) ↔ isSimple t.dependencies = true := by
  constructor
  · intro found
    obtain ⟨b, result, -⟩ := found
    by_contra sparse
    have refused : t.getReducedWithConstants [(v, false)] =
        .error "getReducedWithConstants() does not support non full dependencies" := by
      unfold getReducedWithConstants
      rw [Bool.not_eq_true] at sparse
      rw [sparse]
      rfl
    unfold hasNoInfluence at result
    rw [refused] at result
    cases result
  · intro simple
    exact hasNoInfluence_exact t explicit small simple v inside

/-! ### The table without an input -/

/-- The rows where the input is false. -/
def withoutVariable (t : SNLTruthTable) (v : Nat) : Except String SNLTruthTable :=
  ofMask (t.size - 1)
    (maskOfRows ((List.range (2 ^ (t.size - 1))).map (fun j =>
      t.bits.bit (rowIndex ((assignment (t.size - 1) j).insertIdx v false)))))
    (fullDependencies (t.size - 1))

omit explicit in
theorem mem_rowsWithout (v i : Nat) : i ∈ rowsWithout t v ↔ i < 2 ^ t.size ∧ i.testBit v = false ∧ t.bits.bit i = true := by
  rw [rowsWithout, List.mem_filter, oneShiftLeft_eq t.size small, List.mem_range, Bool.and_eq_true, Bool.not_eq_true']

/-- No row is shifted out of the 32 bits. -/
theorem shifts_iff (v : Nat) (inside : v < t.size) (few : t.size ≤ 7) :
    (rowsWithout t v).any (fun i => decide (32 ≤ squeeze v i)) = false ↔ Removable t v := by
  have sixth (i : Nat) (below : i < 2 ^ t.size) : 32 ≤ squeeze v i ↔
      ((assignment t.size i).eraseIdx v).getD 5 false = true := by
    have place : squeeze v i = rowIndex ((assignment t.size i).eraseIdx v) := by
      rw [← squeeze_rowIndex, rowIndex_assignment _ _ below]
    have bound : squeeze v i < 64 := by
      have shorter : ((assignment t.size i).eraseIdx v).length = t.size - 1 := by
        rw [List.length_eraseIdx, if_pos (by rw [length_assignment]; exact inside), length_assignment]
      have rows := rowIndex_bound _ _ shorter
      have word := (pow_le_64 (t.size - 1)).mpr (by omega)
      omega
    rw [place] at bound ⊢
    rw [← testBit_rowIndex, Nat.testBit_eq_decide_div_mod_eq, decide_eq_true_eq]
    omega
  rw [List.any_eq_false]
  constructor
  · intro all
    refine ⟨few, ?_⟩
    intro inputs length off high
    have below := rowIndex_bound inputs _ length
    have own : assignment t.size (rowIndex inputs) = inputs := by
      apply List.ext_getElem?
      intro i
      rw [assignment, List.getElem?_map]
      by_cases within : i < t.size
      · rw [List.getElem?_range within, Option.map_some, testBit_rowIndex, List.getD_eq_getElem?_getD,
          List.getElem?_eq_getElem (by omega)]
        rfl
      · rw [List.getElem?_eq_none (by simpa using within), List.getElem?_eq_none (by omega)]
        rfl
    rw [evaluate_explicit t explicit, Option.some.injEq]
    by_contra value
    rw [Bool.not_eq_false] at value
    have row : rowIndex inputs ∈ rowsWithout t v :=
      (mem_rowsWithout t small v _).mpr ⟨below, by rw [testBit_rowIndex, off], value⟩
    apply all _ row
    rw [decide_eq_true_eq, sixth _ below, own]
    exact high
  · intro removable i row
    obtain ⟨below, off, value⟩ := (mem_rowsWithout t small v i).mp row
    rw [decide_eq_true_eq, sixth i below]
    intro high
    have zero := removable.2 (assignment t.size i) (length_assignment _ _)
      (by rw [← testBit_rowIndex, rowIndex_assignment _ _ below, off]) high
    rw [evaluate_explicit t explicit, rowIndex_assignment _ _ below, value] at zero
    cases zero

theorem removeVariable_eq (v : Nat) (inside : v < t.size) (removable : Removable t v) :
    removeVariable t v = withoutVariable t v := by
  have few := removable.1
  have word := (pow_le_64 (t.size - 1)).mpr (by omega)
  unfold removeVariable withoutVariable
  rw [if_neg (by omega), (shifts_iff t explicit small v inside few).mpr removable, if_neg (by decide)]
  congr 1
  apply BitVec.eq_of_getLsbD_eq
  intro k inWord
  rw [getLsbD_foldl_twoPow _ _ _ _ inWord, maskOfRows, BitVec.getLsbD_ofNat, testBit_rowIndex, decide_eq_true inWord,
    Bool.true_and, List.getD_eq_getElem?_getD, List.getElem?_map]
  have zero : (0 : BitDependencies.Word).getLsbD k = false := by simp
  rw [zero, Bool.false_or]
  -- the row of the table that goes to row `k`
  by_cases below : k < 2 ^ (t.size - 1)
  · rw [List.getElem?_range below, Option.map_some, Option.getD_some]
    have fits : v ≤ (assignment (t.size - 1) k).length := by
      rw [length_assignment]
      omega
    have length : ((assignment (t.size - 1) k).insertIdx v false).length = t.size := by
      rw [List.length_insertIdx, if_pos fits, length_assignment]
      omega
    have source : squeeze v (rowIndex ((assignment (t.size - 1) k).insertIdx v false)) = k := by
      rw [squeeze_rowIndex, List.eraseIdx_insertIdx_self, rowIndex_assignment _ _ below]
    have off : (rowIndex ((assignment (t.size - 1) k).insertIdx v false)).testBit v = false := by
      rw [testBit_rowIndex, List.getD_eq_getElem?_getD, List.getElem?_insertIdx_self, if_pos fits]
      rfl
    rw [Bool.eq_iff_iff, List.any_eq_true]
    constructor
    · intro found
      obtain ⟨i, row, same⟩ := found
      obtain ⟨-, off', value⟩ := (mem_rowsWithout t small v i).mp row
      have here := squeeze_inj v i _ off' off ((beq_iff_eq.mp same).trans source.symm)
      rwa [← here]
    · intro value
      refine ⟨_, (mem_rowsWithout t small v _).mpr ⟨rowIndex_bound _ _ length, off, value⟩, ?_⟩
      rw [source, beq_self_eq_true]
  · rw [List.getElem?_eq_none (by simpa using below)]
    rw [Option.map_none, Option.getD_none, List.any_eq_false]
    intro i row same
    obtain ⟨inRange, -, -⟩ := (mem_rowsWithout t small v i).mp row
    apply below
    have place : squeeze v i = rowIndex ((assignment t.size i).eraseIdx v) := by
      rw [← squeeze_rowIndex, rowIndex_assignment _ _ inRange]
    rw [← beq_iff_eq.mp same, place]
    apply rowIndex_bound
    rw [List.length_eraseIdx, if_pos (by rw [length_assignment]; exact inside), length_assignment]

omit explicit small in
theorem withoutVariable_ok (v : Nat) (few : t.size ≤ 7) : ∃ r, withoutVariable t v = .ok r := by
  unfold withoutVariable
  rw [ofMask_eq_ok _ _ _ (by omega) (fun _ => by rw [countBits_fullDependencies])]
  exact ⟨_, rfl⟩

/-- Where an input does not matter, its value in the table that is built does not either. -/
theorem removes_of_removed (v : Nat) (inside : v < t.size) (independent : Independent t v) (r : SNLTruthTable)
    (removed : removeVariable t v = .ok r) : Removes t r v := by
  obtain ⟨-, size, -, same⟩ := removeVariable_spec t r v explicit small removed
  refine ⟨size, ?_⟩
  intro inputs length
  have atFalse := same (inputs.set v false) (by rw [List.length_set, length])
    (by simp [List.getD_eq_getElem?_getD, length, inside])
  rw [List.eraseIdx_set_eq] at atFalse
  have bound : v < inputs.length := by omega
  have own : inputs.set v inputs[v] = inputs := List.set_getElem_self _
  rw [atFalse]
  cases value : inputs[v] with
  | false => rw [← value, own]
  | true => rw [independent inputs length, ← value, own]

/-- An input that does not matter is removed exactly when the rows fit. -/
theorem removeVariable_iff (v : Nat) (inside : v < t.size) (independent : Independent t v) :
    (∃ r, removeVariable t v = .ok r ∧ Removes t r v) ↔ Removable t v := by
  constructor
  · intro found
    obtain ⟨r, removed, size, -⟩ := found
    unfold removeVariable at removed
    rw [if_neg (by omega)] at removed
    split at removed
    · cases removed
    · next shifts =>
        obtain ⟨-, few, -, -⟩ := ofMask_spec _ _ _ _ removed
        exact (shifts_iff t explicit small v inside (by omega)).mp (by simpa using shifts)
  · intro removable
    obtain ⟨r, isTable⟩ := withoutVariable_ok t v removable.1
    have removed : removeVariable t v = .ok r := (removeVariable_eq t explicit small v inside removable).trans isTable
    exact ⟨r, removed, removes_of_removed t explicit small v inside independent r removed⟩

end explicit

/-! ### The lookup of a primitive -/

/-- A primitive has the table without the input. -/
def Matches (truthTables : LibraryTruthTables) (t : SNLTruthTable) (v : Nat) : Prop :=
  ∃ x, withoutVariable t v = .ok x ∧ (find truthTables x).isSome = true

/-- The tables the lookup comes to: the canonical one, and those without one input that does not matter. -/
def Reached (truthTables : LibraryTruthTables) (lookupTT x : SNLTruthTable) : Prop :=
  x = lookupTT ∨ truthTables ≠ [] ∧ ∃ v < lookupTT.size, Independent lookupTT v ∧ removeVariable lookupTT v = .ok x

/-- The lookup returns a primitive, or comes to a table all of whose inputs matter. -/
def Settles (truthTables : LibraryTruthTables) (tt lookupTT : SNLTruthTable) : Prop :=
  ∃ result, getDesignForTruthTable truthTables tt = .ok result ∧
    (result.isSome = true ∨ ∃ x, Reached truthTables lookupTT x ∧ ∀ v < x.size, ¬Independent x v)

/-- A primitive has the table; or all inputs matter; or a primitive has the table without an input, and removing
the inputs up to it works; or one input only does not matter, and removing it works. -/
def SettledByOne (truthTables : LibraryTruthTables) (lookupTT : SNLTruthTable) : Prop :=
  (find truthTables lookupTT).isSome = true ∨ (∀ v < lookupTT.size, ¬Independent lookupTT v) ∨
    truthTables ≠ [] ∧
      ((∃ v < lookupTT.size, Independent lookupTT v ∧ Matches truthTables lookupTT v ∧
          ∀ u ≤ v, Independent lookupTT u → Removable lookupTT u) ∨
        ∃ v < lookupTT.size, Independent lookupTT v ∧ Removable lookupTT v ∧
          ∀ u < lookupTT.size, Independent lookupTT u → u = v)

theorem canonicalize_explicit (t : SNLTruthTable) (explicit : Explicit t) (small : t.size < 32) :
    ∃ c, canonicalizeTruthTableForLookup t = .ok c ∧ Explicit c ∧ c.size = t.size ∧ isSimple c.dependencies = true := by
  have plain : t.isGeneric = false := by
    unfold isGeneric
    rw [explicit.type]
    rfl
  unfold canonicalizeTruthTableForLookup
  simp only
  rw [plain, if_neg Bool.false_ne_true]
  have rows := oneShiftLeft_eq t.size small
  by_cases few : t.size ≤ 6
  · rw [if_pos few, ofMask_eq_ok _ _ _ few (fun _ => by rw [countBits_fullDependencies])]
    exact ⟨_, rfl, ⟨rfl, rfl⟩, rfl, isSimple_fullDependencies _⟩
  · rw [if_neg few, ofVector_eq_ok _ _ _ (by omega) small (by rw [countBits_fullDependencies])]
    exact ⟨_, rfl, ⟨rfl, rfl⟩, rfl, isSimple_fullDependencies _⟩

/-- A table with simple dependencies over a mask is canonical. -/
theorem canonicalize_mask (n : Nat) (bits : BitDependencies.Word) (x : SNLTruthTable)
    (built : ofMask n bits (fullDependencies n) = .ok x) : canonicalizeTruthTableForLookup x = .ok x := by
  obtain ⟨short, few, -, shape⟩ := ofMask_spec _ _ _ _ built
  have plain : x.isGeneric = false := by
    rw [shape]
    rfl
  have size : x.size = n := by rw [shape]
  have chunk : x.bits.getChunks.headD 0 = bits := by
    rw [shape]
    rfl
  unfold canonicalizeTruthTableForLookup
  simp only
  rw [plain, if_neg Bool.false_ne_true, size, if_pos few, chunk]
  exact built

section retry
variable (truthTables : LibraryTruthTables) (t : SNLTruthTable) (explicit : Explicit t) (small : t.size < 32)
  (simple : isSimple t.dependencies = true)
include explicit small simple

theorem retry_dependent (v : Nat) (rest : List Nat) (inside : v < t.size) (matters : ¬Independent t v) :
    retry truthTables t (v :: rest) = retry truthTables t rest := by
  obtain ⟨b, result, exact⟩ := hasNoInfluence_exact t explicit small simple v inside
  have isFalse : b = false := by
    rw [← Bool.not_eq_true, exact]
    exact matters
  rw [retry, result, isFalse]
  rfl

theorem retry_removable (v : Nat) (rest : List Nat) (inside : v < t.size) (independent : Independent t v)
    (removable : Removable t v) (x : SNLTruthTable) (isTable : withoutVariable t v = .ok x) :
    retry truthTables t (v :: rest) =
      match find truthTables x with
      | some p => .ok (some (p, [v]))
      | none => retry truthTables t rest := by
  obtain ⟨b, result, exact⟩ := hasNoInfluence_exact t explicit small simple v inside
  rw [retry, result, exact.mpr independent, removeVariable_eq t explicit small v inside removable, isTable]
  change (canonicalizeTruthTableForLookup x).bind _ = _
  rw [canonicalize_mask _ _ x isTable]
  rfl

theorem retry_stuck (v : Nat) (rest : List Nat) (inside : v < t.size) (independent : Independent t v)
    (stuck : ¬Removable t v) : ∃ e, retry truthTables t (v :: rest) = .error e := by
  obtain ⟨b, result, exact⟩ := hasNoInfluence_exact t explicit small simple v inside
  rw [retry, result, exact.mpr independent]
  change ∃ e, (removeVariable t v).bind _ = _
  cases removed : removeVariable t v with
  | error e => exact ⟨e, rfl⟩
  | ok r =>
      have removes := removes_of_removed t explicit small v inside independent r removed
      exact absurd ((removeVariable_iff t explicit small v inside independent).mp ⟨r, removed, removes⟩) stuck

/-- What the second try ends with: a primitive, nothing, or an exception. -/
theorem retry_some_iff (tries : List Nat) (inside : ∀ v ∈ tries, v < t.size) (sorted : tries.Pairwise (· < ·)) :
    (∃ found, retry truthTables t tries = .ok (some found)) ↔
      ∃ v ∈ tries, Independent t v ∧ Matches truthTables t v ∧ ∀ u ∈ tries, u ≤ v → Independent t u → Removable t u := by
  induction tries with
  | nil => simp [retry]
  | cons i rest ih =>
      have below := inside i List.mem_cons_self
      obtain ⟨least, sortedRest⟩ := List.pairwise_cons.mp sorted
      have later := ih (fun v member => inside v (List.mem_cons_of_mem _ member)) sortedRest
      by_cases independent : Independent t i
      · by_cases removable : Removable t i
        · obtain ⟨x, isTable⟩ := withoutVariable_ok t i removable.1
          rw [retry_removable truthTables t explicit small simple i rest below independent removable x isTable]
          cases found : find truthTables x with
          | some p =>
              refine iff_of_true ⟨_, rfl⟩ ⟨i, List.mem_cons_self, independent, ⟨x, isTable, by rw [found]; rfl⟩, ?_⟩
              intro u member atMost _
              rcases List.mem_cons.mp member with rfl | inRest
              · exact removable
              · exact absurd (least u inRest) (Nat.not_lt.mpr atMost)
          | none =>
              have unmatched : ¬Matches truthTables t i := by
                intro hit
                obtain ⟨x', isTable', some⟩ := hit
                cases isTable.symm.trans isTable'
                rw [found] at some
                cases some
              simp only
              rw [later]
              constructor
              · intro hit
                obtain ⟨v, inRest, free, isMatch, all⟩ := hit
                refine ⟨v, List.mem_cons_of_mem _ inRest, free, isMatch, ?_⟩
                intro u member atMost freeU
                rcases List.mem_cons.mp member with rfl | inRest'
                · exact removable
                · exact all u inRest' atMost freeU
              · intro hit
                obtain ⟨v, member, free, isMatch, all⟩ := hit
                rcases List.mem_cons.mp member with rfl | inRest
                · exact absurd isMatch unmatched
                · exact ⟨v, inRest, free, isMatch, fun u inRest' => all u (List.mem_cons_of_mem _ inRest')⟩
        · obtain ⟨e, result⟩ := retry_stuck truthTables t explicit small simple i rest below independent removable
          rw [result]
          refine iff_of_false (by simp) ?_
          intro hit
          obtain ⟨v, member, -, -, all⟩ := hit
          apply removable
          refine all i List.mem_cons_self ?_ independent
          rcases List.mem_cons.mp member with rfl | inRest
          · exact Nat.le_refl _
          · exact Nat.le_of_lt (least v inRest)
      · rw [retry_dependent truthTables t explicit small simple i rest below independent, later]
        constructor
        · intro hit
          obtain ⟨v, inRest, free, isMatch, all⟩ := hit
          refine ⟨v, List.mem_cons_of_mem _ inRest, free, isMatch, ?_⟩
          intro u member atMost freeU
          rcases List.mem_cons.mp member with rfl | inRest'
          · exact absurd freeU independent
          · exact all u inRest' atMost freeU
        · intro hit
          obtain ⟨v, member, free, isMatch, all⟩ := hit
          rcases List.mem_cons.mp member with rfl | inRest
          · exact absurd free independent
          · exact ⟨v, inRest, free, isMatch, fun u inRest' => all u (List.mem_cons_of_mem _ inRest')⟩

/-- When every removal works, the second try ends. -/
theorem retry_ok (tries : List Nat) (inside : ∀ v ∈ tries, v < t.size)
    (removable : ∀ v ∈ tries, Independent t v → Removable t v) : ∃ result, retry truthTables t tries = .ok result := by
  induction tries with
  | nil => exact ⟨none, rfl⟩
  | cons i rest ih =>
      have below := inside i List.mem_cons_self
      have later := ih (fun v member => inside v (List.mem_cons_of_mem _ member))
        (fun v member => removable v (List.mem_cons_of_mem _ member))
      by_cases independent : Independent t i
      · have here := removable i List.mem_cons_self independent
        obtain ⟨x, isTable⟩ := withoutVariable_ok t i here.1
        rw [retry_removable truthTables t explicit small simple i rest below independent here x isTable]
        cases find truthTables x with
        | some p => exact ⟨_, rfl⟩
        | none => exact later
      · rw [retry_dependent truthTables t explicit small simple i rest below independent]
        exact later

omit explicit small simple in
/-- The other inputs matter for the smaller table exactly when they did before. -/
theorem independent_of_removes (x : SNLTruthTable) (v u : Nat) (inside : v < t.size) (removes : Removes t x v) (apart : u ≠ v) :
    Independent t u ↔ Independent x (if v < u then u - 1 else u) := by
  obtain ⟨size, same⟩ := removes
  have moved (inputs : List Bool) (b : Bool) : (inputs.set u b).eraseIdx v =
      (inputs.eraseIdx v).set (if v < u then u - 1 else u) b := by
    by_cases above : v < u
    · rw [if_pos above, List.eraseIdx_set_lt above]
    · rw [if_neg above, List.eraseIdx_set_gt (by omega)]
  have value (inputs : List Bool) (length : inputs.length = t.size) (b : Bool) :
      evaluate t (inputs.set u b) = evaluate x ((inputs.eraseIdx v).set (if v < u then u - 1 else u) b) := by
    rw [← moved, same _ (by rw [List.length_set, length])]
  constructor
  · intro independent free length
    have longer : (free.insertIdx v false).length = t.size := by
      rw [List.length_insertIdx, if_pos (by omega)]
      omega
    have both := independent _ longer
    rwa [value _ longer, value _ longer, List.eraseIdx_insertIdx_self] at both
  · intro independent inputs length
    rw [value inputs length, value inputs length]
    exact independent _ (by rw [List.length_eraseIdx, if_pos (by omega)]; omega)

theorem settles_iff (tt : SNLTruthTable) (canonical : canonicalizeTruthTableForLookup tt = .ok t) :
    Settles truthTables tt t ↔ SettledByOne truthTables t := by
  have ranged (v : Nat) (member : v ∈ List.range t.size) : v < t.size := List.mem_range.mp member
  by_cases empty : truthTables = []
  · have result : getDesignForTruthTable truthTables tt = .ok none := by
      rw [empty]
      rfl
    have missing : (find truthTables t).isSome = false := by
      rw [empty]
      rfl
    unfold Settles SettledByOne Reached
    rw [result, missing]
    simp [empty]
  · have nonempty : truthTables.isEmpty = false := by simpa using empty
    cases direct : find truthTables t with
    | some p =>
        have result : getDesignForTruthTable truthTables tt = .ok (some (p, [])) := by
          unfold getDesignForTruthTable
          rw [nonempty, if_neg Bool.false_ne_true, canonical]
          change (match find truthTables t with | some p => _ | none => _) = _
          rw [direct]
        exact iff_of_true ⟨_, result, .inl rfl⟩ (.inl (by rw [direct]; rfl))
    | none =>
        have result : getDesignForTruthTable truthTables tt = retry truthTables t (List.range t.size) := by
          unfold getDesignForTruthTable
          rw [nonempty, if_neg Bool.false_ne_true, canonical]
          change (match find truthTables t with | some p => _ | none => _) = _
          rw [direct]
        have found := retry_some_iff truthTables t explicit small simple (List.range t.size) ranged List.pairwise_lt_range
        unfold Settles
        rw [result]
        constructor
        · intro settles
          obtain ⟨outcome, ended, reached⟩ := settles
          cases outcome with
          | some p =>
              obtain ⟨v, member, free, isMatch, all⟩ := found.mp ⟨p, ended⟩
              refine .inr (.inr ⟨empty, .inl ⟨v, ranged v member, free, isMatch, ?_⟩⟩)
              intro u atMost
              exact all u (List.mem_range.mpr (Nat.lt_of_le_of_lt atMost (ranged v member))) atMost
          | none =>
              obtain ⟨x, isReached, allMatter⟩ := reached.resolve_left (by decide)
              rcases isReached with rfl | ⟨-, v, inside, free, removed⟩
              · exact .inr (.inl allMatter)
              · have removes := removes_of_removed t explicit small v inside free x removed
                have removable := (removeVariable_iff t explicit small v inside free).mp ⟨x, removed, removes⟩
                refine .inr (.inr ⟨empty, .inr ⟨v, inside, free, removable, ?_⟩⟩)
                intro u below freeU
                by_contra apart
                refine allMatter (if v < u then u - 1 else u) ?_ ((independent_of_removes t x v u inside removes apart).mp freeU)
                have size := removes.1
                split <;> omega
        · intro settled
          rcases settled with hit | allMatter | ⟨-, ⟨v, inside, free, isMatch, all⟩ | ⟨v, inside, free, removable, only⟩⟩
          · rw [direct] at hit
            cases hit
          · obtain ⟨outcome, ended⟩ := retry_ok truthTables t explicit small simple (List.range t.size) ranged
              (fun v member free => absurd free (allMatter v (ranged v member)))
            exact ⟨outcome, ended, .inr ⟨t, .inl rfl, allMatter⟩⟩
          · obtain ⟨p, ended⟩ := found.mpr
              ⟨v, List.mem_range.mpr inside, free, isMatch, fun u _ atMost freeU => all u atMost freeU⟩
            exact ⟨some p, ended, .inl rfl⟩
          · obtain ⟨outcome, ended⟩ := retry_ok truthTables t explicit small simple (List.range t.size) ranged
              (fun u member freeU => only u (ranged u member) freeU ▸ removable)
            obtain ⟨x, removed, removes⟩ := (removeVariable_iff t explicit small v inside free).mpr removable
            refine ⟨outcome, ended, .inr ⟨x, .inr ⟨empty, v, inside, free, removed⟩, ?_⟩⟩
            intro u below freeU
            have size := removes.1
            by_cases before : u < v
            · have back := (independent_of_removes t x v u inside removes (by omega)).mpr (by rwa [if_neg (by omega)])
              exact absurd (only u (by omega) back) (by omega)
            · have back := (independent_of_removes t x v (u + 1) inside removes (by omega)).mpr (by
                rwa [if_pos (by omega), Nat.add_sub_cancel])
              exact absurd (only (u + 1) (by omega) back) (by omega)

end retry

/-- `hasNoInfluence` is exact where the dependencies are simple, `removeVariable` where the rows fit, and the lookup of
a primitive settles a table where removing one input is enough. -/
theorem influence_iff (t : SNLTruthTable) (explicit : Explicit t) (small : t.size < 32) :
    (∀ v < t.size, (∃ b, hasNoInfluence t v = .ok b ∧ (b = true ↔ Independent t v)) ↔ isSimple t.dependencies = true) ∧
    (∀ v < t.size, Independent t v → ((∃ r, removeVariable t v = .ok r ∧ Removes t r v) ↔ Removable t v)) ∧
    ∃ lookupTT, canonicalizeTruthTableForLookup t = .ok lookupTT ∧
      ∀ truthTables, Settles truthTables t lookupTT ↔ SettledByOne truthTables lookupTT := by
  refine ⟨?_, ?_, ?_⟩
  · intro v inside
    exact hasNoInfluence_iff t explicit small v inside
  · intro v inside independent
    exact removeVariable_iff t explicit small v inside independent
  · obtain ⟨lookupTT, canonical, explicit', size, simple⟩ := canonicalize_explicit t explicit small
    refine ⟨lookupTT, canonical, ?_⟩
    intro truthTables
    exact settles_iff truthTables lookupTT explicit' (size ▸ small) simple t canonical

/-- Input 1 of a table of two inputs does not matter, and it is removed. -/
theorem bufTable_reduced : ∃ t r, ofMask 2 0b1010 (fullDependencies 2) = .ok t ∧ removeVariable t 1 = .ok r ∧
    Removes t r 1 := by
  obtain ⟨t, built, size⟩ : ∃ t, ofMask 2 0b1010 (fullDependencies 2) = .ok t ∧ t.size = 2 := ⟨_, rfl, rfl⟩
  obtain ⟨short, -, -, shape⟩ := ofMask_spec _ _ _ _ built
  have explicit : Explicit t := by
    rw [shape]
    exact ⟨rfl, rfl⟩
  have rows : ∀ free : List Bool, free.length = 1 →
      t.bits.bit (rowIndex (free.insertIdx 1 false)) = t.bits.bit (rowIndex (free.insertIdx 1 true)) := by
    intro free length
    obtain ⟨b, rfl⟩ := List.length_eq_one_iff.mp length
    rw [shape]
    cases b <;> rfl
  have independent : Independent t 1 := (independent_iff t explicit 1 (by omega)).mpr (size ▸ rows)
  have removable : Removable t 1 := by
    refine ⟨by omega, ?_⟩
    intro inputs length _ high
    have short' : (inputs.eraseIdx 1).length ≤ 5 := by
      have bound := List.length_eraseIdx_le inputs 1
      omega
    rw [List.getD_eq_getElem?_getD, List.getElem?_eq_none short'] at high
    cases high
  obtain ⟨r, removed, removes⟩ := ((influence_iff t explicit (by omega)).2.1 1 (by omega) independent).mpr removable
  exact ⟨t, r, built, removed, removes⟩

/-- No input of a constant table of eight inputs matters, and none can be removed. -/
theorem eightInputs_refused : ∃ t, ofVector 8 (List.replicate 256 true) (fullDependencies 8) = .ok t ∧ t.size = 8 ∧
    Explicit t ∧ Independent t 0 ∧ hasNoInfluence t 0 = .ok true ∧ ¬∃ r, removeVariable t 0 = .ok r ∧ Removes t r 0 := by
  obtain ⟨t, built⟩ : ∃ t, ofVector 8 (List.replicate 256 true) (fullDependencies 8) = .ok t :=
    ⟨_, ofVector_eq_ok 8 _ _ (by decide) (by decide) (by rw [countBits_fullDependencies])⟩
  obtain ⟨long, -, -, shape⟩ := ofVector_spec _ _ _ _ built
  have size : t.size = 8 := by rw [shape]
  have explicit : Explicit t := by
    rw [shape]
    exact ⟨rfl, rfl⟩
  have bit (i : Nat) (below : i < 256) : t.bits.bit i = true := by
    rw [shape]
    change (List.replicate 256 true).getD i false = true
    rw [List.getD_eq_getElem?_getD, List.getElem?_replicate, if_pos below]
    rfl
  have independent : Independent t 0 := by
    intro inputs length
    have row (b : Bool) : rowIndex (inputs.set 0 b) < 256 :=
      rowIndex_bound _ 8 (by rw [List.length_set, length, size])
    rw [evaluate_explicit t explicit, evaluate_explicit t explicit, bit _ (row false), bit _ (row true)]
  have simple : isSimple t.dependencies = true := by
    rw [shape]
    exact isSimple_fullDependencies 8
  obtain ⟨b, result, exact⟩ := hasNoInfluence_exact t explicit (by omega) simple 0 (by omega)
  refine ⟨t, built, size, explicit, independent, exact.mpr independent ▸ result, ?_⟩
  intro found
  have removable := (removeVariable_iff t explicit (by omega) 0 (by omega) independent).mp found
  have few := removable.1
  omega

end Naja.GateReduction
