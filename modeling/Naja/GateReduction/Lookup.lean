import Naja.TruthTable.Cofactor
import Naja.TruthTable.LibraryTables
import Naja.Registry.OrderedSet

/-! The primitive of a library for a truth table. A table that no primitive has is tried
once more without one variable it does not depend on. -/

namespace Naja.GateReduction
open TruthTable TruthTable.SNLTruthTable TruthTable.LibraryTables TruthTable.StorageRoundTrip TruthTable.BitDependencies
open Restriction
open Naja.Primitives.PinRoles (rowIndex evaluate)

/-- A primitive with one table for its outputs, over rows or a gate, that reads all its inputs in their order. -/
structure Primitive where
  table : SNLTruthTable
  kind : RowsOrGate table

def Primitive.inputs (p : Primitive) : Nat := p.table.size

abbrev LibraryTruthTables := List (SNLTruthTable × Primitive)

/-- `construct`: primitives by canonical table. The first of several with one table is the one that is found. -/
def construct : List Primitive → Except String LibraryTruthTables
  | [] => .ok []
  | p :: designs =>
      (canonicalizeTruthTableForLookup p.table).bind (fun canonical =>
        (construct designs).map (fun truthTables => (canonical, p) :: truthTables))

def find (truthTables : LibraryTruthTables) (table : SNLTruthTable) : Option Primitive :=
  (truthTables.find? (fun entry => entry.1 == table)).map Prod.snd

/-! ### Removing a variable -/

/-- `low | high`: the row without bit `v`. -/
def squeeze (v i : Nat) : Nat := i % 2 ^ v ||| (i / 2) / 2 ^ v * 2 ^ v

def hasNoInfluence (t : SNLTruthTable) (v : Nat) : Except String Bool :=
  (t.getReducedWithConstants [(v, false)]).bind (fun t0 =>
    (t.getReducedWithConstants [(v, true)]).map (fun t1 => t0 == t1))

/-- The rows that are true where variable `v` is false. -/
def rowsWithout (t : SNLTruthTable) (v : Nat) : List Nat :=
  (List.range (oneShiftLeft t.size)).filter (fun i => !i.testBit v && t.bits.bit i)

/-- `1u << ni` is undefined from 32 on, which the tables of 7 variables reach. -/
def removeVariable (t : SNLTruthTable) (v : Nat) : Except String SNLTruthTable :=
  if t.size ≤ v then .error "Index out of range"
  else if (rowsWithout t v).any (fun i => decide (32 ≤ squeeze v i)) then .error "undefined shift"
  else
    ofMask (t.size - 1) ((rowsWithout t v).foldl (fun bits i => bits ||| BitVec.twoPow 64 (squeeze v i)) 0)
      (fullDependencies (t.size - 1))

/-- The loop of the second try. -/
def retry (truthTables : LibraryTruthTables) (lookupTT : SNLTruthTable) :
    List Nat → Except String (Option (Primitive × List Nat))
  | [] => .ok none
  | i :: rest =>
      (hasNoInfluence lookupTT i).bind (fun free =>
        if free then
          (removeVariable lookupTT i).bind (fun reducedTT =>
            (canonicalizeTruthTableForLookup reducedTT).bind (fun canonical =>
              match find truthTables canonical with
              | some p => .ok (some (p, [i]))
              | none => retry truthTables lookupTT rest))
        else retry truthTables lookupTT rest)

def getDesignForTruthTable (truthTables : LibraryTruthTables) (tt : SNLTruthTable) :
    Except String (Option (Primitive × List Nat)) :=
  if truthTables.isEmpty then .ok none
  else
    (canonicalizeTruthTableForLookup tt).bind (fun lookupTT =>
      match find truthTables lookupTT with
      | some p => .ok (some (p, []))
      | none => retry truthTables lookupTT (List.range lookupTT.size))

/-! ### What is found stands for the table -/

theorem testBit_squeeze (v i j : Nat) : (squeeze v i).testBit j = i.testBit (if j < v then j else j + 1) := by
  unfold squeeze
  rw [Nat.testBit_or, Nat.testBit_mod_two_pow, Nat.testBit_mul_two_pow, Nat.testBit_div_two_pow, Nat.testBit_div_two]
  by_cases below : j < v
  · rw [if_pos below, decide_eq_true below, decide_eq_false (Nat.not_le.mpr below)]
    simp
  · rw [if_neg below, decide_eq_false below, decide_eq_true (Nat.le_of_not_lt below)]
    rw [show j - v + v + 1 = j + 1 by omega]
    simp

theorem squeeze_rowIndex (v : Nat) (inputs : List Bool) :
    squeeze v (rowIndex inputs) = rowIndex (inputs.eraseIdx v) := by
  apply Nat.eq_of_testBit_eq
  intro j
  rw [testBit_squeeze, testBit_rowIndex, testBit_rowIndex, List.getD_eq_getElem?_getD, List.getD_eq_getElem?_getD,
    List.getElem?_eraseIdx]
  split <;> rfl

/-- Rows that agree at every bit but `v`, where both are false, are one row. -/
theorem squeeze_inj (v i k : Nat) (off : i.testBit v = false) (off' : k.testBit v = false)
    (same : squeeze v i = squeeze v k) : i = k := by
  apply Nat.eq_of_testBit_eq
  intro j
  rcases Nat.lt_trichotomy j v with below | here | above
  · have bit := congrArg (fun n => n.testBit j) same
    simp only [testBit_squeeze, if_pos below] at bit
    exact bit
  · rw [here, off, off']
  · have bit := congrArg (fun n => n.testBit (j - 1)) same
    simp only [testBit_squeeze, if_neg (show ¬ j - 1 < v by omega), show j - 1 + 1 = j by omega] at bit
    exact bit

theorem getLsbD_foldl_twoPow (place : Nat → Nat) (rows : List Nat) (start : BitDependencies.Word) (k : Nat) (inside : k < 64) :
    (rows.foldl (fun bits i => bits ||| BitVec.twoPow 64 (place i)) start).getLsbD k =
      (start.getLsbD k || rows.any (fun i => place i == k)) := by
  induction rows generalizing start with
  | nil => simp
  | cons i rows ih =>
      have bit : (decide (place i < 64) && decide (place i = k)) = (place i == k) := by
        by_cases same : place i = k
        · simp [same, inside]
        · simp [same]
      rw [List.foldl_cons, ih, BitVec.getLsbD_or, BitVec.getLsbD_twoPow, List.any_cons, bit, Bool.or_assoc]

theorem rowIndex_bound (inputs : List Bool) (n : Nat) (length : inputs.length = n) : rowIndex inputs < 2 ^ n :=
  length ▸ rowIndex_lt inputs

/-- A removed variable does not matter where it is false. -/
theorem removeVariable_spec (t r : SNLTruthTable) (v : Nat) (explicit : Explicit t) (small : t.size < 32)
    (removed : removeVariable t v = .ok r) :
    RowsOrGate r ∧ r.size + 1 = t.size ∧ v < t.size ∧ ∀ inputs, inputs.length = t.size → inputs.getD v false = false →
      evaluate r (inputs.eraseIdx v) = evaluate t inputs := by
  unfold removeVariable at removed
  by_cases outside : t.size ≤ v
  · rw [if_pos outside] at removed
    cases removed
  rw [if_neg outside] at removed
  split at removed
  · cases removed
  obtain ⟨short, few, -, shape⟩ := ofMask_spec _ _ _ _ removed
  have rows := oneShiftLeft_eq (t.size - 1) (by omega)
  refine ⟨Or.inl ⟨?_, ?_⟩, ?_, by omega, fun inputs length off => ?_⟩
  · rw [shape]
    exact ⟨rows, rfl⟩
  · rw [shape]
    change t.size - 1 < 32
    omega
  · rw [shape]
    change t.size - 1 + 1 = t.size
    omega
  have erased : (inputs.eraseIdx v).length = t.size - 1 := by
    rw [List.length_eraseIdx, if_pos (by omega), length]
  have bound := rowIndex_bound _ _ erased
  have bound64 : rowIndex (inputs.eraseIdx v) < 64 := by
    have word := (pow_le_64 (t.size - 1)).mpr few
    omega
  have ownBound := rowIndex_bound inputs _ length
  have type : r.genericType = .NONE := by rw [shape]
  unfold evaluate
  rw [type, explicit.type]
  refine congrArg some ?_
  have bit : r.bits.bit (rowIndex (inputs.eraseIdx v)) = (rowsWithout t v).any (fun i => squeeze v i == rowIndex (inputs.eraseIdx v)) := by
    rw [shape]
    unfold NLBitVecDynamic.bit
    simp only
    rw [getLsbD_foldl_twoPow _ _ _ _ bound64]
    simp
  rw [bit, Bool.eq_iff_iff, List.any_eq_true]
  constructor
  · rintro ⟨i, mem, same⟩
    obtain ⟨-, isRow⟩ := List.mem_filter.mp mem
    rw [Bool.and_eq_true, Bool.not_eq_true'] at isRow
    rw [beq_iff_eq, ← squeeze_rowIndex] at same
    have here := squeeze_inj v i (rowIndex inputs) isRow.1 (by rw [testBit_rowIndex, off]) same
    exact here ▸ isRow.2
  · intro value
    refine ⟨rowIndex inputs, List.mem_filter.mpr ⟨?_, ?_⟩, by rw [squeeze_rowIndex, beq_self_eq_true]⟩
    · rw [oneShiftLeft_eq t.size small]
      exact List.mem_range.mpr ownBound
    · rw [testBit_rowIndex, off, value]
      rfl

theorem canonicalize_spec (t c : SNLTruthTable) (kind : RowsOrGate t)
    (canonical : canonicalizeTruthTableForLookup t = .ok c) :
    RowsOrGate c ∧ c.size = t.size ∧ isSimple c.dependencies = true ∧
      ∀ inputs, inputs.length = t.size → evaluate c inputs = evaluate t inputs := by
  unfold canonicalizeTruthTableForLookup at canonical
  simp only at canonical
  rcases kind with ⟨explicit, small⟩ | ⟨gate, bound⟩
  · have plain : t.isGeneric = false := by
      unfold isGeneric
      rw [explicit.type]
      rfl
    rw [plain, if_neg Bool.false_ne_true] at canonical
    have rows := oneShiftLeft_eq t.size small
    have same (bit : ∀ i < 2 ^ t.size, c.bits.bit i = t.bits.bit i) (type : c.genericType = .NONE) (inputs : List Bool)
        (length : inputs.length = t.size) : evaluate c inputs = evaluate t inputs := by
      unfold evaluate
      rw [type, explicit.type]
      exact congrArg some (bit _ (rowIndex_bound inputs _ length))
    split at canonical
    · next few =>
        obtain ⟨short, -, -, shape⟩ := ofMask_spec _ _ _ _ canonical
        have type : c.genericType = .NONE := by rw [shape]
        refine ⟨Or.inl ⟨?_, by rw [shape]; exact small⟩, by rw [shape], by rw [shape]; exact isSimple_fullDependencies _,
          fun inputs length => same ?_ type inputs length⟩
        · rw [shape]
          exact ⟨rows, rfl⟩
        · intro i inside
          rw [shape]
          have kind := t.bits.kind
          have word := (pow_le_64 t.size).mpr few
          unfold NLBitVecDynamic.bit NLBitVecDynamic.getChunks
          cases data : t.bits.data with
          | mask value => rfl
          | vector bits =>
              rw [data] at kind
              simp [BitData.isMask, explicit.rows] at kind
              omega
    · obtain ⟨long, -, -, shape⟩ := ofVector_spec _ _ _ _ canonical
      have type : c.genericType = .NONE := by rw [shape]
      refine ⟨Or.inl ⟨?_, by rw [shape]; exact small⟩, by rw [shape], by rw [shape]; exact isSimple_fullDependencies _,
        fun inputs length => same ?_ type inputs length⟩
      · rw [shape]
        exact ⟨rows, rfl⟩
      · intro i inside
        rw [shape]
        simp [NLBitVecDynamic.bit, explicit.rows, inside]
  · have type := gate.type
    have generic : t.isGeneric = true := by
      unfold isGeneric
      rw [bne_iff_ne]
      intro same
      rw [same] at type
      exact absurd type (by decide)
    rw [if_pos generic] at canonical
    obtain ⟨r, built, sameType, noRows, size, dependencies⟩ := ofGeneric_gate t.size t.genericType type
    cases built.symm.trans canonical
    rw [Nat.mod_eq_of_lt bound] at size
    refine ⟨Or.inr ⟨⟨sameType ▸ type, noRows⟩, size ▸ bound⟩, size, by rw [dependencies]; exact isSimple_fullDependencies _,
      fun inputs _ => ?_⟩
    rw [evaluate_gate c (sameType ▸ type), evaluate_gate t type, sameType]

/-- Fixing one input. -/
theorem fill_one (start v : Nat) (value : Bool) (inputs : List Bool) (inside : v < inputs.length) :
    fill ((List.range' start inputs.length).map (valueAt [(start + v, value)])) (inputs.eraseIdx v) = inputs.set v value := by
  induction inputs generalizing start v with
  | nil => cases inside
  | cons b rest ih =>
      rw [List.length_cons, List.range'_succ, List.map_cons]
      cases v with
      | zero =>
          have known : valueAt [(start + 0, value)] start = some value := by simp [valueAt]
          have unknown : (List.range' (start + 1) rest.length).map (valueAt [(start + 0, value)]) =
              List.replicate rest.length none := by
            rw [List.eq_replicate_iff]
            refine ⟨by simp, fun entry mem => ?_⟩
            obtain ⟨i, inRange, rfl⟩ := List.mem_map.mp mem
            rw [List.mem_range'_1] at inRange
            have apart : start ≠ i := by omega
            simp [valueAt, apart]
          rw [known, unknown, List.eraseIdx_cons_zero]
          exact congrArg (value :: ·) (fill_nothing rest)
      | succ v =>
          have unknown : valueAt [(start + (v + 1), value)] start = none := by simp [valueAt]
          have shifted : start + (v + 1) = start + 1 + v := by omega
          rw [unknown, List.eraseIdx_cons_succ, shifted]
          exact congrArg (b :: ·) (ih (start + 1) v (Nat.lt_of_succ_lt_succ inside))

theorem cofactor_one (f : List Bool → Bool) (n v : Nat) (value : Bool) (inputs : List Bool) (length : inputs.length = n)
    (inside : v < n) : cofactor f n [(v, value)] (inputs.eraseIdx v) = f (inputs.set v value) := by
  have filled := fill_one 0 v value inputs (length ▸ inside)
  rw [Nat.zero_add, length, ← List.range_eq_range'] at filled
  exact congrArg f filled

/-- The same reductions by both values are the same functions. -/
theorem hasNoInfluence_spec (t : SNLTruthTable) (kind : RowsOrGate t) (simple : isSimple t.dependencies = true) (v : Nat)
    (inside : v < t.size) (free : hasNoInfluence t v = .ok true) (inputs : List Bool) (length : inputs.length = t.size) :
    evaluate t (inputs.set v false) = evaluate t (inputs.set v true) := by
  have own : Denotes t t.size (tableFunction t) :=
    .table kind simple rfl (fun inputs _ => evaluate_rowsOrGate t kind inputs)
  have reduce (value : Bool) : ∃ r, t.getReducedWithConstants [(v, value)] = .ok r ∧
      Denotes r (t.size - 1) (cofactor (tableFunction t) t.size [(v, value)]) := by
    apply own.reduce t _ _ [(v, value)]
    refine ⟨List.nodup_singleton _, fun c mem => ?_⟩
    rw [List.mem_singleton.mp mem]
    exact List.mem_range.mpr inside
  obtain ⟨t0, reduced0, denotes0⟩ := reduce false
  obtain ⟨t1, reduced1, denotes1⟩ := reduce true
  unfold hasNoInfluence at free
  rw [reduced0, reduced1] at free
  have same : t0 = t1 := beq_iff_eq.mp (Except.ok.inj free)
  have shorter : (inputs.eraseIdx v).length = t.size - 1 := by
    rw [List.length_eraseIdx, if_pos (by omega), length]
  have values := denotes0.denotation_eq t0 _ _ (inputs.eraseIdx v) shorter
  rw [same, denotes1.denotation_eq t1 _ _ (inputs.eraseIdx v) shorter, cofactor_one _ _ _ _ _ length inside,
    cofactor_one _ _ _ _ _ length inside] at values
  rw [evaluate_rowsOrGate t kind, evaluate_rowsOrGate t kind, values]

/-- Every input of a gate matters, where the others are neutral. -/
theorem gate_influence (t : SNLTruthTable) (gate : IsGate t) (v : Nat) (inside : v < t.size) :
    ∃ inputs : List Bool, inputs.length = t.size ∧ evaluate t (inputs.set v false) ≠ evaluate t (inputs.set v true) := by
  have type := gate.type
  have neutral (b : Bool) : (List.replicate t.size b).length = t.size := List.length_replicate
  have others (b value : Bool) : ((List.replicate t.size b).set v value).Perm (value :: List.replicate (t.size - 1) b) := by
    have perm := List.set_perm_cons_eraseIdx (a := value) (by rw [neutral b]; exact inside)
    rwa [List.eraseIdx_replicate, if_pos inside] at perm
  have values (b value : Bool) : evaluate t ((List.replicate t.size b).set v value) =
      some (gateFunction t.genericType (value :: List.replicate (t.size - 1) b)) := by
    rw [evaluate_gate t type, gateFunction_perm _ _ _ (others b value)]
  have matters (b : Bool) (apart : gateFunction t.genericType (false :: List.replicate (t.size - 1) b) ≠
      gateFunction t.genericType (true :: List.replicate (t.size - 1) b)) :
      ∃ inputs : List Bool, inputs.length = t.size ∧ evaluate t (inputs.set v false) ≠ evaluate t (inputs.set v true) := by
    refine ⟨List.replicate t.size b, neutral b, ?_⟩
    rw [values, values]
    exact fun same => apart (Option.some.inj same)
  simp only [List.mem_cons, List.not_mem_nil, or_false] at type
  rcases type with type | type | type | type | type | type
  · exact matters true (by rw [type]; simp [gateFunction])
  · exact matters true (by rw [type]; simp [gateFunction])
  · exact matters false (by rw [type]; simp [gateFunction])
  · exact matters false (by rw [type]; simp [gateFunction])
  · exact matters false (by rw [type]; simp [gateFunction, List.countP_replicate])
  · exact matters false (by rw [type]; simp [gateFunction, List.countP_replicate])

/-- An entry of the tables of a library is a primitive under its canonical table. -/
theorem mem_construct (designs : List Primitive) (truthTables : LibraryTruthTables)
    (constructed : construct designs = .ok truthTables) (entry : SNLTruthTable × Primitive) (mem : entry ∈ truthTables) :
    canonicalizeTruthTableForLookup entry.2.table = .ok entry.1 := by
  induction designs generalizing truthTables with
  | nil =>
      cases constructed
      cases mem
  | cons p designs ih =>
      unfold construct at constructed
      cases canonical : canonicalizeTruthTableForLookup p.table with
      | error e =>
          rw [canonical] at constructed
          cases constructed
      | ok c =>
          rw [canonical] at constructed
          cases later : construct designs with
          | error e =>
              rw [later] at constructed
              cases constructed
          | ok rest =>
              rw [later] at constructed
              cases constructed
              rcases List.mem_cons.mp mem with rfl | mem
              · exact canonical
              · exact ih rest later mem

/-- A primitive stands for a table with some of the inputs of the table left out. -/
def StandsFor (p : Primitive) (t : SNLTruthTable) (indexes : List Nat) : Prop :=
  (indexes = [] ∧ p.inputs = t.size ∧ ∀ inputs, inputs.length = t.size → evaluate p.table inputs = evaluate t inputs) ∨
    ∃ v, indexes = [v] ∧ v < t.size ∧ p.inputs + 1 = t.size ∧ ∀ inputs, inputs.length = t.size →
      evaluate p.table (inputs.eraseIdx v) = evaluate t inputs

section found
variable (designs : List Primitive) (truthTables : LibraryTruthTables) (constructed : construct designs = .ok truthTables)
include constructed

theorem find_spec (table : SNLTruthTable) (p : Primitive) (found : find truthTables table = some p) :
    p.inputs = table.size ∧ ∀ inputs, inputs.length = table.size → evaluate p.table inputs = evaluate table inputs := by
  obtain ⟨entry, isEntry, rfl⟩ := Option.map_eq_some_iff.mp found
  have met := List.find?_some isEntry
  have canonical := mem_construct designs truthTables constructed entry (List.mem_of_find?_eq_some isEntry)
  rw [beq_iff_eq.mp met] at canonical
  obtain ⟨-, size, -, same⟩ := canonicalize_spec entry.2.table table entry.2.kind canonical
  exact ⟨size.symm, fun inputs length => (same inputs (length.trans size)).symm⟩

theorem retry_spec (lookupTT : SNLTruthTable) (kind : RowsOrGate lookupTT) (simple : isSimple lookupTT.dependencies = true)
    (tries : List Nat) (inside : ∀ v ∈ tries, v < lookupTT.size) (p : Primitive) (indexes : List Nat)
    (found : retry truthTables lookupTT tries = .ok (some (p, indexes))) : StandsFor p lookupTT indexes := by
  induction tries with
  | nil => cases found
  | cons v tries ih =>
      have later := ih (fun v mem => inside v (List.mem_cons_of_mem _ mem))
      have bound := inside v List.mem_cons_self
      unfold retry at found
      obtain ⟨free, isFree, found⟩ := (Registry.bind_eq_ok _ _ _).mp found
      cases free with
      | false => exact later found
      | true =>
          have unused := hasNoInfluence_spec lookupTT kind simple v bound isFree
          have rows : Explicit lookupTT ∧ lookupTT.size < 32 := by
            rcases kind with rows | ⟨gate, -⟩
            · exact rows
            · obtain ⟨inputs, length, apart⟩ := gate_influence lookupTT gate v bound
              exact absurd (unused inputs length) apart
          rw [if_pos rfl] at found
          obtain ⟨reducedTT, removed, found⟩ := (Registry.bind_eq_ok _ _ _).mp found
          obtain ⟨canonical, isCanonical, found⟩ := (Registry.bind_eq_ok _ _ _).mp found
          obtain ⟨reducedKind, size, -, same⟩ := removeVariable_spec lookupTT reducedTT v rows.1 rows.2 removed
          obtain ⟨-, canonicalSize, -, canonicalSame⟩ := canonicalize_spec reducedTT canonical reducedKind isCanonical
          cases isFound : find truthTables canonical with
          | none =>
              rw [isFound] at found
              exact later found
          | some q =>
              rw [isFound, Except.ok.injEq, Option.some.injEq, Prod.mk.injEq] at found
              obtain ⟨rfl, rfl⟩ := found
              obtain ⟨pins, values⟩ := find_spec designs truthTables constructed canonical q isFound
              refine .inr ⟨v, rfl, bound, by omega, fun inputs length => ?_⟩
              have erased : (inputs.eraseIdx v).length = reducedTT.size := by
                rw [List.length_eraseIdx, if_pos (by omega), length]
                omega
              have atFalse := same (inputs.set v false) (by rw [List.length_set, length])
                (by simp [List.getD_eq_getElem?_getD, length, bound])
              rw [List.eraseIdx_set_eq] at atFalse
              rw [values _ (erased.trans canonicalSize.symm), canonicalSame _ erased, atFalse]
              have own : inputs.set v inputs[v] = inputs := List.set_getElem_self _
              cases value : inputs[v] with
              | false => rw [← value, own]
              | true => rw [unused inputs length, ← value, own]

/-- The primitive found for a table stands for it. -/
theorem getDesignForTruthTable_spec (tt : SNLTruthTable) (kind : RowsOrGate tt) (p : Primitive) (indexes : List Nat)
    (found : getDesignForTruthTable truthTables tt = .ok (some (p, indexes))) : StandsFor p tt indexes := by
  unfold getDesignForTruthTable at found
  split at found
  · cases found
  obtain ⟨lookupTT, canonical, found⟩ := (Registry.bind_eq_ok _ _ _).mp found
  obtain ⟨lookupKind, size, simple, same⟩ := canonicalize_spec tt lookupTT kind canonical
  cases isFound : find truthTables lookupTT with
  | some q =>
      rw [isFound, Except.ok.injEq, Option.some.injEq, Prod.mk.injEq] at found
      obtain ⟨rfl, rfl⟩ := found
      obtain ⟨pins, values⟩ := find_spec designs truthTables constructed lookupTT q isFound
      exact .inl ⟨rfl, pins.trans size, fun inputs length => by rw [values _ (length.trans size.symm), same _ length]⟩
  | none =>
      rw [isFound] at found
      rcases retry_spec designs truthTables constructed lookupTT lookupKind simple _ (fun v mem => List.mem_range.mp mem)
        p indexes found with ⟨none, pins, values⟩ | ⟨v, one, bound, pins, values⟩
      · exact .inl ⟨none, pins.trans size, fun inputs length => by rw [values _ (length.trans size.symm), same _ length]⟩
      · exact .inr ⟨v, one, size ▸ bound, pins.trans size, fun inputs length => by
          rw [values _ (length.trans size.symm), same _ length]⟩

end found

end Naja.GateReduction
