import Naja.Restriction.Fill
import Naja.TruthTable.ReductionSound

/-! Reduction by constant inputs is Boolean cofactoring, for explicit tables and
for gates, and reducing in several rounds is reducing in one. -/

namespace Naja.TruthTable
open BitDependencies
open Naja.Primitives.PinRoles (rowIndex evaluate gateValue)
open SNLTruthTable StorageRoundTrip
open Restriction

/-! ### Full dependencies -/

theorem flatMap_blocks (blocks : List BitDependencies.Word) :
    blocks.flatMap (fun block => (List.range 64).map block.getLsbD) =
      (List.range (64 * blocks.length)).map (testBlocks blocks) := by
  induction blocks with
  | nil => rfl
  | cons block rest ih =>
      rw [List.flatMap_cons, ih, List.length_cons, show 64 * (rest.length + 1) = 64 + 64 * rest.length by omega,
        List.range_add, List.map_append, List.map_map]
      have first : (List.range 64).map block.getLsbD = (List.range 64).map (testBlocks (block :: rest)) := by
        refine List.map_congr_left (fun i member => ?_)
        have inside := List.mem_range.mp member
        rw [testBlocks, Nat.div_eq_of_lt inside, Nat.mod_eq_of_lt inside]
        rfl
      rw [first]
      refine congrArg _ (List.map_congr_left (fun i _ => ?_))
      change testBlocks rest i = testBlocks (block :: rest) (64 + i)
      rw [testBlocks, testBlocks, show (64 + i) / 64 = i / 64 + 1 by omega, show (64 + i) % 64 = i % 64 by omega]
      rfl

theorem noHoles_below (n start length : Nat) (foundZero : Bool) (found : foundZero → n ≤ start) :
    noHoles foundZero ((List.range' start length).map (fun i => decide (i < n))) = true := by
  induction length generalizing start foundZero with
  | zero => rfl
  | succ length ih =>
      rw [List.range'_succ, List.map_cons, noHoles]
      by_cases below : start < n
      · have clear : foundZero = false := by
          cases foundZero with
          | false => rfl
          | true => exact absurd (found rfl) (by omega)
        simp only [below, decide_true, if_true, clear, Bool.not_false, Bool.true_and]
        exact ih (start + 1) false (fun given => (nomatch given))
      · simp only [below, decide_false, Bool.false_eq_true, if_false]
        exact ih (start + 1) true (fun _ => by omega)

theorem isSimple_fullDependencies (n : Nat) : isSimple (fullDependencies n) = true := by
  have tests : testBlocks (fullDependencies n) = fun i => decide (i < n) := by
    funext i
    rw [fullDependencies, testBlocks_encodeBits]
    simp
  rw [isSimple, flatMap_blocks, tests, List.range_eq_range']
  exact noHoles_below n 0 _ false (fun given => (nomatch given))

theorem countBits_fullDependencies (n : Nat) : countBitsForVector (fullDependencies n) = n := by
  have decoded := decodeBits_encodeBits_eq (List.range n) (List.range n) List.pairwise_lt_range (fun _ => Iff.rfl)
  rw [← length_decodeBits, fullDependencies, decoded, List.length_range]

/-! ### What a table denotes -/

def gateTypes : List GenericType := [.AND, .NAND, .OR, .NOR, .XOR, .XNOR]

/-- The tables over rows and the gates, as the constructors build them. -/
inductive Built : SNLTruthTable → Prop where
  | mask (size : Nat) (bits : BitDependencies.Word) (dependencies : List BitDependencies.Word) (t : SNLTruthTable)
      (built : ofMask size bits dependencies = .ok t) : Built t
  | vector (size : Nat) (bits : List Bool) (dependencies : List BitDependencies.Word) (t : SNLTruthTable)
      (built : ofVector size bits dependencies = .ok t) : Built t
  | gate (size : Nat) (type : GenericType) (dependencies : List BitDependencies.Word) (t : SNLTruthTable)
      (isGate : type ∈ gateTypes) (built : ofGeneric size type dependencies 0 0 = .ok t) : Built t

/-- A table over rows, or a gate. -/
def RowsOrGate (t : SNLTruthTable) : Prop := Explicit t ∧ t.size < 32 ∨ IsGate t ∧ t.size < 2 ^ 32

theorem Built.rowsOrGate (t : SNLTruthTable) (built : Built t) : RowsOrGate t := by
  cases built with
  | mask size bits dependencies _ built =>
      obtain ⟨short, small, -, rfl⟩ := ofMask_spec size bits dependencies t built
      exact Or.inl ⟨⟨oneShiftLeft_eq size (by omega), rfl⟩, by change size < 32; omega⟩
  | vector size bits dependencies _ built =>
      obtain ⟨long, -, -, rfl⟩ := ofVector_spec size bits dependencies t built
      have small := small_of_oneShiftLeft size (by omega)
      exact Or.inl ⟨⟨oneShiftLeft_eq size small, rfl⟩, small⟩
  | gate size type dependencies _ isGate built =>
      obtain ⟨noRows, same, width⟩ := ofGeneric_noRows size type dependencies 0 0 t built
      refine Or.inr ⟨⟨same ▸ isGate, noRows⟩, ?_⟩
      rw [width]
      exact Nat.mod_lt _ (by decide)

/-- The function of a table on a list of its inputs. -/
def tableFunction (t : SNLTruthTable) (inputs : List Bool) : Bool := (evaluate t inputs).getD false

def constantTable (value : Bool) : SNLTruthTable := if value then Logic1 else Logic0

/-- The table stands for a function of `n` inputs: it is the constant the function is, or a table
over these inputs. -/
inductive Denotes (t : SNLTruthTable) (n : Nat) (f : List Bool → Bool) : Prop where
  | constant (value : Bool) (table : t = constantTable value) (function : ∀ inputs, inputs.length = n → f inputs = value)
  | table (kind : RowsOrGate t) (simple : isSimple t.dependencies = true) (size : t.size = n)
      (function : ∀ inputs, inputs.length = n → evaluate t inputs = some (f inputs))

/-- The value of a table on `n` inputs; a constant table reads none of them. -/
def denotation (t : SNLTruthTable) (inputs : List Bool) : Bool :=
  if t.size = 0 then tableFunction t [] else tableFunction t inputs

theorem Denotes.denotation_eq (t : SNLTruthTable) (n : Nat) (f : List Bool → Bool) (denotes : Denotes t n f)
    (inputs : List Bool) (length : inputs.length = n) : denotation t inputs = f inputs := by
  cases denotes with
  | constant value table function =>
      rw [table, function inputs length]
      cases value <;> rfl
  | table kind simple size function =>
      unfold denotation tableFunction
      split
      · next empty =>
          have none : inputs = [] := List.length_eq_zero_iff.mp (by omega)
          rw [← none, function inputs length]
          rfl
      · rw [function inputs length]
        rfl

theorem evaluate_rowsOrGate (t : SNLTruthTable) (kind : RowsOrGate t) (inputs : List Bool) :
    evaluate t inputs = some (tableFunction t inputs) := by
  have defined : (evaluate t inputs).isSome := by
    unfold evaluate
    rcases kind with ⟨rows, -⟩ | ⟨gate, -⟩
    · rw [rows.type]
      rfl
    · have type := gate.type
      simp only [List.mem_cons, List.not_mem_nil, or_false] at type
      rcases type with type | type | type | type | type | type <;> rw [type] <;> rfl
  obtain ⟨value, found⟩ := Option.isSome_iff_exists.mp defined
  rw [tableFunction, found]
  rfl

/-! ### Gates -/

/-- The gate of a type on its inputs. -/
def gateFunction : GenericType → List Bool → Bool
  | .AND, inputs => inputs.all id
  | .NAND, inputs => !inputs.all id
  | .OR, inputs => inputs.any id
  | .NOR, inputs => !inputs.any id
  | .XOR, inputs => inputs.countP id % 2 != 0
  | .XNOR, inputs => !(inputs.countP id % 2 != 0)
  | _, _ => false

theorem evaluate_gate (t : SNLTruthTable) (type : t.genericType ∈ gateTypes) (inputs : List Bool) :
    evaluate t inputs = some (gateFunction t.genericType inputs) := by
  unfold evaluate
  simp only [gateTypes, List.mem_cons, List.not_mem_nil, or_false] at type
  rcases type with type | type | type | type | type | type
  · rw [type]; rfl
  · rw [type]; rfl
  · rw [type]; rfl
  · rw [type]; rfl
  · rw [type]
    simp [gateValue, gateFunction, foldl_xor]
  · rw [type]
    simp [gateValue, gateFunction, foldl_xor]

/-- Only how many inputs are true and false matters to a gate. -/
theorem gateFunction_perm (type : GenericType) (inputs other : List Bool) (perm : inputs.Perm other) :
    gateFunction type inputs = gateFunction type other := by
  have all : inputs.all id = other.all id := perm.all_eq
  have any : inputs.any id = other.any id := perm.any_eq
  have count : inputs.countP id = other.countP id := perm.countP_eq id
  cases type <;> simp only [gateFunction, all, any, count]

theorem ofGeneric_gate (n : Nat) (type : GenericType) (isGate : type ∈ gateTypes) :
    ∃ t, ofGeneric n type (fullDependencies n) 0 0 = .ok t ∧ t.genericType = type ∧ t.bits.nbits = 0 ∧
      t.size = n % 2 ^ 32 ∧ t.dependencies = fullDependencies n := by
  have count : ¬ (0 < n ∧ n < countBitsForVector (fullDependencies n)) := by
    rw [countBits_fullDependencies]
    omega
  simp only [gateTypes, List.mem_cons, List.not_mem_nil, or_false] at isGate
  rcases isGate with rfl | rfl | rfl | rfl | rfl | rfl <;>
    exact ⟨_, by rw [ofGeneric, checkDependencyCount, if_neg count]; rfl, rfl, rfl, rfl, rfl⟩

theorem parity_add (a b : Nat) : ((a + b) % 2 != 0) = ((a % 2 != 0) ^^ (b % 2 != 0)) := by
  rcases Nat.mod_two_eq_zero_or_one a with first | first <;>
    rcases Nat.mod_two_eq_zero_or_one b with second | second <;> simp [Nat.add_mod, first, second]

/-- What is left of a gate, where the value without inputs is the one of the type. -/
theorem smallerGate_denotes (n : Nat) (type : GenericType) (inverted : Bool) (isGate : type ∈ gateTypes)
    (bound : n < 2 ^ 32) (empty : n = 0 → gateFunction type [] = inverted)
    (single : ∀ b, gateFunction type [b] = (b ^^ inverted)) :
    ∃ r, smallerGate n type inverted = .ok r ∧ Denotes r n (gateFunction type) := by
  unfold smallerGate
  split
  · next zero =>
      refine ⟨_, rfl, .constant inverted (by cases inverted <;> rfl) (fun inputs length => ?_)⟩
      rw [List.length_eq_zero_iff.mp (length.trans zero), empty zero]
  · split
    · next one =>
        subst one
        have rows (t : SNLTruthTable) (isWire : t = SNLTruthTable.Inv ∨ t = Buf) : RowsOrGate t ∧ isSimple t.dependencies = true ∧
            t.size = 1 := by
          rcases isWire with rfl | rfl
          · exact ⟨Or.inl ⟨⟨rfl, rfl⟩, by decide⟩, isSimple_fullDependencies 1, rfl⟩
          · exact ⟨Or.inl ⟨⟨rfl, rfl⟩, by decide⟩, isSimple_fullDependencies 1, rfl⟩
        cases inverted with
        | true =>
            obtain ⟨kind, simple, size⟩ := rows SNLTruthTable.Inv (Or.inl rfl)
            refine ⟨SNLTruthTable.Inv, rfl, .table kind simple size (fun inputs length => ?_)⟩
            obtain ⟨b, rfl⟩ := List.length_eq_one_iff.mp length
            rw [single]
            cases b <;> decide
        | false =>
            obtain ⟨kind, simple, size⟩ := rows Buf (Or.inr rfl)
            refine ⟨Buf, rfl, .table kind simple size (fun inputs length => ?_)⟩
            obtain ⟨b, rfl⟩ := List.length_eq_one_iff.mp length
            rw [single]
            cases b <;> decide
    · obtain ⟨t, built, same, noRows, size, dependencies⟩ := ofGeneric_gate n type isGate
      rw [Nat.mod_eq_of_lt bound] at size
      refine ⟨t, built, .table (Or.inr ⟨⟨same ▸ isGate, noRows⟩, size ▸ bound⟩) ?_ size (fun inputs _ => ?_)⟩
      · rw [dependencies]
        exact isSimple_fullDependencies n
      · rw [evaluate_gate t (same ▸ isGate), same]

theorem Denotes.congr (t : SNLTruthTable) (n : Nat) (f g : List Bool → Bool) (denotes : Denotes t n f)
    (same : ∀ inputs, inputs.length = n → f inputs = g inputs) : Denotes t n g := by
  cases denotes with
  | constant value table function =>
      exact .constant value table (fun inputs length => (same inputs length).symm.trans (function inputs length))
  | table kind simple size function =>
      refine .table kind simple size (fun inputs length => ?_)
      rw [← same inputs length]
      exact function inputs length

/-- The function with some inputs fixed, on the inputs that are left. -/
def cofactor (f : List Bool → Bool) (n : Nat) (idxConsts : ConstantInputs) (free : List Bool) : Bool :=
  f (fill (knownAt (List.range n) idxConsts) free)

theorem cofactor_nil (f : List Bool → Bool) (n : Nat) (inputs : List Bool) (length : inputs.length = n) :
    cofactor f n [] inputs = f inputs := by
  have nothing : knownAt (List.range n) ([] : ConstantInputs) = List.replicate inputs.length none := by
    rw [List.eq_replicate_iff]
    refine ⟨by rw [knownAt, List.length_map, List.length_range, length], fun entry member => ?_⟩
    obtain ⟨position, -, same⟩ := List.mem_map.mp member
    exact same.symm
  rw [cofactor, nothing, fill_nothing]

section reduction
variable (t : SNLTruthTable) (idxConsts : ConstantInputs) (fixes : Fixes (List.range t.size) idxConsts)
include fixes

theorem length_fixes : (remaining (List.range t.size) idxConsts).length = t.size - idxConsts.length := by
  have total := length_remaining (List.range t.size) idxConsts List.nodup_range fixes
  rw [List.length_range] at total
  omega

theorem indexes_inRange : idxConsts.any (fun c => decide (t.size ≤ c.1)) = false := by
  rw [List.any_eq_false]
  intro c member
  have inside := List.mem_range.mp (fixes.inside c member)
  simp only [decide_eq_true_eq]
  omega

/-- A gate on the filled inputs is the gate on the constants and the others. -/
theorem gateFunction_fill (type : GenericType) (free : List Bool) (length : free.length = t.size - idxConsts.length) :
    gateFunction type (fill (knownAt (List.range t.size) idxConsts) free) =
      gateFunction type (idxConsts.map Prod.snd ++ free) := by
  have enough : free.length = unknowns (knownAt (List.range t.size) idxConsts) := by
    rw [unknowns_knownAt, length_fixes t idxConsts fixes, length]
  refine gateFunction_perm type _ _ ((fill_perm _ free enough).trans ?_)
  exact (values_perm (List.range t.size) idxConsts List.nodup_range fixes).append_right free

theorem gate_cofactor (gate : IsGate t) (bound : t.size < 2 ^ 32) (simple : isSimple t.dependencies = true)
    (positive : t.size ≠ 0) (some_ : idxConsts ≠ []) :
    ∃ r, t.getReducedWithConstants idxConsts = .ok r ∧
      Denotes r (t.size - idxConsts.length) (cofactor (gateFunction t.genericType) t.size idxConsts) := by
  let n := t.size - idxConsts.length
  have small : n < 2 ^ 32 := by omega
  have onAll (type : GenericType) (same : t.genericType = type) (r : SNLTruthTable)
      (denotes : Denotes r n (fun free => gateFunction type (idxConsts.map Prod.snd ++ free))) :
      Denotes r n (cofactor (gateFunction t.genericType) t.size idxConsts) := by
    refine denotes.congr r n _ _ (fun free length => ?_)
    rw [cofactor, same, gateFunction_fill t idxConsts fixes type free length]
  have fixed (type : GenericType) (value : Bool)
      (function : ∀ free, gateFunction type (idxConsts.map Prod.snd ++ free) = value) :
      Denotes (constantTable value) n (fun free => gateFunction type (idxConsts.map Prod.snd ++ free)) :=
    .constant value rfl (fun free _ => function free)
  have left (type other : GenericType) (inverted : Bool) (isGate : other ∈ gateTypes)
      (empty : n = 0 → gateFunction other [] = inverted) (single : ∀ b, gateFunction other [b] = (b ^^ inverted))
      (function : ∀ free, gateFunction type (idxConsts.map Prod.snd ++ free) = gateFunction other free) :
      ∃ r, smallerGate n other inverted = .ok r ∧
        Denotes r n (fun free => gateFunction type (idxConsts.map Prod.snd ++ free)) := by
    obtain ⟨r, built, denotes⟩ := smallerGate_denotes n other inverted isGate small empty single
    exact ⟨r, built, denotes.congr r n _ _ (fun free _ => (function free).symm)⟩
  have anyFalse (given : idxConsts.any (fun c => !c.2) = true) : (idxConsts.map Prod.snd).all id = false := by
    obtain ⟨c, member, isFalse⟩ := List.any_eq_true.mp given
    refine List.all_eq_false.mpr ⟨c.2, List.mem_map_of_mem member, ?_⟩
    simpa using isFalse
  have noFalse (given : ¬ idxConsts.any (fun c => !c.2) = true) : (idxConsts.map Prod.snd).all id = true := by
    rw [List.all_map]
    simpa using given
  have anyTrue (given : idxConsts.any Prod.snd = true) : (idxConsts.map Prod.snd).any id = true := by
    rw [List.any_map]
    exact given
  have noTrue (given : ¬ idxConsts.any Prod.snd = true) : (idxConsts.map Prod.snd).any id = false := by
    rw [List.any_map]
    simpa using given
  have parity : (idxConsts.map Prod.snd).countP id = idxConsts.countP Prod.snd := by
    rw [List.countP_map]
    rfl
  have type := gate.type
  simp only [List.mem_cons, List.not_mem_nil, or_false] at type
  unfold getReducedWithConstants
  rw [simple, if_neg (by decide), if_neg positive, if_neg (by simpa using some_),
    if_neg (by rw [indexes_inRange t idxConsts fixes]; decide)]
  simp only
  rcases type with type | type | type | type | type | type
  · rw [type]
    simp only
    split
    · next given =>
        refine ⟨_, rfl, type ▸ onAll _ type _ (fixed _ false (fun free => ?_))⟩
        rw [gateFunction, List.all_append, anyFalse given, Bool.false_and]
    · next given =>
        have function (free : List Bool) : gateFunction .AND (idxConsts.map Prod.snd ++ free) = gateFunction .AND free := by
          rw [gateFunction, List.all_append, noFalse given, Bool.true_and]
          rfl
        split
        · next empty =>
            refine ⟨_, rfl, type ▸ onAll _ type _ (.constant true rfl (fun free length => ?_))⟩
            rw [function, List.length_eq_zero_iff.mp (length.trans empty)]
            rfl
        · next rest =>
            obtain ⟨r, built, denotes⟩ := left .AND .AND false (by decide) (fun zero => absurd zero rest) (by decide) function
            exact ⟨r, built, type ▸ onAll _ type r denotes⟩
  · rw [type]
    simp only
    split
    · next given =>
        refine ⟨_, rfl, type ▸ onAll _ type _ (fixed _ true (fun free => ?_))⟩
        rw [gateFunction, List.all_append, anyFalse given, Bool.false_and]
        rfl
    · next given =>
        have function (free : List Bool) :
            gateFunction .NAND (idxConsts.map Prod.snd ++ free) = gateFunction .NAND free := by
          rw [gateFunction, List.all_append, noFalse given, Bool.true_and]
          rfl
        split
        · next empty =>
            refine ⟨_, rfl, type ▸ onAll _ type _ (.constant false rfl (fun free length => ?_))⟩
            rw [function, List.length_eq_zero_iff.mp (length.trans empty)]
            rfl
        · next rest =>
            obtain ⟨r, built, denotes⟩ := left .NAND .NAND true (by decide) (fun zero => absurd zero rest) (by decide) function
            exact ⟨r, built, type ▸ onAll _ type r denotes⟩
  · rw [type]
    simp only
    split
    · next given =>
        refine ⟨_, rfl, type ▸ onAll _ type _ (fixed _ true (fun free => ?_))⟩
        rw [gateFunction, List.any_append, anyTrue given, Bool.true_or]
    · next given =>
        obtain ⟨r, built, denotes⟩ := left .OR .OR false (by decide) (fun _ => rfl) (by decide) (fun free => by
          rw [gateFunction, List.any_append, noTrue given, Bool.false_or]
          rfl)
        exact ⟨r, built, type ▸ onAll _ type r denotes⟩
  · rw [type]
    simp only
    split
    · next given =>
        refine ⟨_, rfl, type ▸ onAll _ type _ (fixed _ false (fun free => ?_))⟩
        rw [gateFunction, List.any_append, anyTrue given, Bool.true_or]
        rfl
    · next given =>
        obtain ⟨r, built, denotes⟩ := left .NOR .NOR true (by decide) (fun _ => rfl) (by decide) (fun free => by
          rw [gateFunction, List.any_append, noTrue given, Bool.false_or]
          rfl)
        exact ⟨r, built, type ▸ onAll _ type r denotes⟩
  · rw [type]
    simp only
    have function (free : List Bool) : gateFunction .XOR (idxConsts.map Prod.snd ++ free) =
        gateFunction (if (idxConsts.countP Prod.snd % 2 != 0) = true then .XNOR else .XOR) free := by
      rw [gateFunction, List.countP_append, parity, parity_add]
      cases idxConsts.countP Prod.snd % 2 != 0
      · exact Bool.false_xor _
      · exact Bool.true_xor _
    obtain ⟨r, built, denotes⟩ := left .XOR _ (idxConsts.countP Prod.snd % 2 != 0)
      (by cases idxConsts.countP Prod.snd % 2 != 0 <;> decide)
      (fun _ => by cases idxConsts.countP Prod.snd % 2 != 0 <;> rfl)
      (fun b => by cases idxConsts.countP Prod.snd % 2 != 0 <;> cases b <;> rfl) function
    exact ⟨r, built, type ▸ onAll _ type r denotes⟩
  · rw [type]
    simp only
    have function (free : List Bool) : gateFunction .XNOR (idxConsts.map Prod.snd ++ free) =
        gateFunction (if (idxConsts.countP Prod.snd % 2 != 0) = true then .XOR else .XNOR) free := by
      rw [gateFunction, List.countP_append, parity, parity_add]
      cases idxConsts.countP Prod.snd % 2 != 0
      · exact congrArg (! ·) (Bool.false_xor _)
      · rw [Bool.true_xor, Bool.not_not]
        rfl
    obtain ⟨r, built, denotes⟩ := left .XNOR _ (!(idxConsts.countP Prod.snd % 2 != 0))
      (by cases idxConsts.countP Prod.snd % 2 != 0 <;> decide)
      (fun _ => by cases idxConsts.countP Prod.snd % 2 != 0 <;> rfl)
      (fun b => by cases idxConsts.countP Prod.snd % 2 != 0 <;> cases b <;> rfl) function
    exact ⟨r, built, type ▸ onAll _ type r denotes⟩

/-! ### Rows -/

omit fixes in
theorem weaveKnown_rowIndex (known : List (Option Bool)) (free : List Bool) (enough : free.length = unknowns known) :
    weaveKnown known (rowIndex free) = fill known free := by
  induction known generalizing free with
  | nil => rfl
  | cons entry rest ih =>
      cases entry with
      | some b =>
          rw [unknowns_some] at enough
          exact congrArg (b :: ·) (ih free enough)
      | none =>
          rw [unknowns_none] at enough
          cases free with
          | nil => nomatch enough
          | cons b free =>
              have digit := b.toNat_lt
              have half : rowIndex (b :: free) / 2 = rowIndex free := by
                change (b.toNat + 2 * rowIndex free) / 2 = rowIndex free
                omega
              have low : decide (rowIndex (b :: free) % 2 = 1) = b := by
                change decide ((b.toNat + 2 * rowIndex free) % 2 = 1) = b
                cases b <;> simp [Nat.add_mod]
              rw [weaveKnown, half, low, ih free (by simpa using enough)]
              rfl

/-- The row that is read for an assignment of the other inputs. -/
theorem reducedRow_fill (free : List Bool) (length : free.length = t.size - idxConsts.length) :
    reducedRow t idxConsts (rowIndex free) =
      t.bits.bit (rowIndex (fill (knownAt (List.range t.size) idxConsts) free)) := by
  have woven := weaveInputs_eq idxConsts (valueAt idxConsts) (List.range t.size) (rowIndex free) 0 (fun _ _ => rfl)
  rw [Nat.pow_zero, Nat.div_one] at woven
  rw [reducedRow, woven]
  refine congrArg (fun inputs => t.bits.bit (rowIndex inputs)) (weaveKnown_rowIndex _ free ?_)
  change free.length = unknowns (knownAt (List.range t.size) idxConsts)
  rw [unknowns_knownAt, length_fixes t idxConsts fixes, length]

omit fixes in
/-- The reduced table has the rows it was given, or is the constant they all are. -/
theorem reduceRows_denotes (n : Nat) (small : n < 32) (f : List Bool → Bool)
    (rows : ∀ free : List Bool, free.length = n → reducedRow t idxConsts (rowIndex free) = f free) :
    ∃ r, reduceRows t idxConsts n = .ok r ∧ Denotes r n f := by
  have shift := oneShiftLeft_eq n small
  let rows' := (List.range (oneShiftLeft n)).map (reducedRow t idxConsts)
  have rowAt (j : Nat) (inside : j < 2 ^ n) : rows'.getD j false = reducedRow t idxConsts j := by
    simp [rows', shift, inside]
  -- the table of the loop, before it is compared with the constants
  have table : ∃ out, (if 6 < n then ofVector n rows' (fullDependencies n)
        else ofMask n (maskOfRows rows') (fullDependencies n)) = .ok out ∧ Explicit out ∧ out.size = n ∧
      out.dependencies = fullDependencies n ∧ ∀ j < 2 ^ n, out.bits.bit j = reducedRow t idxConsts j := by
    by_cases large : 6 < n
    · rw [if_pos large, ofVector_eq_ok n _ _ large small (by rw [countBits_fullDependencies])]
      exact ⟨_, rfl, ⟨rfl, rfl⟩, rfl, rfl, rowAt⟩
    · rw [if_neg large, ofMask_eq_ok n _ _ (by omega) (fun _ => by rw [countBits_fullDependencies])]
      refine ⟨_, rfl, ⟨rfl, rfl⟩, rfl, rfl, fun j inside => ?_⟩
      have word := (pow_le_64 n).mpr (by omega)
      rw [← rowAt j inside, ← testBit_rowIndex]
      simp only [NLBitVecDynamic.bit, maskOfRows, BitVec.getLsbD_ofNat]
      simp [show j < 64 by omega]
  obtain ⟨out, built, explicit, size, dependencies, bits⟩ := table
  have bit (free : List Bool) (length : free.length = n) : out.bits.bit (rowIndex free) = f free := by
    rw [bits _ (length ▸ rowIndex_lt free), rows free length]
  have reduced : reduceRows t idxConsts n = .ok (if out.all0 then Logic0 else if out.all1 then Logic1 else out) := by
    unfold reduceRows
    by_cases large : 6 < n
    · rw [if_pos large] at built
      simp only [if_pos large]
      rw [built]
      rfl
    · rw [if_neg large] at built
      simp only [if_neg large]
      rw [built]
      rfl
  refine ⟨_, reduced, ?_⟩
  -- a table of one value on all rows is that constant
  have uniform (value : Bool) (found : tableOutcome out = some value) (free : List Bool) (length : free.length = n) :
      f free = value := by
    rw [← bit free length]
    refine bit_of_tableOutcome out explicit.rows value found _ ?_
    rw [size, ← length]
    exact rowIndex_lt free
  by_cases zeros : out.all0
  · rw [if_pos zeros]
    exact .constant false rfl (uniform false (by rw [tableOutcome, if_pos zeros]))
  · rw [if_neg zeros]
    by_cases ones : out.all1
    · rw [if_pos ones]
      exact .constant true rfl (uniform true (by rw [tableOutcome, if_neg zeros, if_pos ones]))
    · rw [if_neg ones]
      refine .table (Or.inl ⟨explicit, size ▸ small⟩) (dependencies ▸ isSimple_fullDependencies n) size
        (fun inputs length => ?_)
      rw [evaluate, explicit.type]
      exact congrArg some (bit inputs length)

theorem explicit_cofactor (explicit : Explicit t) (small : t.size < 32) (simple : isSimple t.dependencies = true)
    (positive : t.size ≠ 0) (some_ : idxConsts ≠ []) :
    ∃ r, t.getReducedWithConstants idxConsts = .ok r ∧
      Denotes r (t.size - idxConsts.length) (cofactor (tableFunction t) t.size idxConsts) := by
  obtain ⟨r, built, denotes⟩ := reduceRows_denotes t idxConsts (t.size - idxConsts.length) (by omega)
    (cofactor (tableFunction t) t.size idxConsts) (fun free length => by
      rw [reducedRow_fill t idxConsts fixes free length, cofactor, tableFunction, evaluate, explicit.type]
      rfl)
  refine ⟨r, ?_, denotes⟩
  unfold getReducedWithConstants
  rw [simple, if_neg (by decide), if_neg positive, if_neg (by simpa using some_),
    if_neg (by rw [indexes_inRange t idxConsts fixes]; decide)]
  simp only [explicit.type]
  exact built

end reduction

/-- One reduction of what stands for a function stands for its cofactor. -/
theorem Denotes.reduce (t : SNLTruthTable) (n : Nat) (f : List Bool → Bool) (denotes : Denotes t n f)
    (idxConsts : ConstantInputs) (fixes : Fixes (List.range n) idxConsts) :
    ∃ r, t.getReducedWithConstants idxConsts = .ok r ∧ Denotes r (n - idxConsts.length) (cofactor f n idxConsts) := by
  have length (free : List Bool) (enough : free.length = n - idxConsts.length) :
      (fill (knownAt (List.range n) idxConsts) free).length = n := by
    have total := length_remaining (List.range n) idxConsts List.nodup_range fixes
    rw [List.length_range] at total
    rw [length_fill _ _ (by rw [unknowns_knownAt]; omega), knownAt, List.length_map, List.length_range]
  cases denotes with
  | constant value table function =>
      refine ⟨t, ?_, .constant value table (fun free enough => function _ (length free enough))⟩
      rw [table]
      cases value <;> rfl
  | table kind simple size function =>
      subst size
      have same (free : List Bool) (enough : free.length = t.size - idxConsts.length) :
          cofactor (tableFunction t) t.size idxConsts free = cofactor f t.size idxConsts free := by
        have value := function _ (length free enough)
        rw [evaluate_rowsOrGate t kind] at value
        exact Option.some.inj value
      by_cases nothing : idxConsts = [] ∨ t.size = 0
      · have unchanged : t.getReducedWithConstants idxConsts = .ok t := by
          unfold getReducedWithConstants
          rw [simple, if_neg (by decide)]
          by_cases zero : t.size = 0
          · rw [if_pos zero]
          · rw [if_neg zero, if_pos (by simpa using nothing.resolve_right zero)]
        have noConstants : idxConsts = [] := by
          rcases nothing with none | zero
          · exact none
          · refine List.eq_nil_iff_forall_not_mem.mpr (fun c member => ?_)
            have inside := List.mem_range.mp (fixes.inside c member)
            omega
        subst noConstants
        refine ⟨t, unchanged, .table kind simple rfl (fun inputs enough => ?_)⟩
        rw [cofactor_nil f t.size inputs enough]
        exact function inputs enough
      · obtain ⟨some_, positive⟩ := not_or.mp nothing
        have reduced : ∃ r, t.getReducedWithConstants idxConsts = .ok r ∧
            Denotes r (t.size - idxConsts.length) (cofactor (tableFunction t) t.size idxConsts) := by
          rcases kind with ⟨explicit, small⟩ | ⟨gate, bound⟩
          · exact explicit_cofactor t idxConsts fixes explicit small simple positive some_
          · have gateCase := gate_cofactor t idxConsts fixes gate bound simple positive some_
            have isFunction : tableFunction t = gateFunction t.genericType := by
              funext inputs
              rw [tableFunction, evaluate_gate t gate.type]
              rfl
            rw [isFunction]
            exact gateCase
        obtain ⟨r, built, stands⟩ := reduced
        exact ⟨r, built, stands.congr r _ _ _ same⟩

/-! ### Rounds -/

/-- Rounds of constants by their original indexes; each round is counted among the inputs that the
rounds before it have left. -/
def reduceInRounds (t : SNLTruthTable) (positions : List Nat) : List ConstantInputs → Except String SNLTruthTable
  | [] => .ok t
  | part :: parts => do
      let r ← t.getReducedWithConstants (reposition positions part)
      reduceInRounds r (remaining positions part) parts

/-- Fixing inputs in two rounds is fixing them in one. -/
theorem cofactor_cofactor (f : List Bool → Bool) (n : Nat) (done part : ConstantInputs)
    (fixes : Fixes (List.range n) (done ++ part)) (free : List Bool)
    (length : free.length = n - (done ++ part).length) :
    cofactor (cofactor f n done) (remaining (List.range n) done).length
      (reposition (remaining (List.range n) done) part) free = cofactor f n (done ++ part) free := by
  have next := fixes.second _ done part
  have total := length_remaining (List.range n) (done ++ part) List.nodup_range fixes
  rw [List.length_range] at total
  have left : (knownAt (remaining (List.range n) done) part).length = unknowns (knownAt (List.range n) done) := by
    rw [unknowns_knownAt, knownAt, List.length_map]
  have rest : free.length = unknowns (knownAt (remaining (List.range n) done) part) := by
    rw [unknowns_knownAt, remaining_append]
    omega
  unfold cofactor
  rw [knownAt_reposition _ part (remaining_nodup _ done List.nodup_range) next, fill_fill _ _ free left rest,
    overlay_knownAt]

theorem reduceInRounds_denotes (f : List Bool → Bool) (n : Nat) (parts : List ConstantInputs) (done : ConstantInputs)
    (t : SNLTruthTable) (fixes : Fixes (List.range n) (done ++ parts.flatten))
    (denotes : Denotes t (n - done.length) (cofactor f n done)) :
    ∃ r, reduceInRounds t (remaining (List.range n) done) parts = .ok r ∧
      Denotes r (n - (done ++ parts.flatten).length) (cofactor f n (done ++ parts.flatten)) := by
  induction parts generalizing done t with
  | nil =>
      rw [List.flatten_nil, List.append_nil]
      exact ⟨t, rfl, denotes⟩
  | cons part parts ih =>
      rw [List.flatten_cons, ← List.append_assoc] at fixes ⊢
      have here : Fixes (List.range n) (done ++ part) := by
        have distinct := fixes.distinct
        rw [List.map_append] at distinct
        exact ⟨distinct.of_append_left, fun c member => fixes.inside c (List.mem_append_left _ member)⟩
      have before : Fixes (List.range n) done := by
        have distinct := here.distinct
        rw [List.map_append] at distinct
        exact ⟨distinct.of_append_left, fun c member => here.inside c (List.mem_append_left _ member)⟩
      have count := length_remaining (List.range n) done List.nodup_range before
      rw [List.length_range] at count
      have size : n - done.length = (remaining (List.range n) done).length := by omega
      rw [size] at denotes
      obtain ⟨r, reduced, stands⟩ := denotes.reduce t _ _ (reposition (remaining (List.range n) done) part)
        ((here.second _ done part).reposition _ part)
      have smaller : (remaining (List.range n) done).length - (reposition (remaining (List.range n) done) part).length =
          n - (done ++ part).length := by
        rw [reposition, List.length_map, List.length_append]
        omega
      rw [smaller] at stands
      have both := stands.congr r _ _ _ (fun free length => cofactor_cofactor f n done part here free length)
      obtain ⟨s, rest, final⟩ := ih (done ++ part) r fixes both
      refine ⟨s, ?_, final⟩
      rw [reduceInRounds, reduced]
      rw [← remaining_append] at rest
      exact rest

/-- The tables that the constructors build reduce to their cofactors, in one call or in rounds. -/
theorem getReducedWithConstants_cofactor (t : SNLTruthTable) (built : Built t) (idxConsts : ConstantInputs)
    (fixes : Fixes (List.range t.size) idxConsts) (parts : List ConstantInputs)
    (partition : parts.flatten.Perm idxConsts) :
    if isSimple t.dependencies then
      ∃ r s, t.getReducedWithConstants idxConsts = .ok r ∧
        Denotes r (t.size - idxConsts.length) (cofactor (tableFunction t) t.size idxConsts) ∧
        reduceInRounds t (List.range t.size) parts = .ok s ∧
        ∀ inputs, inputs.length = t.size - idxConsts.length → denotation s inputs = denotation r inputs
    else ∃ message, t.getReducedWithConstants idxConsts = .error message := by
  split
  · next simple =>
      have kind := built.rowsOrGate
      have own : Denotes t t.size (tableFunction t) :=
        .table kind simple rfl (fun inputs _ => evaluate_rowsOrGate t kind inputs)
      obtain ⟨r, reduced, denotes⟩ := own.reduce t _ _ idxConsts fixes
      have start : Denotes t (t.size - ([] : ConstantInputs).length) (cofactor (tableFunction t) t.size []) := by
        exact own.congr t _ _ _ (fun inputs length => (cofactor_nil _ _ inputs length).symm)
      obtain ⟨s, rounds, stands⟩ := reduceInRounds_denotes (tableFunction t) t.size parts [] t
        (fixes.perm _ _ _ partition.symm) start
      refine ⟨r, s, reduced, denotes, ?_, fun inputs length => ?_⟩
      · have all : remaining (List.range t.size) ([] : ConstantInputs) = List.range t.size :=
          List.filter_eq_self.mpr (fun _ _ => rfl)
        rw [all] at rounds
        exact rounds
      · rw [List.nil_append, partition.length_eq] at stands
        rw [stands.denotation_eq s _ _ inputs length, denotes.denotation_eq r _ _ inputs length, cofactor, cofactor,
          knownAt_perm _ _ _ (fixes.perm _ _ _ partition.symm).distinct partition]
  · next sparse =>
      refine ⟨"getReducedWithConstants() does not support non full dependencies", ?_⟩
      unfold getReducedWithConstants
      rw [if_pos (by simpa using sparse)]

/-- Input 1 and not input 2, with input 0 unused, is reduced in one call and input by input. -/
theorem andNot_cofactor :
    ∃ t r s, ofMask 3 0b00001100 (fullDependencies 3) = .ok t ∧
      t.getReducedWithConstants [(2, false), (0, true)] = .ok r ∧
      reduceInRounds t [0, 1, 2] [[(0, true)], [(2, false)]] = .ok s ∧
      ∀ inputs, inputs.length = 1 → denotation s inputs = denotation r inputs := by
  obtain ⟨t, built, size⟩ : ∃ t, ofMask 3 0b00001100 (fullDependencies 3) = .ok t ∧ t.size = 3 := ⟨_, rfl, rfl⟩
  have deps : t.dependencies = fullDependencies 3 := by
    obtain ⟨-, -, -, rfl⟩ := ofMask_spec _ _ _ _ built
    rfl
  have fixes : Fixes (List.range t.size) [(2, false), (0, true)] := by
    rw [size]
    exact ⟨by decide, by decide⟩
  have result := getReducedWithConstants_cofactor t (.mask _ _ _ t built) [(2, false), (0, true)] fixes
    [[(0, true)], [(2, false)]] (List.Perm.swap _ _ [])
  rw [deps, if_pos (isSimple_fullDependencies 3), size] at result
  obtain ⟨r, s, reduced, -, rounds, same⟩ := result
  exact ⟨t, r, s, built, reduced, rounds, same⟩

end Naja.TruthTable
