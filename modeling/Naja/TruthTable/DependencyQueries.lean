import Naja.TruthTable.StorageExact

/-! The combinatorial inputs of an output and the combinatorial outputs of an input, as they are
derived from the tables stored on a primitive. A bit term goes by its order ID. The primitives of
the database have a modeling property, and its arcs answer for them. -/

namespace Naja.TruthTable.DependencyQueries
open Naja.Primitives BitDependencies Storage StorageRoundTrip StorageExact

/-! ### Queries -/

def direction (d : Design) (orderID : Nat) : Option Direction := d.bitTerms[orderID]?.map BitTerm.direction

/-- `getSubCollection` of the bit terms of a design. -/
def subCollection (d : Design) (filter : BitTerm → Bool) : List Nat :=
  (List.range d.bitTerms.length).filter (fun orderID => d.bitTerms[orderID]?.any filter)

def key (t : BitTerm) : Nat × Nat := (t.id, t.bit)

/-- The bit terms with the ID and the bit of one at the given places. -/
def termsAt (d : Design) (flatDepIDs : List Nat) : List Nat :=
  let depTermsIds := (flatDepIDs.filterMap (fun id => d.bitTerms[id]?)).map key
  subCollection d (fun t => depTermsIds.contains (key t))

/-- The walk over the values of a property; each turn is one table. -/
def outputsLoop (d : Design) (values : List Word) (flatID : Nat) : Nat → Nat → Nat → Except String (List Nat)
  | 0, _, _ => .ok []
  | fuel + 1, valIdx, tableIdx =>
      if values.length ≤ valIdx then .ok []
      else do
        let nInputs ← getUInt64Value values valIdx
        let nchunks := chunksFromBits (sizeShiftLeft (uint32 nInputs))
        let deps ← getUInt64Values values (valIdx + 1 + nchunks) (getDependencyChunkCount d)
        let decodedDeps := decodeBits deps
        let here ←
          if decodedDeps.isEmpty || decodedDeps.contains flatID then
            match (outputOrderIDs d.bitTerms)[tableIdx]? with
            | none => .error ("Output flat ID " ++ toString tableIdx ++ " not found in map")
            | some orderID => .ok [orderID]
          else .ok []
        let next := advanceTruthTableValueIndex d valIdx (uint32 nInputs)
        if values.length + 1 ≤ next then
          throw ("Malformed truth table for design <" ++ d.name ++ "> " ++
            String.join (values.map (fun value => toString value.toNat ++ " ")) ++
            "\nWith valIdx " ++ toString next ++ " and total " ++ toString values.length)
        let later ← outputsLoop d values flatID fuel next (tableIdx + 1)
        return here ++ later

def getCombinatorialOutputsDepsFromTruthTable (d : Design) (flatID : Nat) : Except String (List Nat) := do
  let count ← getTruthTableCount d
  if count = 0 then throw ("Design <" ++ d.name ++ "> has no truth table")
  match d.property with
  | none => return termsAt d []
  | some values =>
      let flatDepIDs ← outputsLoop d values flatID values.length 0 0
      return termsAt d flatDepIDs

/-- The places of the bits of the blocks, up to the number of bit terms. -/
def depPositions (d : Design) (deps : List Word) : List Nat :=
  deps.zipIdx.flatMap (fun p =>
    ((List.range 64).takeWhile (fun b => decide (p.2 * 64 + b < d.bitTerms.length))).filterMap
      (fun b => if p.1.getLsbD b then some (p.2 * 64 + b) else none))

def getCombinatorialInputDepsFromTruthTable (d : Design) (flatID : Nat) : Except String (List Nat) := do
  let tableCount ← getTruthTableCount d
  if tableCount = 0 then return []
  let truthTable ← if tableCount = 1 then getDesignTruthTable d else getTruthTable d flatID
  let deps := truthTable.dependencies
  if countBitsForVector deps = 0 then return subCollection d (fun t => t.direction != .Output)
  return termsAt d (depPositions d deps)

def getCombinatorialDepsFromTruthTable (d : Design) (flatID : Nat) : Except String (List Nat) :=
  if direction d flatID ≠ some .Input then getCombinatorialInputDepsFromTruthTable d flatID
  else getCombinatorialOutputsDepsFromTruthTable d flatID

/-- The loop over the outputs of the design. -/
def definedLoop (d : Design) (flatID : Nat) : Bool → List Nat → Except String Bool
  | foundExplicitDependencies, [] => .ok foundExplicitDependencies
  | _, candidate :: rest => do
      let tt ← getTruthTable d candidate
      if countBitsForVector tt.dependencies = 0 then return false
      if (decodeBits tt.dependencies).contains flatID then return true
      definedLoop d flatID true rest

def areDependenciesDefined (d : Design) (flatID : Nat) : Except String Bool := do
  let count ← getTruthTableCount d
  if count = 0 then return false
  if direction d flatID ≠ some .Input then
    let _ ← getTruthTable d flatID
    return true
  definedLoop d flatID false (outputOrderIDs d.bitTerms)

/-- The arcs are those of the modeling property, when the design has one. -/
def getCombinatorialOutputs (d : Design) (arcs : Option (List (Nat × Nat))) (flatID : Nat) : Except String (List Nat) :=
  match arcs with
  | some arcs => .ok ((arcs.filter (fun arc => arc.1 == flatID)).map Prod.snd)
  | none => do
      let count ← getTruthTableCount d
      if 0 < count then
        let isDefined ← areDependenciesDefined d flatID
        if isDefined then return ← getCombinatorialDepsFromTruthTable d flatID
      return subCollection d (fun t => t.direction != .Input)

def getCombinatorialInputs (d : Design) (arcs : Option (List (Nat × Nat))) (flatID : Nat) : Except String (List Nat) :=
  match arcs with
  | some arcs => .ok ((arcs.filter (fun arc => arc.2 == flatID)).map Prod.fst)
  | none => do
      let count ← getTruthTableCount d
      if 0 < count then
        let snltt ← getTruthTable d flatID
        if 0 < countBitsForVector snltt.dependencies then return ← getCombinatorialDepsFromTruthTable d flatID
      return subCollection d (fun t => t.direction != .Output)

/-! ### Tables that can be read back -/

/-- The dependency set that is stored of a table; none of a constant. -/
def stored (t : SNLTruthTable) : List Nat := if t.size = 0 then [] else decodeBits t.dependencies

/-- The chunks that are written are those that the readers expect of the size. -/
structure Kept (t : SNLTruthTable) : Prop where
  small : t.size < 32
  chunks : t.bits.getChunks.length = chunksFromBits (2 ^ t.size)

def normalBits (t : SNLTruthTable) : NLBitVecDynamic :=
  if few : t.size ≤ 6 then ⟨2 ^ t.size, .mask (t.bits.getChunks.headD 0), by simp [BitData.isMask, pow_le_64, few]⟩
  else
    ⟨2 ^ t.size, .vector ((List.range (2 ^ t.size)).map (testBlocks t.bits.getChunks)),
      by simp [BitData.isMask, pow_le_64, few]⟩

/-- The explicit table with the values of a table. -/
def normal (d : Design) (t : SNLTruthTable) : SNLTruthTable :=
  { size := t.size, bits := normalBits t,
    dependencies := if t.size = 0 then [] else padDependencies (getDependencyChunkCount d) t.dependencies }

theorem blocks_ext (left right : List Word) (length : left.length = right.length)
    (same : ∀ i, testBlocks left i = testBlocks right i) : left = right := by
  refine List.ext_getElem length ?_
  intro i inLeft inRight
  apply BitVec.eq_of_getLsbD_eq
  intro j below
  have test := same (64 * i + j)
  have block : (64 * i + j) / 64 = i := by omega
  have offset : (64 * i + j) % 64 = j := by omega
  simpa [testBlocks, block, offset, inLeft, inRight] using test

theorem testBlocks_beyond (blocks : List Word) (i : Nat) (beyond : 64 * blocks.length ≤ i) :
    testBlocks blocks i = false := by
  unfold testBlocks
  rw [List.getD_eq_getElem?_getD, List.getElem?_eq_none (by omega)]
  simp

theorem packBits_testBlocks (blocks : List Word) :
    packBits ((List.range (64 * blocks.length)).map (testBlocks blocks)) = blocks := by
  apply blocks_ext
  · rw [length_packBits, List.length_map, List.length_range]
    unfold chunksFromBits
    rw [if_neg (by omega)]
    omega
  · intro i
    rw [testBlocks_packBits]
    by_cases inside : i < 64 * blocks.length
    · simp [List.getD_eq_getElem?_getD, inside]
    · rw [testBlocks_beyond blocks i (by omega)]
      simp [List.getD_eq_getElem?_getD, inside]

theorem getChunks_normal (t : SNLTruthTable) (kept : Kept t) : (normalBits t).getChunks = t.bits.getChunks := by
  have length := kept.chunks
  unfold normalBits
  by_cases few : t.size ≤ 6
  · have one : chunksFromBits (2 ^ t.size) = 1 := by
      have short := (pow_le_64 t.size).mpr few
      have positive := Nat.two_pow_pos t.size
      unfold chunksFromBits
      split <;> omega
    rw [one] at length
    obtain ⟨chunk, same⟩ := List.length_eq_one_iff.mp length
    rw [dif_pos few, same]
    rfl
  · have rows : 2 ^ t.size = 64 * 2 ^ (t.size - 6) := by
      have split : t.size = 6 + (t.size - 6) := by omega
      conv_lhs => rw [split, Nat.pow_add]
    have total : 2 ^ t.size = 64 * t.bits.getChunks.length := by
      rw [length, rows]
      unfold chunksFromBits
      rw [if_neg (by omega)]
      omega
    rw [dif_neg few]
    change packBits ((List.range (2 ^ t.size)).map (testBlocks t.bits.getChunks)) = _
    rw [total]
    exact packBits_testBlocks _

theorem length_padDependencies (count : Nat) (deps : List Word) : (padDependencies count deps).length = count := by
  simp [padDependencies]

theorem storable_normal (d : Design) (t : SNLTruthTable) (kept : Kept t) :
    Storable (getDependencyChunkCount d) (normal d t) := by
  have bits : (normal d t).bits = normalBits t := rfl
  refine ⟨rfl, kept.small, ?_, ?_, ?_, ?_⟩
  · rw [bits]
    unfold normalBits
    split <;> rfl
  · intro entries data
    rw [bits] at data
    unfold normalBits at data
    split at data
    · cases data
    · rw [← BitData.vector.inj data]
      simp [normal]
  · intro constant
    exact if_pos constant
  · intro nonzero
    change (if t.size = 0 then [] else padDependencies (getDependencyChunkCount d) t.dependencies).length = _
    rw [if_neg (show t.size ≠ 0 from nonzero)]
    exact length_padDependencies _ _

theorem testBlocks_pad (count : Nat) (deps : List Word) (fits : deps.length ≤ count) (i : Nat) :
    testBlocks (padDependencies count deps) i = testBlocks deps i := by
  unfold testBlocks padDependencies
  rw [List.getD_eq_getElem?_getD, List.getD_eq_getElem?_getD, List.getElem?_take]
  by_cases inside : i / 64 < deps.length
  · rw [if_pos (by omega), List.getElem?_append_left inside]
  · rw [List.getElem?_eq_none (by omega : deps.length ≤ i / 64)]
    split
    · rw [List.getElem?_append_right (by omega), List.getElem?_replicate]
      split <;> rfl
    · rfl

theorem decodeBits_congr (left right : List Word) (same : ∀ i, testBlocks left i = testBlocks right i) :
    decodeBits left = decodeBits right := by
  apply List.Pairwise.eq_of_mem_iff (decodeBits_sorted left) (decodeBits_sorted right)
  intro position
  rw [mem_decodeBits, mem_decodeBits, same]

theorem decodeBits_zeros (count : Nat) : decodeBits (List.replicate count 0) = [] := by
  rw [List.eq_nil_iff_forall_not_mem]
  intro position member
  rw [mem_decodeBits] at member
  simp only [testBlocks, List.getD_eq_getElem?_getD, List.getElem?_replicate] at member
  split at member <;> simp at member

/-- What is accepted of a table on a design that has an input. -/
theorem validate_fits (d : Design) (t : SNLTruthTable) (deps : List Word)
    (valid : validateAndPadDependenciesForDesign d t = .ok deps) (nonzero : t.size ≠ 0)
    (hasInput : getInputFlatPositions d.bitTerms ≠ []) :
    t.dependencies.length ≤ getDependencyChunkCount d ∧ decodeBits t.dependencies ≠ [] ∧
      (decodeBits t.dependencies).length ≤ t.size ∧
      (∀ dep ∈ decodeBits t.dependencies, dep ∈ getInputFlatPositions d.bitTerms) ∧
      deps = padDependencies (getDependencyChunkCount d) t.dependencies := by
  unfold validateAndPadDependenciesForDesign at valid
  simp only [if_neg nonzero] at valid
  split at valid
  · contradiction
  next given =>
    split at valid
    · contradiction
    next few =>
      rw [if_neg (by simpa using hasInput)] at valid
      split at valid
      · contradiction
      next inputs =>
        split at valid
        · contradiction
        next fits =>
          rw [not_or] at given
          refine ⟨Nat.not_lt.mp fits, by simpa using given.2, Nat.not_lt.mp few, ?_, (Except.ok.inj valid).symm⟩
          intro dep member
          have allowed := List.find?_eq_none.mp inputs dep member
          simpa using allowed

theorem decode_normal (d : Design) (t : SNLTruthTable) (deps : List Word)
    (valid : validateAndPadDependenciesForDesign d t = .ok deps) (hasInput : getInputFlatPositions d.bitTerms ≠ []) :
    decodeBits (normal d t).dependencies = stored t := by
  unfold normal stored
  by_cases constant : t.size = 0
  · simp only [if_pos constant]
    rfl
  · have fits := (validate_fits d t deps valid constant hasInput).1
    simp only [if_neg constant]
    exact decodeBits_congr _ _ (testBlocks_pad _ _ fits)

theorem validate_normal (d : Design) (t : SNLTruthTable) (deps : List Word)
    (valid : validateAndPadDependenciesForDesign d t = .ok deps) (hasInput : getInputFlatPositions d.bitTerms ≠ []) :
    validateAndPadDependenciesForDesign d (normal d t) = .ok deps := by
  have size : (normal d t).size = t.size := rfl
  by_cases constant : t.size = 0
  · unfold validateAndPadDependenciesForDesign at valid ⊢
    rw [size]
    simp only [if_pos constant] at valid ⊢
    exact valid
  · obtain ⟨fits, nonempty, few, inputs, rfl⟩ := validate_fits d t deps valid constant hasInput
    have decoded := decode_normal d t _ valid hasInput
    have blocks : (normal d t).dependencies = padDependencies (getDependencyChunkCount d) t.dependencies :=
      if_neg constant
    have length : (normal d t).dependencies.length = getDependencyChunkCount d := by
      rw [blocks]
      exact length_padDependencies _ _
    have padded : padDependencies (getDependencyChunkCount d) (normal d t).dependencies = (normal d t).dependencies := by
      unfold padDependencies
      rw [← length, List.take_left]
    unfold stored at decoded
    rw [if_neg constant] at decoded
    have present : (normal d t).dependencies ≠ [] := by
      intro empty
      rw [empty] at decoded
      exact nonempty decoded.symm
    have allowed : (decodeBits t.dependencies).find? (fun dep => !(getInputFlatPositions d.bitTerms).contains dep) =
        none := by
      refine List.find?_eq_none.mpr ?_
      intro dep member
      simpa using inputs dep member
    unfold validateAndPadDependenciesForDesign
    simp only [size, decoded, padded, length]
    rw [if_neg constant, if_neg (by simp [present, nonempty]), if_neg (Nat.not_lt.mpr few),
      if_neg (by simpa using hasInput), allowed]
    simp only [Nat.lt_irrefl, if_false, blocks]

/-- The values of a list of tables are those of their explicit tables. -/
theorem serialize_normal (d : Design) (hasInput : getInputFlatPositions d.bitTerms ≠ []) (tables : List SNLTruthTable)
    (kept : ∀ t ∈ tables, Kept t) (values : List Word) (written : serialize d tables = .ok values) :
    serialize d (tables.map (normal d)) = .ok values := by
  induction tables generalizing values with
  | nil => exact written
  | cons t rest ih =>
      obtain ⟨deps, later, valid, more, rfl⟩ := serialize_cons d t rest values written
      have others := ih (fun u member => kept u (List.mem_cons_of_mem _ member)) later more
      have same : tableValues (normal d t) deps = tableValues t deps := by
        unfold tableValues
        have chunks : (normal d t).bits.getChunks = t.bits.getChunks := getChunks_normal t (kept t List.mem_cons_self)
        rw [chunks]
        rfl
      rw [List.map_cons]
      simp [serialize, validate_normal d t deps valid hasInput, others, same, bind, Except.bind, pure, Except.pure]

theorem valid_of_serialize (d : Design) (tables : List SNLTruthTable) (values : List Word)
    (written : serialize d tables = .ok values) :
    ∀ t ∈ tables, ∃ deps, validateAndPadDependenciesForDesign d t = .ok deps := by
  induction tables generalizing values with
  | nil =>
      intro u member
      exact absurd member List.not_mem_nil
  | cons t rest ih =>
      obtain ⟨deps, later, valid, more, rfl⟩ := serialize_cons d t rest values written
      intro u member
      rcases List.mem_cons.mp member with rfl | inRest
      · exact ⟨deps, valid⟩
      · exact ih later more u inRest

/-! ### The walk over the values -/

theorem decode_written (d : Design) (t : SNLTruthTable) (deps : List Word)
    (storable : Storable (getDependencyChunkCount d) t) (valid : validateAndPadDependenciesForDesign d t = .ok deps) :
    decodeBits deps = decodeBits t.dependencies := by
  have same := (validate_spec d t deps storable valid).2.1
  by_cases constant : t.size = 0
  · unfold validateAndPadDependenciesForDesign at valid
    simp only [if_pos constant, Except.ok.injEq] at valid
    rw [storable.constant constant, ← valid, decodeBits_zeros]
    rfl
  · rw [if_neg constant] at same
    rw [same]

/-- The dependency blocks of a table behind `pre`. -/
theorem read_blocks (d : Design) (t : SNLTruthTable) (deps pre post : List Word)
    (storable : Storable (getDependencyChunkCount d) t) (length : deps.length = getDependencyChunkCount d) :
    getUInt64Values (pre ++ (tableValues t deps ++ post))
      (pre.length + 1 + chunksFromBits (sizeShiftLeft (uint32 (BitVec.ofNat 64 t.size)))) (getDependencyChunkCount d) =
      .ok deps := by
  have start : pre.length + 1 + chunksFromBits (sizeShiftLeft (uint32 (BitVec.ofNat 64 t.size))) =
      (pre ++ BitVec.ofNat 64 t.size :: t.bits.getChunks).length := by
    rw [size_uint32 t storable.small, sizeShiftLeft_eq t.size storable.small, ← storable.length_getChunks,
      List.length_append, List.length_cons]
    omega
  have values : pre ++ (tableValues t deps ++ post) =
      (pre ++ BitVec.ofNat 64 t.size :: t.bits.getChunks) ++ (deps ++ post) := by simp [tableValues]
  rw [start, values, ← length]
  exact getUInt64Values_segment _ _ _

/-- The walk names the outputs whose set is empty or has the input. -/
theorem outputsLoop_stored (d : Design) (flatID : Nat) (tables : List SNLTruthTable) (pre values : List Word)
    (storable : ∀ t ∈ tables, Storable (getDependencyChunkCount d) t) (written : serialize d tables = .ok values)
    (fuel tableIdx : Nat) (enough : values.length ≤ fuel)
    (ranks : (outputOrderIDs d.bitTerms).length = tableIdx + tables.length) :
    ∃ ids, outputsLoop d (pre ++ values) flatID fuel pre.length tableIdx = .ok ids ∧
      ∀ q, q ∈ ids ↔ ∃ k t, tables[k]? = some t ∧ (outputOrderIDs d.bitTerms)[tableIdx + k]? = some q ∧
        (decodeBits t.dependencies = [] ∨ flatID ∈ decodeBits t.dependencies) := by
  induction tables generalizing pre values fuel tableIdx with
  | nil =>
      obtain rfl : values = [] := (Except.ok.inj written).symm
      refine ⟨[], ?_, by simp⟩
      cases fuel with
      | zero => rfl
      | succ fuel => simp [outputsLoop]
  | cons t rest ih =>
      obtain ⟨deps, later, valid, more, rfl⟩ := serialize_cons d t rest values written
      have here := storable t List.mem_cons_self
      have length := (validate_spec d t deps here valid).1
      have total := length_tableValues d t deps here length
      rw [List.length_append] at enough
      rw [List.length_cons] at ranks
      cases fuel with
      | zero => omega
      | succ fuel =>
          have first : getUInt64Value (pre ++ (tableValues t deps ++ later)) pre.length =
              .ok (BitVec.ofNat 64 t.size) := getUInt64Value_segment pre _ _
          have blocks := read_blocks d t deps pre later here length
          have inside : ¬ (pre ++ (tableValues t deps ++ later)).length ≤ pre.length := by
            simp only [List.length_append]
            omega
          have within : ¬ (pre ++ (tableValues t deps ++ later)).length + 1 ≤ (pre ++ tableValues t deps).length := by
            simp only [List.length_append]
            omega
          obtain ⟨ids, next, members⟩ := ih (pre ++ tableValues t deps) later
            (fun other member => storable other (List.mem_cons_of_mem _ member)) more fuel (tableIdx + 1) (by omega)
            (by omega)
          rw [List.append_assoc] at next
          have ranked : tableIdx < (outputOrderIDs d.bitTerms).length := by omega
          have rest_iff (q : Nat) : q ∈ ids ↔ ∃ k u, (t :: rest)[k + 1]? = some u ∧
              (outputOrderIDs d.bitTerms)[tableIdx + (k + 1)]? = some q ∧
                (decodeBits u.dependencies = [] ∨ flatID ∈ decodeBits u.dependencies) := by
            rw [members]
            simp only [List.getElem?_cons_succ, Nat.add_assoc, Nat.add_comm 1]
          by_cases named : decodeBits t.dependencies = [] ∨ flatID ∈ decodeBits t.dependencies
          · have test : ((decodeBits t.dependencies).isEmpty || (decodeBits t.dependencies).contains flatID) = true := by
              simpa using named
            refine ⟨(outputOrderIDs d.bitTerms)[tableIdx] :: ids, ?_, ?_⟩
            · simp only [outputsLoop, inside, if_false, first, bind, Except.bind, blocks,
                decode_written d t deps here valid, test, if_true, List.getElem?_eq_getElem ranked,
                advance_table d t deps pre here length, within, pure, Except.pure, next, List.cons_append,
                List.nil_append]
            · intro q
              rw [List.mem_cons, rest_iff]
              constructor
              · rintro (rfl | ⟨k, u, found, rank, member⟩)
                · exact ⟨0, t, rfl, by simp [ranked], named⟩
                · exact ⟨k + 1, u, found, rank, member⟩
              · rintro ⟨k, u, found, rank, member⟩
                cases k with
                | zero =>
                    left
                    rw [Nat.add_zero, List.getElem?_eq_getElem ranked] at rank
                    exact (Option.some.inj rank).symm
                | succ k => exact Or.inr ⟨k, u, found, rank, member⟩
          · have test : ((decodeBits t.dependencies).isEmpty || (decodeBits t.dependencies).contains flatID) = false := by
              simpa using named
            refine ⟨ids, ?_, ?_⟩
            · simp only [outputsLoop, inside, if_false, first, bind, Except.bind, blocks,
                decode_written d t deps here valid, test, Bool.false_eq_true, advance_table d t deps pre here length,
                within, pure, Except.pure, next, List.nil_append]
            · intro q
              rw [rest_iff]
              constructor
              · rintro ⟨k, u, found, rank, member⟩
                exact ⟨k + 1, u, found, rank, member⟩
              · rintro ⟨k, u, found, rank, member⟩
                cases k with
                | zero =>
                    obtain rfl : t = u := by simpa using found
                    exact absurd member named
                | succ k => exact ⟨k, u, found, rank, member⟩

/-! ### Places of bit terms -/

theorem mem_subCollection (d : Design) (filter : BitTerm → Bool) (q : Nat) :
    q ∈ subCollection d filter ↔ ∃ t, d.bitTerms[q]? = some t ∧ filter t = true := by
  simp only [subCollection, List.mem_filter, List.mem_range, Option.any_eq_true]
  constructor
  · rintro ⟨-, found⟩
    exact found
  · rintro ⟨t, found, passes⟩
    exact ⟨(List.getElem?_eq_some_iff.mp found).1, t, found, passes⟩

theorem mem_termsAt (d : Design) (distinct : (d.bitTerms.map key).Nodup) (ids : List Nat) (q : Nat) :
    q ∈ termsAt d ids ↔ q < d.bitTerms.length ∧ q ∈ ids := by
  unfold termsAt
  simp only [mem_subCollection, List.contains_iff_mem, List.mem_map, List.mem_filterMap]
  constructor
  · rintro ⟨t, found, u, ⟨id, member, given⟩, same⟩
    have keys : (d.bitTerms.map key)[id]? = (d.bitTerms.map key)[q]? := by
      rw [List.getElem?_map, List.getElem?_map, given, found, Option.map_some, Option.map_some, same]
    have inside : q < d.bitTerms.length := (List.getElem?_eq_some_iff.mp found).1
    have within : id < (d.bitTerms.map key).length := by
      rw [List.length_map]
      exact (List.getElem?_eq_some_iff.mp given).1
    obtain rfl := (List.getElem?_inj within distinct).mp keys
    exact ⟨inside, member⟩
  · rintro ⟨inside, member⟩
    have found := List.getElem?_eq_getElem inside
    exact ⟨_, found, _, ⟨q, member, found⟩, rfl⟩

theorem takeWhile_range (count start bound : Nat) :
    (List.range count).takeWhile (fun b => decide (start + b < bound)) = List.range (min count (bound - start)) := by
  induction count with
  | zero => simp
  | succ count ih =>
      rw [List.range_succ, List.takeWhile_append, ih, List.length_range, List.length_range]
      by_cases whole : count ≤ bound - start
      · rw [Nat.min_eq_left whole, if_pos rfl]
        by_cases next : start + count < bound
        · rw [Nat.min_eq_left (by omega), List.range_succ]
          simp [next]
        · rw [Nat.min_eq_right (by omega), show bound - start = count by omega]
          simp [next]
      · rw [if_neg (by omega), Nat.min_eq_right (by omega), Nat.min_eq_right (by omega)]

theorem mem_depPositions (d : Design) (deps : List Word) (q : Nat) :
    q ∈ depPositions d deps ↔ q < d.bitTerms.length ∧ q ∈ decodeBits deps := by
  unfold depPositions
  rw [mem_decodeBits]
  simp only [takeWhile_range, List.mem_flatMap, List.mem_filterMap, List.mem_range, Option.ite_none_right_eq_some,
    Option.some.injEq, Prod.exists, List.mem_zipIdx_iff_getElem?]
  constructor
  · rintro ⟨chunk, index, found, b, below, set, rfl⟩
    have block : (index * 64 + b) / 64 = index := by omega
    have offset : (index * 64 + b) % 64 = b := by omega
    refine ⟨by omega, ?_⟩
    unfold testBlocks
    rw [block, offset, List.getD_eq_getElem?_getD, found]
    exact set
  · rintro ⟨inside, set⟩
    unfold testBlocks at set
    rw [List.getD_eq_getElem?_getD] at set
    cases found : deps[q / 64]? with
    | none =>
        rw [found] at set
        simp at set
    | some chunk =>
        rw [found] at set
        exact ⟨chunk, q / 64, found, q % 64, by omega, set, by omega⟩

/-- The output of a rank, and the rank of an output. -/
theorem outputOrderIDs_iff (terms : List BitTerm) (rank q : Nat) :
    (outputOrderIDs terms)[rank]? = some q ↔
      isOutputTerm terms q = true ∧ outputCount (terms.take q) = rank := by
  induction terms generalizing rank q with
  | nil => simp [outputOrderIDs, isOutputTerm]
  | cons t rest ih =>
      have later (orderID : Nat) : isOutputTerm (t :: rest) (orderID + 1) = isOutputTerm rest orderID := rfl
      rw [outputOrderIDs_cons]
      by_cases input : t.direction = .Input
      · rw [if_pos input, List.nil_append, List.getElem?_map]
        cases q with
        | zero => simp [isOutputTerm, input]
        | succ q =>
            have count : outputCount ((t :: rest).take (q + 1)) = outputCount (rest.take q) := by
              simp [outputCount, input]
            rw [later, count, ← ih]
            simp
      · rw [if_neg input]
        cases q with
        | zero =>
            cases rank with
            | zero => simp [isOutputTerm, input, outputCount]
            | succ rank => simp [outputCount]
        | succ q =>
            have count : outputCount ((t :: rest).take (q + 1)) = outputCount (rest.take q) + 1 := by
              simp [outputCount, input]
            rw [later, count]
            cases rank with
            | zero => simp
            | succ rank =>
                rw [Nat.succ_inj, ← ih]
                simp

/-! ### Defined dependencies -/

/-- `areDependenciesDefined` on the sets of the outputs. -/
def definedOf (flatID : Nat) : Bool → List (List Nat) → Bool
  | foundExplicitDependencies, [] => foundExplicitDependencies
  | _, set :: rest => if set = [] then false else if flatID ∈ set then true else definedOf flatID true rest

/-- An output without dependencies comes before every output that depends on the input. -/
def FallsBack (flatID : Nat) (sets : List (List Nat)) : Prop :=
  ∃ before after, sets = before ++ [] :: after ∧ ∀ set ∈ before, flatID ∉ set

theorem definedOf_iff (flatID : Nat) (found : Bool) (sets : List (List Nat)) :
    definedOf flatID found sets = false ↔ FallsBack flatID sets ∨ (found = false ∧ sets = []) := by
  induction sets generalizing found with
  | nil => simp [definedOf, FallsBack]
  | cons set rest ih =>
      rw [definedOf]
      by_cases empty : set = []
      · rw [if_pos empty]
        refine iff_of_true rfl (Or.inl ⟨[], rest, by rw [empty]; rfl, fun other member => absurd member List.not_mem_nil⟩)
      · rw [if_neg empty]
        by_cases named : flatID ∈ set
        · rw [if_pos named]
          refine iff_of_false Bool.noConfusion ?_
          rintro (⟨before, after, split, others⟩ | ⟨-, none⟩)
          · cases before with
            | nil => exact empty (List.cons.inj split).1
            | cons first before =>
                rw [(List.cons.inj split).1] at named
                exact others first List.mem_cons_self named
          · cases none
        · rw [if_neg named, ih]
          constructor
          · rintro (⟨before, after, rfl, others⟩ | ⟨given, -⟩)
            · refine Or.inl ⟨set :: before, after, rfl, ?_⟩
              intro other member
              rcases List.mem_cons.mp member with rfl | later
              · exact named
              · exact others other later
            · cases given
          · rintro (⟨before, after, split, others⟩ | ⟨-, none⟩)
            · cases before with
              | nil => exact absurd (List.cons.inj split).1 empty
              | cons first before =>
                  exact Or.inl ⟨before, after, (List.cons.inj split).2,
                    fun other member => others other (List.mem_cons_of_mem _ member)⟩
            · cases none

/-- Reading an output gives a table with this dependency set. -/
def ReadsSet (d : Design) (orderID : Nat) (set : List Nat) : Prop :=
  ∃ t, getTruthTable d orderID = .ok t ∧ decodeBits t.dependencies = set

theorem countBits_eq_zero (deps : List Word) : countBitsForVector deps = 0 ↔ decodeBits deps = [] := by
  rw [← length_decodeBits, List.length_eq_zero_iff]

theorem definedLoop_eq (d : Design) (flatID : Nat) (found : Bool) (candidates : List Nat) (sets : List (List Nat))
    (reads : List.Forall₂ (ReadsSet d) candidates sets) :
    definedLoop d flatID found candidates = .ok (definedOf flatID found sets) := by
  induction reads generalizing found with
  | nil => rfl
  | cons read _ ih =>
      obtain ⟨t, given, rfl⟩ := read
      rw [definedLoop, definedOf]
      simp only [given, bind, Except.bind, pure, Except.pure, countBits_eq_zero, List.contains_iff_mem]
      split
      · rfl
      · split
        · rfl
        · exact ih true

/-! ### The queries on stored tables -/

/-- The tables handed to a setter, and the design it leaves. -/
def Accepted (d d' : Design) (tables : List SNLTruthTable) : Prop :=
  setTruthTables d tables = .ok d' ∨ ∃ t, tables = [t] ∧ setTruthTable d t = .ok d'

/-- Each output has its table, the readers agree with what was written, and no short single table
needs several dependency blocks. -/
structure ReadBack (d : Design) (tables : List SNLTruthTable) : Prop where
  plain : d.db0 = none
  outputs : outputCount d.bitTerms = tables.length
  kept : ∀ t ∈ tables, Kept t
  single : ¬ (tables.length = 1 ∧ 64 < d.bitTerms.length ∧ ∃ t ∈ tables, t.size ≤ 6)

theorem accepted_spec (d d' : Design) (tables : List SNLTruthTable) (accepted : Accepted d d' tables) :
    d.parameterTruthTables = [] ∧ tables ≠ [] ∧
      ∃ values, serialize d tables = .ok values ∧ d' = { d with property := some values } := by
  rcases accepted with several | ⟨t, rfl, one⟩
  · obtain ⟨noParameters, -, nonempty, values, written, same⟩ := setTruthTables_ok d d' tables several
    exact ⟨noParameters, nonempty, values, written, same⟩
  · obtain ⟨noParameters, -, values, written, same⟩ := setTruthTable_ok d d' t one
    exact ⟨noParameters, List.cons_ne_nil _ _, values, written, same⟩

theorem hasInput_of_input (d : Design) (i : Nat) (input : direction d i = some .Input) :
    getInputFlatPositions d.bitTerms ≠ [] := by
  intro none
  unfold direction at input
  obtain ⟨t, found, direction⟩ := Option.map_eq_some_iff.mp input
  have member := (mem_getInputFlatPositions d.bitTerms i).mpr ⟨t, found, by rw [direction]; decide⟩
  rw [none] at member
  cases member

/-- A design whose property holds explicit tables that can be read back. -/
structure Held (d : Design) (tables : List SNLTruthTable) (values : List Word) : Prop where
  stored : Stored d tables values
  storable : ∀ t ∈ tables, Storable (getDependencyChunkCount d) t
  outputs : outputCount d.bitTerms = tables.length
  nonempty : tables ≠ []
  single : ¬ (tables.length = 1 ∧ 64 < d.bitTerms.length ∧ ∃ t ∈ tables, t.size ≤ 6)

def setsOf (tables : List SNLTruthTable) : List (List Nat) := tables.map (fun t => decodeBits t.dependencies)

/-- An accepted design holds the explicit tables, with the dependency sets that were stored. -/
theorem held_of_accepted (d d' : Design) (tables : List SNLTruthTable) (accepted : Accepted d d' tables)
    (readBack : ReadBack d tables) (hasInput : getInputFlatPositions d.bitTerms ≠ []) :
    d'.bitTerms = d.bitTerms ∧ ∃ values, Held d' (tables.map (normal d)) values ∧
      setsOf (tables.map (normal d)) = tables.map DependencyQueries.stored := by
  obtain ⟨noParameters, nonempty, values, written, rfl⟩ := accepted_spec d d' tables accepted
  have explicit := serialize_normal d hasInput tables readBack.kept values written
  have valid := valid_of_serialize d tables values written
  refine ⟨rfl, values, ⟨⟨readBack.plain, noParameters, rfl, (serialize_property d _ _).trans explicit⟩, ?_, ?_, ?_, ?_⟩, ?_⟩
  · intro t member
    obtain ⟨u, inTables, rfl⟩ := List.mem_map.mp member
    exact storable_normal d u (readBack.kept u inTables)
  · rw [List.length_map]
    exact readBack.outputs
  · simpa using nonempty
  · rintro ⟨one, wide, t, member, few⟩
    obtain ⟨u, inTables, rfl⟩ := List.mem_map.mp member
    rw [List.length_map] at one
    exact readBack.single ⟨one, wide, u, inTables, few⟩
  · unfold setsOf
    rw [List.map_map]
    refine List.map_congr_left ?_
    intro t member
    obtain ⟨deps, given⟩ := valid t member
    exact decode_normal d t deps given hasInput

section held
variable {d : Design} {tables : List SNLTruthTable} {values : List Word} (held : Held d tables values)
include held

theorem Held.count : getTruthTableCount d = .ok tables.length := held.stored.count held.storable

theorem Held.read (o : Nat) (isOutput : isOutputTerm d.bitTerms o = true) :
    ∃ t, tables[outputCount (d.bitTerms.take o)]? = some t ∧ getTruthTable d o = .ok t := by
  have survives : Survives d tables := by
    unfold Survives
    rw [held.stored.plain]
    exact ⟨held.storable, held.single⟩
  obtain ⟨t, found, read⟩ := ((held.stored.roundTrip_iff held.outputs).mpr survives).tables o isOutput
  rw [outputID_eq _ _ isOutput] at found
  exact ⟨t, found, read⟩

/-- With one table the two readers of a table are one. -/
theorem Held.design_read (one : tables.length = 1) (o : Nat) (isOutput : isOutputTerm d.bitTerms o = true) :
    getDesignTruthTable d = getTruthTable d o := by
  have counted := held.count
  rw [one] at counted
  unfold getTruthTable
  rw [held.stored.plain]
  simp [isOutput, held.stored.noParameters, held.stored.property, counted, bind, Except.bind]

theorem Held.positive : 0 < tables.length := List.length_pos_iff.mpr held.nonempty

/-- The inputs of an output are those of its set, or all of them when it has none. -/
theorem Held.inputs (distinct : (d.bitTerms.map key).Nodup) (i o : Nat) (input : direction d i = some .Input)
    (isOutput : isOutputTerm d.bitTerms o = true) :
    ∃ found t, getCombinatorialInputs d none o = .ok found ∧ tables[outputCount (d.bitTerms.take o)]? = some t ∧
      (i ∈ found ↔ i ∈ decodeBits t.dependencies ∨ decodeBits t.dependencies = []) := by
  obtain ⟨t, ranked, read⟩ := held.read o isOutput
  obtain ⟨term, there, isInput⟩ := Option.map_eq_some_iff.mp input
  have all : i ∈ subCollection d (fun t => t.direction != .Output) :=
    (mem_subCollection d _ i).mpr ⟨term, there, by rw [isInput]; rfl⟩
  have inside : i < d.bitTerms.length := (List.getElem?_eq_some_iff.mp there).1
  have notInput : direction d o ≠ some .Input := by
    intro given
    obtain ⟨out, found, direction⟩ := Option.map_eq_some_iff.mp given
    simp [isOutputTerm, found, direction] at isOutput
  have table : (if tables.length = 1 then getDesignTruthTable d else getTruthTable d o) = .ok t := by
    split
    · next one => rw [held.design_read one o isOutput, read]
    · exact read
  have positive := held.positive
  by_cases none : countBitsForVector t.dependencies = 0
  · refine ⟨_, t, ?_, ranked, iff_of_true all (Or.inr ((countBits_eq_zero _).mp none))⟩
    simp [getCombinatorialInputs, held.count, read, positive, none, bind, Except.bind, pure, Except.pure]
  · refine ⟨termsAt d (depPositions d t.dependencies), t, ?_, ranked, ?_⟩
    · have explicit : 0 < countBitsForVector t.dependencies := Nat.pos_of_ne_zero none
      have nonzero : tables.length ≠ 0 := by omega
      have deps : getCombinatorialInputDepsFromTruthTable d o = .ok (termsAt d (depPositions d t.dependencies)) := by
        by_cases one : tables.length = 1
        · rw [if_pos one] at table
          simp [getCombinatorialInputDepsFromTruthTable, held.count, one, table, none, bind, Except.bind, pure, Except.pure]
        · rw [if_neg one] at table
          simp [getCombinatorialInputDepsFromTruthTable, held.count, nonzero, one, table, none, bind, Except.bind, pure,
            Except.pure]
      simp [getCombinatorialInputs, held.count, read, positive, explicit, getCombinatorialDepsFromTruthTable, notInput,
        deps, bind, Except.bind]
    · rw [mem_termsAt d distinct, mem_depPositions]
      have nonempty : decodeBits t.dependencies ≠ [] := fun empty => none ((countBits_eq_zero _).mpr empty)
      simp [inside, nonempty]

/-- The sets of the outputs, in the order of the loop over them. -/
theorem Held.reads_sets : List.Forall₂ (ReadsSet d) (outputOrderIDs d.bitTerms) (setsOf tables) := by
  have length : (outputOrderIDs d.bitTerms).length = (setsOf tables).length := by
    rw [length_outputOrderIDs, held.outputs, setsOf, List.length_map]
  refine List.forall₂_iff_get.mpr ⟨length, ?_⟩
  intro rank inOutputs inSets
  have placed : (outputOrderIDs d.bitTerms)[rank]? = some ((outputOrderIDs d.bitTerms).get ⟨rank, inOutputs⟩) :=
    List.getElem?_eq_getElem inOutputs
  obtain ⟨isOutput, ranked⟩ := (outputOrderIDs_iff _ _ _).mp placed
  obtain ⟨t, found, read⟩ := held.read _ isOutput
  rw [ranked] at found
  refine ⟨t, read, ?_⟩
  obtain ⟨within, same⟩ := List.getElem?_eq_some_iff.mp found
  simp [setsOf, same]

/-- The outputs of an input are those that depend on it and those without dependencies, or all of
them where the dependencies are not defined. -/
theorem Held.outputsOf (distinct : (d.bitTerms.map key).Nodup) (i o : Nat) (input : direction d i = some .Input)
    (isOutput : isOutputTerm d.bitTerms o = true) :
    ∃ found t, getCombinatorialOutputs d none i = .ok found ∧ tables[outputCount (d.bitTerms.take o)]? = some t ∧
      (o ∈ found ↔ i ∈ decodeBits t.dependencies ∨ decodeBits t.dependencies = [] ∨ FallsBack i (setsOf tables)) := by
  obtain ⟨t, ranked, read⟩ := held.read o isOutput
  have positive := held.positive
  have nonzero : tables.length ≠ 0 := by omega
  have known : areDependenciesDefined d i = .ok (definedOf i false (setsOf tables)) := by
    have loop := definedLoop_eq d i false _ _ held.reads_sets
    simp [areDependenciesDefined, held.count, nonzero, input, loop, bind, Except.bind]
  have placed : o < d.bitTerms.length := by
    obtain ⟨out, found, -⟩ := (Option.any_eq_true _ _).mp isOutput
    exact (List.getElem?_eq_some_iff.mp found).1
  have some_ : setsOf tables ≠ [] := by simpa [setsOf] using held.nonempty
  have iff := definedOf_iff i false (setsOf tables)
  cases given : definedOf i false (setsOf tables) with
  | false =>
      rw [given] at known
      have falls : FallsBack i (setsOf tables) := by
        rcases iff.mp given with falls | ⟨-, none⟩
        · exact falls
        · exact absurd none some_
      obtain ⟨out, found, direction⟩ := (Option.any_eq_true _ _).mp isOutput
      have all : o ∈ subCollection d (fun t => t.direction != .Input) :=
        (mem_subCollection d _ o).mpr ⟨out, found, direction⟩
      refine ⟨_, t, ?_, ranked, iff_of_true all (Or.inr (Or.inr falls))⟩
      simp [getCombinatorialOutputs, held.count, positive, known, bind, Except.bind, pure, Except.pure]
  | true =>
      rw [given] at known
      have stays : ¬ FallsBack i (setsOf tables) := by
        intro falls
        rw [iff.mpr (Or.inl falls)] at given
        contradiction
      have total : (outputOrderIDs d.bitTerms).length = 0 + tables.length := by
        rw [length_outputOrderIDs, held.outputs, Nat.zero_add]
      obtain ⟨ids, walked, members⟩ := outputsLoop_stored d i tables [] values held.storable held.stored.serialized
        values.length 0 (Nat.le_refl _) total
      rw [List.nil_append, List.length_nil] at walked
      refine ⟨termsAt d ids, t, ?_, ranked, ?_⟩
      · simp [getCombinatorialOutputs, held.count, positive, known, getCombinatorialDepsFromTruthTable, input,
          getCombinatorialOutputsDepsFromTruthTable, nonzero, held.stored.property, walked, bind, Except.bind, pure,
          Except.pure]
      · rw [mem_termsAt d distinct, members]
        constructor
        · rintro ⟨-, k, u, found, rank, named⟩
          rw [Nat.zero_add] at rank
          obtain ⟨-, same⟩ := (outputOrderIDs_iff _ _ _).mp rank
          rw [same, found] at ranked
          obtain rfl := Option.some.inj ranked
          rcases named with empty | member
          · exact Or.inr (Or.inl empty)
          · exact Or.inl member
        · intro named
          refine ⟨placed, outputCount (d.bitTerms.take o), t, ranked, ?_, ?_⟩
          · rw [Nat.zero_add]
            exact (outputOrderIDs_iff _ _ _).mpr ⟨isOutput, rfl⟩
          · rcases named with member | empty | falls
            · exact Or.inr member
            · exact Or.inl empty
            · exact absurd falls stays

end held

/-- The two queries on a design that accepted tables. They are converse relations, and say what was
stored, as soon as every output has dependencies. -/
theorem dependency_queries (d d' : Design) (tables : List SNLTruthTable) (accepted : Accepted d d' tables)
    (readBack : ReadBack d tables) (distinct : (d.bitTerms.map key).Nodup) (i o : Nat)
    (input : direction d i = some .Input) (isOutput : isOutputTerm d.bitTerms o = true) :
    ∃ ins outs t, getCombinatorialInputs d' none o = .ok ins ∧ getCombinatorialOutputs d' none i = .ok outs ∧
      tables[outputCount (d.bitTerms.take o)]? = some t ∧
      (i ∈ ins ↔ i ∈ stored t ∨ stored t = []) ∧
      (o ∈ outs ↔ i ∈ stored t ∨ stored t = [] ∨ FallsBack i (tables.map stored)) ∧
      ((∀ u ∈ tables, stored u ≠ []) → (o ∈ outs ↔ i ∈ ins) ∧ (i ∈ ins ↔ i ∈ stored t)) := by
  obtain ⟨terms, values, held, sets⟩ := held_of_accepted d d' tables accepted readBack (hasInput_of_input d i input)
  have distinct' : (d'.bitTerms.map key).Nodup := by rwa [terms]
  have input' : direction d' i = some .Input := by
    unfold direction
    rwa [terms]
  have isOutput' : isOutputTerm d'.bitTerms o = true := by rwa [terms]
  obtain ⟨ins, explicit, readIns, place, inputs⟩ := held.inputs distinct' i o input' isOutput'
  obtain ⟨outs, other, readOuts, place', outputs⟩ := held.outputsOf distinct' i o input' isOutput'
  obtain rfl := Option.some.inj (place.symm.trans place')
  have set : (tables.map stored)[outputCount (d.bitTerms.take o)]? = some (decodeBits explicit.dependencies) := by
    rw [← sets, ← terms, setsOf, List.getElem?_map, place, Option.map_some]
  rw [List.getElem?_map] at set
  obtain ⟨t, found, same⟩ := Option.map_eq_some_iff.mp set
  rw [← same] at inputs
  rw [← same, sets] at outputs
  refine ⟨ins, outs, t, readIns, readOuts, found, inputs, outputs, ?_⟩
  intro dependent
  have some_ : stored t ≠ [] := dependent t (List.mem_of_getElem? found)
  have stays : ¬ FallsBack i (tables.map stored) := by
    rintro ⟨before, after, split, -⟩
    have member : [] ∈ tables.map stored := by simp [split]
    obtain ⟨u, inTables, empty⟩ := List.mem_map.mp member
    exact dependent u inTables empty
  have exact_ : i ∈ ins ↔ i ∈ stored t := by simpa [some_] using inputs
  have exact' : o ∈ outs ↔ i ∈ stored t := by simpa [some_, stays] using outputs
  exact ⟨exact'.trans exact_.symm, exact_⟩

/-- A constant first output and a buffer of the second input, on the bit terms of a half adder. -/
def mixed : Design := { halfAdder with name := "MIXED" }

def mixedTables : List SNLTruthTable := [SNLTruthTable.Logic1, { wideBufferTable with dependencies := [2] }]

def mixedStored : Design := { mixed with property := some [0, 1, 0, 1, 2, 2] }

set_option maxRecDepth 4000 in
theorem mixed_accepted : Accepted mixed mixedStored mixedTables := Or.inl rfl

theorem mixed_readBack : ReadBack mixed mixedTables := by
  refine ⟨rfl, rfl, ?_, by decide⟩
  intro t member
  simp only [mixedTables, List.mem_cons, List.not_mem_nil, or_false] at member
  rcases member with rfl | rfl
  · exact ⟨by decide, by decide⟩
  · exact ⟨by decide, by decide⟩

theorem mixed_dependencies : ∃ ins outs t,
    getCombinatorialInputs mixedStored none 3 = .ok ins ∧ getCombinatorialOutputs mixedStored none 1 = .ok outs ∧
      mixedTables[outputCount (mixed.bitTerms.take 3)]? = some t ∧
      (1 ∈ ins ↔ 1 ∈ stored t ∨ stored t = []) ∧
      (3 ∈ outs ↔ 1 ∈ stored t ∨ stored t = [] ∨ FallsBack 1 (mixedTables.map stored)) ∧
      ((∀ u ∈ mixedTables, stored u ≠ []) → (3 ∈ outs ↔ 1 ∈ ins) ∧ (1 ∈ ins ↔ 1 ∈ stored t)) :=
  dependency_queries mixed mixedStored mixedTables mixed_accepted mixed_readBack (by decide) 1 3 rfl rfl

/-- The constant output comes first, so the buffer is an output of the other input too, and both
inputs are inputs of the constant. -/
theorem not_always_converse : ¬ ∀ (d d' : Design) (tables : List SNLTruthTable), Accepted d d' tables →
    ∀ (i o : Nat) (ins outs : List Nat) (t : SNLTruthTable), direction d i = some .Input →
      isOutputTerm d.bitTerms o = true → tables[outputCount (d.bitTerms.take o)]? = some t →
      getCombinatorialInputs d' none o = .ok ins → getCombinatorialOutputs d' none i = .ok outs →
      (o ∈ outs ↔ i ∈ ins) ∧ (i ∈ ins ↔ i ∈ stored t) := by
  intro always
  have converse := (always mixed mixedStored mixedTables mixed_accepted 0 3 [1] [2, 3] _ rfl rfl rfl rfl rfl).1
  have there : 3 ∈ [2, 3] := by decide
  exact absurd (converse.mp there) (by decide)

end Naja.TruthTable.DependencyQueries
