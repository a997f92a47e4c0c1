import Naja.TruthTable.StorageRoundTrip

/-! When stored tables survive: the exact condition on the design and on the
tables handed to `setTruthTable` and `setTruthTables`. -/

namespace Naja.TruthTable.StorageExact
open Naja.Primitives BitDependencies Storage StorageRoundTrip

/-- Every output reads the table stored for its rank, and the count is right. -/
structure RoundTrip (d : Design) (tables : List SNLTruthTable) : Prop where
  count : getTruthTableCount d = .ok tables.length
  tables : ∀ orderID, isOutputTerm d.bitTerms orderID = true →
    ∃ t, tables[outputID d.bitTerms orderID]? = some t ∧ getTruthTable d orderID = .ok t

/-- The single table of a design with one `Output` bit is read back at that bit. -/
structure SingleRoundTrip (d : Design) (t : SNLTruthTable) : Prop where
  count : getTruthTableCount d = .ok 1
  table : ∀ orderID out, d.bitTerms[orderID]? = some out → out.direction = .Output →
    getTruthTable d orderID = .ok t

/-- The tables a database primitive returns whatever is stored on it. -/
def BuiltIn (d : Design) (kind : DB0Primitive) (tables : List SNLTruthTable) : Prop :=
  match kind with
  | .sequential => False
  | .memory writePorts => writePorts = 0 ∧ ∀ t ∈ tables, t = {}
  | .combinational signature =>
      ∀ orderID, isOutputTerm d.bitTerms orderID = true →
        ∃ t, tables[outputID d.bitTerms orderID]? = some t ∧
          NLDB0.getTruthTable signature orderID = .ok t ∧
          (countsByOutputs signature = true ∨ isNull t = false)

/-- The condition on the design and the tables under which nothing is lost. -/
def Survives (d : Design) (tables : List SNLTruthTable) : Prop :=
  match d.db0 with
  | some kind => BuiltIn d kind tables
  | none =>
      (∀ t ∈ tables, Storable (getDependencyChunkCount d) t) ∧
        ¬ (tables.length = 1 ∧ 64 < d.bitTerms.length ∧ ∃ t ∈ tables, t.size ≤ 6)

/-! ### Outputs and their ranks -/

theorem outputID_lt (terms : List BitTerm) (orderID : Nat)
    (isOutput : isOutputTerm terms orderID = true) : outputID terms orderID < outputCount terms := by
  unfold outputID
  rw [if_pos isOutput]
  unfold isOutputTerm at isOutput
  obtain ⟨t, found, direction⟩ := (Option.any_eq_true _ _).mp isOutput
  obtain ⟨inside, value⟩ := List.getElem?_eq_some_iff.mp found
  have split : terms = terms.take orderID ++ t :: terms.drop (orderID + 1) := by
    rw [← value, List.getElem_cons_drop, List.take_append_drop]
  unfold outputCount
  conv_rhs => rw [split, List.countP_append, List.countP_cons, if_pos direction]
  omega

theorem exists_outputID (terms : List BitTerm) (rank : Nat) (bound : rank < outputCount terms) :
    ∃ orderID, isOutputTerm terms orderID = true ∧ outputCount (terms.take orderID) = rank := by
  induction terms generalizing rank with
  | nil => simp [outputCount] at bound
  | cons t rest ih =>
      have later (orderID : Nat) : isOutputTerm (t :: rest) (orderID + 1) = isOutputTerm rest orderID := rfl
      by_cases direction : t.direction = .Input
      · have count (terms : List BitTerm) : outputCount (t :: terms) = outputCount terms := by
          simp [outputCount, direction]
        rw [count] at bound
        obtain ⟨orderID, isOutput, same⟩ := ih rank bound
        exact ⟨orderID + 1, isOutput, by rw [List.take_succ_cons, count, same]⟩
      · have count (terms : List BitTerm) : outputCount (t :: terms) = outputCount terms + 1 := by
          simp [outputCount, direction]
        cases rank with
        | zero => exact ⟨0, by simp [isOutputTerm, direction], rfl⟩
        | succ rank =>
            rw [count] at bound
            obtain ⟨orderID, isOutput, same⟩ := ih rank (by omega)
            exact ⟨orderID + 1, isOutput, by rw [List.take_succ_cons, count, same]⟩

theorem outputID_eq (terms : List BitTerm) (orderID : Nat)
    (isOutput : isOutputTerm terms orderID = true) :
    outputID terms orderID = outputCount (terms.take orderID) := if_pos isOutput

/-! ### Designs outside the database -/

/-- A design whose property holds the serialised tables. -/
structure Stored (d : Design) (tables : List SNLTruthTable) (values : List Word) : Prop where
  plain : d.db0 = none
  noParameters : d.parameterTruthTables = []
  property : d.property = some values
  serialized : serialize d tables = .ok values

theorem Stored.count_eq {d : Design} {tables : List SNLTruthTable} {values : List Word}
    (stored : Stored d tables values) :
    getTruthTableCount d = countTables d values values.length 0 0 := by
  unfold getTruthTableCount
  rw [stored.plain]
  simp [stored.noParameters, stored.property]

theorem Stored.count {d : Design} {tables : List SNLTruthTable} {values : List Word}
    (stored : Stored d tables values)
    (storable : ∀ t ∈ tables, Storable (getDependencyChunkCount d) t) :
    getTruthTableCount d = .ok tables.length := by
  have counted := countTables_stored d tables [] values storable stored.serialized values.length 0
    (Nat.le_refl _)
  rw [stored.count_eq]
  simpa using counted

/-- A read at an output takes the single-table reader or the index walk, by the count. -/
theorem Stored.getTruthTable_eq {d : Design} {tables : List SNLTruthTable} {values : List Word}
    (stored : Stored d tables values) (count orderID : Nat)
    (counted : getTruthTableCount d = .ok count)
    (isOutput : isOutputTerm d.bitTerms orderID = true) :
    getTruthTable d orderID =
      if count = 1 then readSingleTable d values
      else (seekTable d values (outputID d.bitTerms orderID) (outputID d.bitTerms orderID) 0).bind
        (readTableAt d values) := by
  unfold getTruthTable getDesignTruthTable
  rw [stored.plain]
  simp [isOutput, stored.noParameters, stored.property, counted, bind, Except.bind]

theorem chunkCount_pos (d : Design) (orderID : Nat)
    (isOutput : isOutputTerm d.bitTerms orderID = true) : 0 < getDependencyChunkCount d := by
  have bound := outputID_lt d.bitTerms orderID isOutput
  have length : outputCount d.bitTerms ≤ d.bitTerms.length := List.countP_le_length
  unfold getDependencyChunkCount chunksFromBits
  split <;> omega

theorem chunkCount_lt_two (d : Design) :
    getDependencyChunkCount d < 2 ↔ ¬ 64 < d.bitTerms.length := by
  unfold getDependencyChunkCount chunksFromBits
  split <;> omega

theorem Stored.read_single {d : Design} {t : SNLTruthTable} {values : List Word}
    (stored : Stored d [t] values) (storable : Storable (getDependencyChunkCount d) t)
    (readable : t.size ≤ 6 → getDependencyChunkCount d < 2) (orderID : Nat)
    (isOutput : isOutputTerm d.bitTerms orderID = true) : getTruthTable d orderID = .ok t := by
  have counted := stored.count (by simpa using storable)
  obtain ⟨deps, later, valid, more, same⟩ := serialize_cons d t [] values stored.serialized
  have empty : later = [] := (Except.ok.inj more).symm
  rw [stored.getTruthTable_eq 1 orderID counted isOutput, if_pos rfl, same, empty, List.append_nil]
  exact readSingleTable_stored d t deps storable valid (chunkCount_pos d orderID isOutput) readable

theorem Stored.read_rank {d : Design} {tables : List SNLTruthTable} {values : List Word}
    (stored : Stored d tables values)
    (storable : ∀ t ∈ tables, Storable (getDependencyChunkCount d) t)
    (several : tables.length ≠ 1) (orderID : Nat)
    (isOutput : isOutputTerm d.bitTerms orderID = true) (t : SNLTruthTable)
    (found : tables[outputID d.bitTerms orderID]? = some t) : getTruthTable d orderID = .ok t := by
  have counted := stored.count storable
  obtain ⟨valIdx, seek, read⟩ := seekTable_stored d tables [] values storable stored.serialized
    (outputID d.bitTerms orderID) (outputID d.bitTerms orderID) t found
  rw [List.nil_append] at seek read
  rw [stored.getTruthTable_eq _ orderID counted isOutput, if_neg several]
  exact (congrArg (fun result => Except.bind result (readTableAt d values)) seek).trans read

/-- Whatever a read returns is storable, and a single short table needs one block only. -/
theorem Stored.storable_of_read {d : Design} {tables : List SNLTruthTable} {values : List Word}
    (stored : Stored d tables values) (count orderID : Nat) (t : SNLTruthTable)
    (counted : getTruthTableCount d = .ok count)
    (isOutput : isOutputTerm d.bitTerms orderID = true) (read : getTruthTable d orderID = .ok t) :
    Storable (getDependencyChunkCount d) t ∧
      (count = 1 → t.size ≤ 6 → getDependencyChunkCount d < 2) := by
  rw [stored.getTruthTable_eq count orderID counted isOutput] at read
  split at read
  · obtain ⟨storable, readable⟩ := storable_of_readSingleTable d values t read
    exact ⟨storable, fun _ => readable⟩
  next several =>
    unfold Except.bind at read
    split at read
    · contradiction
    · exact ⟨storable_of_readTableAt d values _ t read, fun one => absurd one several⟩

theorem Stored.roundTrip_iff {d : Design} {tables : List SNLTruthTable} {values : List Word}
    (stored : Stored d tables values) (outputs : outputCount d.bitTerms = tables.length) :
    RoundTrip d tables ↔ Survives d tables := by
  unfold Survives
  rw [stored.plain]
  constructor
  · intro trip
    have each (t : SNLTruthTable) (member : t ∈ tables) :
        Storable (getDependencyChunkCount d) t ∧
          (tables.length = 1 → t.size ≤ 6 → getDependencyChunkCount d < 2) := by
      obtain ⟨rank, bound, rfl⟩ := List.mem_iff_getElem.mp member
      obtain ⟨orderID, isOutput, same⟩ := exists_outputID d.bitTerms rank (by omega)
      obtain ⟨t, found, read⟩ := trip.tables orderID isOutput
      rw [outputID_eq _ _ isOutput, same, List.getElem?_eq_getElem bound] at found
      rw [Option.some.inj found]
      exact stored.storable_of_read tables.length orderID t trip.count isOutput read
    refine ⟨fun t member => (each t member).1, ?_⟩
    rintro ⟨one, wide, t, member, few⟩
    exact (chunkCount_lt_two d).mp ((each t member).2 one few) wide
  · rintro ⟨storable, readable⟩
    refine ⟨stored.count storable, ?_⟩
    intro orderID isOutput
    have rank := outputID_lt d.bitTerms orderID isOutput
    rw [outputs] at rank
    have found := List.getElem?_eq_getElem rank
    refine ⟨_, found, ?_⟩
    by_cases one : tables.length = 1
    · obtain ⟨t, rfl⟩ := List.length_eq_one_iff.mp one
      have first : outputID d.bitTerms orderID = 0 := by simpa using rank
      simp only [first, List.getElem_cons_zero]
      refine stored.read_single (storable t List.mem_cons_self) ?_ orderID isOutput
      intro few
      rw [chunkCount_lt_two]
      intro wide
      exact readable ⟨one, wide, t, List.mem_cons_self, few⟩
    · exact stored.read_rank storable one orderID isOutput _ found

theorem Stored.singleRoundTrip_iff {d : Design} {t : SNLTruthTable} {values : List Word}
    (stored : Stored d [t] values) (orderID : Nat) (out : BitTerm)
    (found : d.bitTerms[orderID]? = some out) (direction : out.direction = .Output) :
    SingleRoundTrip d t ↔ Survives d [t] := by
  have output (orderID : Nat) (out : BitTerm) (found : d.bitTerms[orderID]? = some out)
      (direction : out.direction = .Output) : isOutputTerm d.bitTerms orderID = true := by
    simp [isOutputTerm, found, direction]
  unfold Survives
  rw [stored.plain]
  constructor
  · intro trip
    obtain ⟨storable, readable⟩ := stored.storable_of_read 1 orderID t trip.count
      (output orderID out found direction) (trip.table orderID out found direction)
    refine ⟨by simpa using storable, ?_⟩
    rintro ⟨-, wide, other, member, few⟩
    rw [List.mem_singleton] at member
    rw [member] at few
    exact (chunkCount_lt_two d).mp (readable rfl few) wide
  · rintro ⟨storable, readable⟩
    refine ⟨stored.count storable, ?_⟩
    intro orderID out found direction
    refine stored.read_single (storable t List.mem_cons_self) ?_ orderID
      (output orderID out found direction)
    intro few
    rw [chunkCount_lt_two]
    intro wide
    exact readable ⟨rfl, wide, t, List.mem_cons_self, few⟩

/-! ### Primitives of the database -/

theorem outputOrderIDs_cons (t : BitTerm) (rest : List BitTerm) :
    outputOrderIDs (t :: rest) = (if t.direction = .Input then [] else [0]) ++ (outputOrderIDs rest).map Nat.succ := by
  have later : ((List.range rest.length).map Nat.succ).filter (isOutputTerm (t :: rest)) =
      (outputOrderIDs rest).map Nat.succ := by
    rw [List.filter_map]
    rfl
  unfold outputOrderIDs
  rw [List.length_cons, List.range_succ_eq_map, List.filter_cons, later]
  by_cases input : t.direction = .Input
  · simp [isOutputTerm, input, outputOrderIDs]
  · simp [isOutputTerm, input, outputOrderIDs]

theorem length_outputOrderIDs (terms : List BitTerm) :
    (outputOrderIDs terms).length = outputCount terms := by
  induction terms with
  | nil => rfl
  | cons t rest ih =>
      rw [outputOrderIDs_cons, List.length_append, List.length_map, ih]
      by_cases direction : t.direction = .Input
      · simp [outputCount, direction]
      · simp [outputCount, direction, Nat.add_comm]

/-- Reading counts every output only when every read succeeds with a non-null table. -/
theorem countReadTables_spec (signature : NLDB0.Signature) (orderIDs : List Nat) (count : Nat)
    (counted : countReadTables signature orderIDs = .ok count) :
    count ≤ orderIDs.length ∧ (count = orderIDs.length →
      ∀ orderID ∈ orderIDs, ∀ t, NLDB0.getTruthTable signature orderID = .ok t → isNull t = false) := by
  induction orderIDs generalizing count with
  | nil =>
      rw [← Except.ok.inj counted]
      exact ⟨Nat.le_refl _, fun _ orderID member => absurd member (List.not_mem_nil)⟩
  | cons first rest ih =>
      simp only [countReadTables, bind, Except.bind, pure, Except.pure] at counted
      split at counted
      · contradiction
      next t read =>
        split at counted
        · contradiction
        next later more =>
          obtain ⟨bound, nonNull⟩ := ih later more
          have total := Except.ok.inj counted
          rw [List.length_cons]
          cases null : isNull t with
          | true =>
              simp only [null, if_true] at total
              exact ⟨by omega, by omega⟩
          | false =>
              simp only [null, Bool.false_eq_true, if_false] at total
              refine ⟨by omega, ?_⟩
              intro all orderID member other result
              rcases List.mem_cons.mp member with same | inRest
              · rw [same, read] at result
                rw [← Except.ok.inj result, null]
              · exact nonNull (by omega) orderID inRest other result

theorem countReadTables_eq (signature : NLDB0.Signature) (orderIDs : List Nat)
    (readable : ∀ orderID ∈ orderIDs, ∃ t, NLDB0.getTruthTable signature orderID = .ok t ∧
      isNull t = false) :
    countReadTables signature orderIDs = .ok orderIDs.length := by
  induction orderIDs with
  | nil => rfl
  | cons first rest ih =>
      obtain ⟨t, read, nonNull⟩ := readable first List.mem_cons_self
      have later := ih (fun orderID member => readable orderID (List.mem_cons_of_mem _ member))
      simp [countReadTables, read, nonNull, later, bind, Except.bind, pure, Except.pure]

theorem mem_outputOrderIDs (terms : List BitTerm) (orderID : Nat) :
    orderID ∈ outputOrderIDs terms ↔ isOutputTerm terms orderID = true := by
  unfold outputOrderIDs
  rw [List.mem_filter, List.mem_range]
  constructor
  · intro member
    exact member.2
  · intro isOutput
    obtain ⟨t, found, -⟩ := (Option.any_eq_true _ _).mp isOutput
    exact ⟨(List.getElem?_eq_some_iff.mp found).1, isOutput⟩

theorem builtIn_roundTrip_iff (d : Design) (kind : DB0Primitive) (tables : List SNLTruthTable)
    (isDB0 : d.db0 = some kind) (outputs : outputCount d.bitTerms = tables.length)
    (nonempty : tables ≠ []) : RoundTrip d tables ↔ Survives d tables := by
  have positive : 0 < tables.length := List.length_pos_iff.mpr nonempty
  unfold Survives
  rw [isDB0]
  cases kind with
  | sequential =>
      refine iff_of_false ?_ id
      intro trip
      have zero := trip.count
      unfold getTruthTableCount at zero
      rw [isDB0] at zero
      have same := Except.ok.inj zero
      omega
  | memory writePorts =>
      have read (orderID : Nat) : getTruthTable d orderID = .ok {} := by
        unfold getTruthTable
        rw [isDB0]
      have counted : getTruthTableCount d =
          if writePorts ≠ 0 then .ok 0 else .ok (outputCount d.bitTerms) := by
        unfold getTruthTableCount
        rw [isDB0]
      constructor
      · intro trip
        have readOnly : writePorts = 0 := by
          by_contra written
          have zero := trip.count
          rw [counted, if_pos written] at zero
          have same := Except.ok.inj zero
          omega
        refine ⟨readOnly, ?_⟩
        intro t member
        obtain ⟨rank, bound, rfl⟩ := List.mem_iff_getElem.mp member
        obtain ⟨orderID, isOutput, same⟩ := exists_outputID d.bitTerms rank (by omega)
        obtain ⟨t, found, result⟩ := trip.tables orderID isOutput
        rw [outputID_eq _ _ isOutput, same, List.getElem?_eq_getElem bound] at found
        rw [read] at result
        rw [Option.some.inj found, ← Except.ok.inj result]
      · rintro ⟨readOnly, empty⟩
        refine ⟨by rw [counted, if_neg (by simp [readOnly]), outputs], ?_⟩
        intro orderID isOutput
        have rank := outputID_lt d.bitTerms orderID isOutput
        rw [outputs] at rank
        refine ⟨_, List.getElem?_eq_getElem rank, ?_⟩
        rw [read, empty _ (List.getElem_mem rank)]
  | combinational signature =>
      have read (orderID : Nat) : getTruthTable d orderID = NLDB0.getTruthTable signature orderID := by
        unfold getTruthTable
        rw [isDB0]
      have counted : getTruthTableCount d =
          if countsByOutputs signature then .ok (outputCount d.bitTerms)
          else countReadTables signature (outputOrderIDs d.bitTerms) := by
        unfold getTruthTableCount
        rw [isDB0]
      constructor
      · intro trip orderID isOutput
        obtain ⟨t, found, result⟩ := trip.tables orderID isOutput
        rw [read] at result
        refine ⟨t, found, result, ?_⟩
        cases family : countsByOutputs signature with
        | true => exact Or.inl rfl
        | false =>
            have count := trip.count
            rw [counted, family, ← outputs, ← length_outputOrderIDs] at count
            exact Or.inr ((countReadTables_spec signature _ _ count).2 rfl orderID
              ((mem_outputOrderIDs _ _).mpr isOutput) t result)
      · intro builtIn
        refine ⟨?_, ?_⟩
        · rw [counted]
          cases family : countsByOutputs signature with
          | true => rw [if_pos rfl, outputs]
          | false =>
              rw [if_neg Bool.false_ne_true, countReadTables_eq, length_outputOrderIDs, outputs]
              intro orderID member
              obtain ⟨t, -, result, nonNull⟩ :=
                builtIn orderID ((mem_outputOrderIDs _ _).mp member)
              exact ⟨t, result, nonNull.resolve_left (by simp [family])⟩
        · intro orderID isOutput
          obtain ⟨t, found, result, -⟩ := builtIn orderID isOutput
          exact ⟨t, found, (read orderID).trans result⟩

/-! ### The setters -/

theorem serialize_property (d : Design) (property : Option (List Word)) (tables : List SNLTruthTable) :
    serialize { d with property := property } tables = serialize d tables := by
  induction tables with
  | nil => rfl
  | cons t rest ih =>
      unfold serialize
      rw [ih]
      rfl

theorem checkNoTruthTable_ok (d : Design) (checked : checkNoTruthTable d = .ok ()) :
    d.parameterTruthTables = [] := by
  unfold checkNoTruthTable at checked
  split at checked
  · contradiction
  split at checked
  · contradiction
  split at checked
  · contradiction
  next empty => simpa using empty

theorem createTruthTableProperty_ok (d d' : Design) (tables : List SNLTruthTable)
    (created : createTruthTableProperty d tables = .ok d') :
    ∃ values, serialize d tables = .ok values ∧ d' = { d with property := some values } := by
  simp only [createTruthTableProperty, bind, Except.bind, pure, Except.pure] at created
  split at created
  · contradiction
  next values stored => exact ⟨values, stored, (Except.ok.inj created).symm⟩

theorem setTruthTable_ok (d d' : Design) (t : SNLTruthTable) (set : setTruthTable d t = .ok d') :
    d.parameterTruthTables = [] ∧ d.bitTerms.countP (fun t => t.direction == .Output) = 1 ∧
      ∃ values, serialize d [t] = .ok values ∧ d' = { d with property := some values } := by
  simp only [setTruthTable, bind, Except.bind] at set
  split at set
  · contradiction
  next checked =>
    split at set
    · contradiction
    next one =>
      exact ⟨checkNoTruthTable_ok d checked, Decidable.not_not.mp one,
        createTruthTableProperty_ok d d' [t] set⟩

theorem setTruthTables_ok (d d' : Design) (tables : List SNLTruthTable)
    (set : setTruthTables d tables = .ok d') :
    d.parameterTruthTables = [] ∧ outputCount d.bitTerms = tables.length ∧ tables ≠ [] ∧
      ∃ values, serialize d tables = .ok values ∧ d' = { d with property := some values } := by
  simp only [setTruthTables, bind, Except.bind] at set
  split at set
  · contradiction
  next checked =>
    split at set
    · contradiction
    next outputs =>
      split at set
      · contradiction
      next nonempty =>
        refine ⟨checkNoTruthTable_ok d checked, Decidable.not_not.mp outputs, ?_,
          createTruthTableProperty_ok d d' tables set⟩
        intro empty
        exact nonempty (by rw [empty]; rfl)

/-- Database primitives have no inout bits: their one `Output` bit is their one output. -/
theorem builtIn_single_iff (d : Design) (kind : DB0Primitive) (t : SNLTruthTable)
    (isDB0 : d.db0 = some kind)
    (one : d.bitTerms.countP (fun t => t.direction == .Output) = 1) :
    SingleRoundTrip d t ↔ Survives d [t] := by
  have directions (out : BitTerm) (member : out ∈ d.bitTerms) :
      (out.direction == .Output) = (out.direction != .Input) := by
    rcases d.directed kind isDB0 out member with direction | direction <;> rw [direction] <;> rfl
  have outputs : outputCount d.bitTerms = 1 := by
    rw [← one]
    exact (List.countP_congr (fun out member => by rw [directions out member])).symm
  rw [← builtIn_roundTrip_iff d kind [t] isDB0 outputs (List.cons_ne_nil _ _)]
  have first (orderID : Nat) (isOutput : isOutputTerm d.bitTerms orderID = true) :
      outputID d.bitTerms orderID = 0 := by
    have bound := outputID_lt d.bitTerms orderID isOutput
    omega
  constructor
  · intro trip
    refine ⟨trip.count, ?_⟩
    intro orderID isOutput
    obtain ⟨out, found, direction⟩ := (Option.any_eq_true _ _).mp isOutput
    rw [← directions out (List.mem_of_getElem? found)] at direction
    exact ⟨t, by rw [first orderID isOutput]; rfl,
      trip.table orderID out found (by simpa using direction)⟩
  · intro trip
    refine ⟨trip.count, ?_⟩
    intro orderID out found direction
    have isOutput : isOutputTerm d.bitTerms orderID = true := by
      simp [isOutputTerm, found, direction]
    obtain ⟨other, stored, read⟩ := trip.tables orderID isOutput
    rw [first orderID isOutput] at stored
    rw [Option.some.inj stored]
    exact read

/-- Stored tables are read back exactly when the design and the tables meet `Survives`. -/
theorem stored_tables_round_trip (d d' : Design) (t : SNLTruthTable) (tables : List SNLTruthTable) :
    (setTruthTable d t = .ok d' → (SingleRoundTrip d' t ↔ Survives d [t])) ∧
    (setTruthTables d tables = .ok d' → (RoundTrip d' tables ↔ Survives d tables)) := by
  constructor
  · intro set
    obtain ⟨noParameters, one, values, serialized, rfl⟩ := setTruthTable_ok d d' t set
    by_cases plain : d.db0 = none
    · have stored : Stored { d with property := some values } [t] values :=
        ⟨plain, noParameters, rfl, (serialize_property d _ [t]).trans serialized⟩
      have positive : 0 < d.bitTerms.countP (fun t => t.direction == .Output) := by omega
      obtain ⟨out, member, direction⟩ := List.countP_pos_iff.mp positive
      obtain ⟨orderID, found⟩ := List.mem_iff_getElem?.mp member
      exact stored.singleRoundTrip_iff orderID out found (by simpa using direction)
    · obtain ⟨kind, isDB0⟩ := Option.ne_none_iff_exists'.mp plain
      exact builtIn_single_iff { d with property := some values } kind t isDB0 one
  · intro set
    obtain ⟨noParameters, outputs, nonempty, values, serialized, rfl⟩ :=
      setTruthTables_ok d d' tables set
    by_cases plain : d.db0 = none
    · have stored : Stored { d with property := some values } tables values :=
        ⟨plain, noParameters, rfl, (serialize_property d _ tables).trans serialized⟩
      exact stored.roundTrip_iff outputs
    · obtain ⟨kind, isDB0⟩ := Option.ne_none_iff_exists'.mp plain
      exact builtIn_roundTrip_iff { d with property := some values } kind tables isDB0 outputs nonempty

/-- A half adder: two inputs, then the sum and the carry. -/
def halfAdder : Design :=
  { name := "HA", isPrimitive := true,
    bitTerms := [⟨0, 0, .Input⟩, ⟨1, 0, .Input⟩, ⟨2, 0, .Output⟩, ⟨3, 0, .Output⟩] }

def halfAdderTables : List SNLTruthTable :=
  [{ size := 2, bits := ⟨4, .mask 0b0110, rfl⟩, dependencies := [3] },
   { size := 2, bits := ⟨4, .mask 0b1000, rfl⟩, dependencies := [3] }]

theorem half_adder_survives : Survives halfAdder halfAdderTables := by
  refine ⟨?_, by simp [halfAdderTables]⟩
  intro t member
  simp only [halfAdderTables, List.mem_cons, List.not_mem_nil, or_false] at member
  have masks : t.bits.data.isMask = true ∧ t.size ≠ 0 := by
    rcases member with rfl | rfl <;> decide
  have vector (bits : List Bool) (same : t.bits.data = .vector bits) : bits.length = 2 ^ t.size := by
    rw [same] at masks
    exact absurd masks.1 Bool.false_ne_true
  rcases member with rfl | rfl <;>
    exact ⟨rfl, by decide, rfl, vector, fun constant => absurd constant masks.2, fun _ => rfl⟩

set_option maxRecDepth 4000 in
theorem half_adder_round_trip :
    setTruthTables halfAdder halfAdderTables =
      .ok { halfAdder with property := some [2, 6, 3, 2, 8, 3] } ∧
    RoundTrip { halfAdder with property := some [2, 6, 3, 2, 8, 3] } halfAdderTables :=
  ⟨rfl, ((stored_tables_round_trip halfAdder _ {} halfAdderTables).2 rfl).mpr half_adder_survives⟩

/-- A buffer of the first of 64 inputs: 65 bit terms, so two dependency blocks. -/
def wideBuffer : Design :=
  { name := "BUF64", isPrimitive := true,
    bitTerms := (NLDB0.input 0 64).getBits ++ [(NLDB0.output 1 1).getBit 0] }

def wideBufferTable : SNLTruthTable :=
  { size := 1, bits := ⟨2, .mask 0b10, rfl⟩, dependencies := [1, 0] }

set_option maxRecDepth 4000 in
theorem wide_buffer_read_throws :
    setTruthTable wideBuffer wideBufferTable =
      .ok { wideBuffer with property := some [1, 2, 1, 0] } ∧
    getTruthTable { wideBuffer with property := some [1, 2, 1, 0] } 64 =
      .error "Truth table size 2 is not larger than 64 bits" ∧
    ¬ SingleRoundTrip { wideBuffer with property := some [1, 2, 1, 0] } wideBufferTable := by
  have throws : getTruthTable { wideBuffer with property := some [1, 2, 1, 0] } 64 =
      .error "Truth table size 2 is not larger than 64 bits" := by rfl
  refine ⟨by rfl, throws, ?_⟩
  intro trip
  have read := trip.table 64 ((NLDB0.output 1 1).getBit 0) rfl rfl
  rw [throws] at read
  contradiction

end Naja.TruthTable.StorageExact
