import Naja.ConstantPropagation.Termination
import Naja.TruthTable.ReductionSound

/-! When the constants found by the truth-table engine are right: what a leaf
has to look like for the engine to read its table through the right pins. -/

namespace Naja.ConstantPropagation
open Naja.TruthTable Naja.TruthTable.BitDependencies
open Naja.Primitives.PinRoles (evaluate)

/-! ### Valuations -/

/-- Values of the isos, and of the pins of every leaf (a pin on no net has a value of its own). -/
structure Valuation where
  iso : Nat → Bool
  pins : Nat → List Bool

/-- Every terminal with a declared table has the value the table gives for its pins. -/
def Leaf.Computes (l : Leaf) (pins : List Bool) : Prop :=
  ∀ (position : Nat) (t : SNLTruthTable) (value : Bool), l.tables[position]? = some (some t) →
    tableValue t ((decodeBits t.dependencies).map (fun pin => pins.getD pin false)) = some value →
    pins[position]? = some value

/-- The valuation agrees with the constant nets and with all leaf truth tables. -/
structure Consistent (n : Netlist) (v : Valuation) : Prop where
  zeros : ∀ iso ∈ n.constant0Isos, v.iso iso = false
  ones : ∀ iso ∈ n.constant1Isos, v.iso iso = true
  wired : ∀ (index : Nat) (l : Leaf) (position : Nat) (t : LeafTerm), n.leaves[index]? = some l → l.terms[position]? = some t →
    t.iso ≠ DNLID_MAX → (v.pins index)[position]? = some (v.iso t.iso)
  computes : ∀ (index : Nat) (l : Leaf), n.leaves[index]? = some l →
    (v.pins index).length = l.terms.length ∧ l.Computes (v.pins index)

/-! ### Leaves the engine reads right -/

/-- The input terminals with their positions. -/
def Leaf.inputPairs (l : Leaf) : List (LeafTerm × Nat) :=
  l.terms.zipIdx.filter (fun pair => pair.1.direction == .Input)

/-- `t` is the declared table of every output, and its inputs are all the input pins in order. -/
structure DeclaredBy (l : Leaf) (t : SNLTruthTable) : Prop where
  outputs : ∀ (position : Nat) (term : LeafTerm), l.terms[position]? = some term → term.direction = .Output →
    l.tables[position]? = some (some t)
  pins : decodeBits t.dependencies = l.inputPairs.map Prod.snd
  size : t.size = l.inputs.length

/-- A table that is never reduced to a constant: any constant input makes the reduction throw. -/
structure NeverReduced (t : SNLTruthTable) : Prop where
  type : t.genericType ∈ [GenericType.TABLE_SELECT, .DIVMOD, .ROM]
  noRows : t.bits.nbits = 0

/-- The table the engine uses for the single output of a leaf describes it. -/
def DescribesOutput (l : Leaf) : Prop :=
  match l.vector with
  | .none => ∀ t, l.getTruthTable = .ok t → t.isInitialized = true → NeverReduced t ∨
      DeclaredBy l t ∧ (IsGate t ∧ t.size < 2 ^ 32 ∨ Explicit t ∧ (l.inputs.map LeafTerm.id).Nodup)
  | .select width selectWidth abits isSigned => selectWidth = 1 → ∀ t,
      Naja.Primitives.NLDB0.getVectorSelectTruthTable width selectWidth abits isSigned
        (Naja.Primitives.NLDB0.getOrderID (.vectorSelect width selectWidth abits isSigned)
          ((Naja.Primitives.NLDB0.output 2 selectWidth).getBit 0)) = .ok t → DeclaredBy l t
  | .update width updateWidth abits isSigned => width = 1 → ∀ t,
      Naja.Primitives.NLDB0.getVectorUpdateTruthTable width updateWidth abits isSigned
        (Naja.Primitives.NLDB0.getOrderID (.vectorUpdate width updateWidth abits isSigned)
          ((Naja.Primitives.NLDB0.output 4 width).getBit 0)) = .ok t → DeclaredBy l t

/-- The leaf reads an iso that can be found constant. -/
def Reached (n : Netlist) (l : Leaf) : Prop := ∃ iso value, Reads n l iso ∧ Forced true n iso value

/-- The netlists on which the engine is right. -/
structure Faithful (n : Netlist) : Prop where
  /-- The model name of a leaf with an output Q stands for no type that would be evaluated. -/
  named : ∀ l ∈ n.leaves, Reached n l → l.q.isSome = true → l.vector = .none ∧
    (designObjectID2Type n l.modelID = none ∨ designObjectID2Type n l.modelID = some .HA)
  described : ∀ l ∈ n.leaves, Reached n l → l.q = none → l.outputs.length = 1 → DescribesOutput l
  /-- No constant on an unconnected output next to an unconnected input: both have one iso ID. -/
  connected : (∀ value, ¬ Forced true n DNLID_MAX value) ∨
    ∀ l ∈ n.leaves, Reached n l → ∀ t ∈ l.inputs, t.iso ≠ DNLID_MAX
  logic0 : ∀ l ∈ n.leaves, some l.model = n.logic0 → ∀ (position : Nat) (t : LeafTerm),
    l.terms[position]? = some t → t.direction = .Output → l.tables[position]? = some (some SNLTruthTable.Logic0)
  logic1 : ∀ l ∈ n.leaves, some l.model = n.logic1 → ∀ (position : Nat) (t : LeafTerm),
    l.terms[position]? = some t → t.direction = .Output → l.tables[position]? = some (some SNLTruthTable.Logic1)

theorem inputs_eq (l : Leaf) : l.inputs = l.inputPairs.map Prod.fst := by
  unfold Leaf.inputs Leaf.inputPairs
  conv_lhs => rw [← List.zipIdx_map_fst 0 l.terms]
  rw [List.filter_map]
  rfl

theorem getElem?_inputPairs (l : Leaf) (pair : LeafTerm × Nat) (member : pair ∈ l.inputPairs) :
    l.terms[pair.2]? = some pair.1 ∧ pair.1.direction = .Input := by
  obtain ⟨inTerms, isInput⟩ := List.mem_filter.mp member
  exact ⟨List.mem_zipIdx_iff_getElem?.mp inTerms, by simpa using isInput⟩

theorem exists_position (l : Leaf) (t : LeafTerm) (member : t ∈ l.outputs) :
    ∃ position : Nat, l.terms[position]? = some t ∧ t.direction = .Output := by
  obtain ⟨inTerms, isOutput⟩ := List.mem_filter.mp member
  obtain ⟨position, found⟩ := List.getElem?_of_mem inTerms
  exact ⟨position, found, by simpa using isOutput⟩

theorem NeverReduced.outcome {t r : SNLTruthTable} (never : NeverReduced t) (ids : List Nat)
    (consts : List (Nat × Bool)) (reduced : reduceTruthTable ids t consts = .ok r) : tableOutcome r = none := by
  have types : t.genericType = .TABLE_SELECT ∨ t.genericType = .DIVMOD ∨ t.genericType = .ROM := by
    simpa using never.type
  simp only [reduceTruthTable, bind, Except.bind] at reduced
  split at reduced
  · contradiction
  next t' built =>
    have shape : t'.bits.nbits = 0 ∧ t'.genericType = t.genericType := by
      unfold withLocalDependencies at built
      simp only at built
      split at built
      · have select : t.genericType ≠ .VECTOR_SELECT := by
          rcases types with type | type | type <;> rw [type] <;> decide
        have update : t.genericType ≠ .VECTOR_UPDATE := by
          rcases types with type | type | type <;> rw [type] <;> decide
        have generic : t.isGeneric = true := by
          unfold SNLTruthTable.isGeneric
          rcases types with type | type | type <;> rw [type] <;> decide
        rw [if_neg select, if_neg update, if_pos generic] at built
        obtain ⟨noRows, type, -⟩ := ofGeneric_noRows _ _ _ _ _ _ built
        exact ⟨noRows, type⟩
      · rw [← Except.ok.inj built]
        exact ⟨never.noRows, rfl⟩
    unfold SNLTruthTable.getReducedWithConstants at reduced
    split at reduced
    · contradiction
    split at reduced
    · rw [← Except.ok.inj reduced]
      exact tableOutcome_of_noRows t' shape.1
    split at reduced
    · rw [← Except.ok.inj reduced]
      exact tableOutcome_of_noRows t' shape.1
    split at reduced
    · contradiction
    rw [shape.2] at reduced
    rcases types with type | type | type
    · rw [type] at reduced
      contradiction
    · rw [type] at reduced
      contradiction
    · rw [type] at reduced
      contradiction

/-! ### One leaf -/

/-- The constants are right in the valuation. -/
structure RightIn (v : Valuation) (k : Constants) : Prop where
  zeros : ∀ iso ∈ k.zero, iso ≠ DNLID_MAX → v.iso iso = false
  ones : ∀ iso ∈ k.one, iso ≠ DNLID_MAX → v.iso iso = true

section Leaves
variable {n : Netlist} {v : Valuation} {k : Constants} {l : Leaf} {index : Nat}

/-- An input of a reached leaf that counts as a constant is connected. -/
theorem connected_of_known (faithful : Faithful n) (known : Known true n k) (member : l ∈ n.leaves)
    (reached : Reached n l) (t : LeafTerm) (isInput : t ∈ l.inputs) (constant : isKnown k t.iso = true) :
    t.iso ≠ DNLID_MAX := by
  rcases faithful.connected with never | connected
  · intro same
    rw [same, isKnown_iff] at constant
    rcases constant with zero | one
    · exact never false (known.zeros _ zero)
    · exact never true (known.ones _ one)
  · exact connected l member reached t isInput

/-- The values the engine reads on the inputs are the values of the pins. -/
theorem inputs_right (faithful : Faithful n) (consistent : Consistent n v) (known : Known true n k)
    (right : RightIn v k) (found : n.leaves[index]? = some l) (reached : Reached n l) :
    Extends (l.inputs.map (valueOf k)) (l.inputPairs.map (fun pair => (v.pins index).getD pair.2 false)) := by
  unfold Extends
  rw [inputs_eq, List.map_map, List.forall₂_map_left_iff, List.forall₂_map_right_iff, List.forall₂_same]
  intro pair member b value
  obtain ⟨here, isInput⟩ := getElem?_inputPairs l pair member
  have constant : isKnown k pair.1.iso = true := by
    rw [isKnown_iff]
    rw [Function.comp_apply] at value
    unfold valueOf at value
    split at value
    · next zero => exact Or.inl zero
    · split at value
      · next one => exact Or.inr one
      · contradiction
  have connected : pair.1.iso ≠ DNLID_MAX := by
    apply connected_of_known faithful known (List.mem_of_getElem? found) reached pair.1 _ constant
    rw [inputs_eq]
    exact List.mem_map_of_mem member
  have wire := consistent.wired index l pair.2 pair.1 found here connected
  rw [List.getD_eq_getElem?_getD, wire, Option.getD_some]
  rw [Function.comp_apply] at value
  unfold valueOf at value
  split at value
  · next zero => rw [right.zeros _ zero connected, ← Option.some.inj value]
  · split at value
    · next one => rw [right.ones _ one connected, ← Option.some.inj value]
    · contradiction

theorem constTerms_eq (k : Constants) (l : Leaf) :
    constTerms k l = constantPins (l.inputs.map LeafTerm.id) (l.inputs.map (valueOf k)) := by
  unfold constTerms constantPins
  rw [List.zip_map', List.filterMap_map]
  rfl

/-- Where all inputs are constant, what the engine reads is the list of pin values. -/
theorem allInputValues_right (k : Constants) (l : Leaf) (pins values : List Bool)
    (extends_ : Extends (l.inputs.map (valueOf k)) pins) (all : allInputValues k l = some values) :
    values = pins := by
  unfold allInputValues at all
  generalize l.inputs = inputs at extends_ all
  induction inputs generalizing values pins with
  | nil =>
      rw [List.mapM_nil] at all
      cases extends_
      exact (Option.some.inj all).symm
  | cons t rest ih =>
      rw [List.mapM_cons] at all
      obtain ⟨first, here, later⟩ := Option.bind_eq_some_iff.mp all
      obtain ⟨others, there, same⟩ := Option.bind_eq_some_iff.mp later
      rw [List.map_cons] at extends_
      cases extends_ with
      | cons agrees rest' =>
          rw [← Option.some.inj same, agrees first here, ih _ others rest' there]

theorem computed_right (consistent : Consistent n v) (found : n.leaves[index]? = some l) (t : SNLTruthTable)
    (declared : DeclaredBy l t) (value : Bool)
    (gives : tableValue t (l.inputPairs.map (fun pair => (v.pins index).getD pair.2 false)) = some value)
    (output : LeafTerm) (member : output ∈ l.outputs) (connected : output.iso ≠ DNLID_MAX) :
    v.iso output.iso = value := by
  obtain ⟨position, here, isOutput⟩ := exists_position l output member
  have computes := (consistent.computes index l found).2 position t value
    (declared.outputs position output here isOutput)
    (by rw [declared.pins, List.map_map]; exact gives)
  rw [consistent.wired index l position output found here connected] at computes
  exact Option.some.inj computes

theorem computeOutputValue_right (faithful : Faithful n) (consistent : Consistent n v)
    (known : Known true n k) (right : RightIn v k) (found : n.leaves[index]? = some l)
    (reached : Reached n l) (unnamed : l.q = none) (single : l.outputs.length = 1) (value : Bool)
    (evaluated : computeOutputValue k l = .ok (some value)) (output : LeafTerm) (member : output ∈ l.outputs)
    (connected : output.iso ≠ DNLID_MAX) : v.iso output.iso = value := by
  have described := faithful.described l (List.mem_of_getElem? found) reached unnamed single
  have extends_ := inputs_right faithful consistent known right found reached
  unfold DescribesOutput at described
  unfold computeOutputValue at evaluated
  cases vector : l.vector with
  | none =>
      rw [vector] at described evaluated
      simp only [bind, Except.bind, pure, Except.pure] at evaluated described
      split at evaluated
      · contradiction
      next t table =>
        split at evaluated
        · exact absurd (Except.ok.inj evaluated) nofun
        next initialized =>
          split at evaluated
          · exact absurd (Except.ok.inj evaluated) nofun
          split at evaluated
          · contradiction
          next r reduced =>
            have outcome := Except.ok.inj evaluated
            rcases described t table (by simpa using initialized) with never | ⟨declared, kind⟩
            · rw [never.outcome _ _ reduced] at outcome
              contradiction
            · rw [constTerms_eq] at reduced
              have gives := reduceTruthTable_sound _ t r _ _ value kind (by simp)
                (by rw [declared.size, List.length_map]) extends_ reduced outcome
              apply computed_right consistent found t declared value _ output member connected
              rw [← gives]
              unfold tableValue
              rcases kind with ⟨gate, -⟩ | ⟨explicit, -⟩
              · have type := gate.type
                simp only [List.mem_cons, List.not_mem_nil, or_false] at type
                rcases type with type | type | type | type | type | type <;> rw [type]
              · rw [explicit.type]
  | select width selectWidth abits isSigned =>
      rw [vector] at described evaluated
      simp only at described evaluated
      split at evaluated
      · exact absurd (Except.ok.inj evaluated) nofun
      next one =>
        split at evaluated
        · exact absurd (Except.ok.inj evaluated) nofun
        next values all =>
          simp only [bind, Except.bind] at evaluated
          split at evaluated
          · contradiction
          next t table =>
            apply computed_right consistent found t (described (Decidable.not_not.mp one) t table) value _ output
              member connected
            rw [← allInputValues_right k l _ values extends_ all]
            have type : t.genericType = .VECTOR_SELECT := by
              by_contra other
              rw [SNLTruthTable.evaluateVectorSelect, if_pos other] at evaluated
              contradiction
            rw [tableValue, type]
            simp only
            rw [evaluated]
            rfl
  | update width updateWidth abits isSigned =>
      rw [vector] at described evaluated
      simp only at described evaluated
      split at evaluated
      · exact absurd (Except.ok.inj evaluated) nofun
      next one =>
        split at evaluated
        · exact absurd (Except.ok.inj evaluated) nofun
        next values all =>
          simp only [bind, Except.bind, pure, Except.pure] at evaluated
          split at evaluated
          · contradiction
          next t table =>
            split at evaluated
            · contradiction
            next b given =>
              apply computed_right consistent found t (described (Decidable.not_not.mp one) t table) value _
                output member connected
              rw [← allInputValues_right k l _ values extends_ all]
              have type : t.genericType = .VECTOR_UPDATE := by
                by_contra other
                rw [SNLTruthTable.evaluateVectorUpdate, if_pos other] at given
                contradiction
              rw [tableValue, type]
              simp only
              rw [given, ← Option.some.inj (Except.ok.inj evaluated)]
              rfl

/-- What a leaf is found to drive is right. -/
theorem outcome_right (faithful : Faithful n) (consistent : Consistent n v) (known : Known true n k)
    (right : RightIn v k) (found : n.leaves[index]? = some l) (reached : Reached n l) (iso : Nat)
    (value : Bool) (evaluated : outcome true n k l = .ok (some (iso, value))) (connected : iso ≠ DNLID_MAX) :
    v.iso iso = value := by
  obtain ⟨eligible, answer, written⟩ := (outcome_eq_some true n k l iso value).mp evaluated
  unfold newConst at answer
  simp only [Bool.true_and] at answer
  cases named : l.q with
  | some q =>
      -- the name-based engine has nothing to say about such a leaf
      obtain ⟨plain, type⟩ := faithful.named l (List.mem_of_getElem? found) reached (by rw [named]; rfl)
      rw [named, Option.isNone_some, if_neg nofun] at answer
      split at answer
      · unfold computeOutputValueForConstantInstance at answer
        rw [if_neg (by rw [plain]; exact fun other => other rfl)] at answer
        rcases type with type | type
        · rw [type] at answer
          exact absurd (Except.ok.inj answer) nofun
        · rw [type] at answer
          exact absurd (Except.ok.inj answer) nofun
      · unfold computeOutputValueForPartiallyConstantInstance at answer
        rcases type with type | type
        · rw [type] at answer
          exact absurd (Except.ok.inj answer) nofun
        · rw [type] at answer
          exact absurd (Except.ok.inj answer) nofun
  | none =>
      rw [named, Option.isNone_none, if_pos rfl] at answer
      have single : l.outputs.length = 1 := by
        unfold isEligible at eligible
        simpa [named] using eligible
      obtain ⟨output, only⟩ := List.length_eq_one_iff.mp single
      have target : output.iso = iso := by
        rw [← written]
        unfold outputIso
        simp only [named, only, List.head?_cons, Option.map_some, Option.getD_some, Option.map_none,
          Option.getD_none, ite_self]
      rw [← target] at connected ⊢
      exact computeOutputValue_right faithful consistent known right found reached named single value answer
        output (by rw [only]; exact List.mem_singleton_self output) connected

end Leaves

/-! ### The whole analysis -/

section Whole
variable {n : Netlist} {v : Valuation}

theorem rightIn_addConstant (k : Constants) (right : RightIn v k) (iso : Nat) (value : Bool)
    (correct : iso ≠ DNLID_MAX → v.iso iso = value) : RightIn v (addConstant k iso value) := by
  refine ⟨?_, ?_⟩
  · intro other inZero connected
    cases value with
    | true => exact right.zeros other inZero connected
    | false =>
        rcases (mem_insertIso iso other k.zero).mp inZero with rfl | old
        · exact correct connected
        · exact right.zeros other old connected
  · intro other inOne connected
    cases value with
    | false => exact right.ones other inOne connected
    | true =>
        rcases (mem_insertIso iso other k.one).mp inOne with rfl | old
        · exact correct connected
        · exact right.ones other old connected

theorem processReader_rightIn (faithful : Faithful n) (consistent : Consistent n v) (w : Isos)
    (s s' : State) (iso : Nat) (reader : Option Nat) (member : iso ∈ w)
    (inReaders : reader ∈ n.getReaders iso) (during : InRound true n w s) (right : RightIn v s.constants)
    (done : processReader true n s reader = .ok s') : RightIn v s'.constants := by
  rcases processReader_cases true n s s' reader done with
    ⟨index, l, rfl, found, ⟨-, constants, -⟩ | ⟨next, value, evaluated, constants, -⟩⟩ | ⟨rfl, -⟩
  · rw [constants]
    exact right
  · have reached : Reached n l := by
      rcases (isKnown_iff _ _).mp (during.listed iso member) with zero | one
      · exact ⟨iso, false, ⟨index, inReaders, found⟩, during.known.zeros iso zero⟩
      · exact ⟨iso, true, ⟨index, inReaders, found⟩, during.known.ones iso one⟩
    rw [constants]
    exact rightIn_addConstant s.constants right next value
      (outcome_right faithful consistent during.known right found reached next value evaluated)
  · exact right

theorem round_rightIn (faithful : Faithful n) (consistent : Consistent n v) (s s' : State) (w w' : Isos)
    (before : Underway true n s w) (right : RightIn v s.constants)
    (done : round true n s w = .ok (s', w')) : RightIn v s'.constants := by
  obtain ⟨-, folded⟩ := round_eq true n s s' w w' done
  have both : InRound true n w s' ∧ RightIn v s'.constants := by
    apply Worklist.foldlM_keeps _ (fun s => InRound true n w s ∧ RightIn v s.constants) w _
      { s with constantsNew := [] } s' _ folded
    · intro iso member t t' inside iterated
      apply Worklist.foldlM_keeps _ (fun s => InRound true n w s ∧ RightIn v s.constants) _ _ t t' inside
        iterated
      intro reader inReaders u u' during step
      exact ⟨processReader_inRound true n w u u' iso reader member inReaders during.1 step,
        processReader_rightIn faithful consistent w u u' iso reader member inReaders during.1 during.2 step⟩
    · exact ⟨⟨before.known, before.listed, fun _ member => absurd member List.not_mem_nil⟩, right⟩
  exact both.2

/-- The outputs of the logic cells have the value of the cell. -/
theorem outputIsosOf_right (consistent : Consistent n v) (model : Option Nat) (t : SNLTruthTable) (value : Bool)
    (tables : ∀ l ∈ n.leaves, some l.model = model → ∀ (position : Nat) (term : LeafTerm),
      l.terms[position]? = some term → term.direction = .Output → l.tables[position]? = some (some t))
    (constant : ∀ pin : Nat → Bool, tableValue t ((decodeBits t.dependencies).map pin) = some value) (iso : Nat)
    (member : iso ∈ outputIsosOf n model) (connected : iso ≠ DNLID_MAX) : v.iso iso = value := by
  obtain ⟨l, inLeaves, inOutputs⟩ := List.mem_flatMap.mp member
  obtain ⟨inNetlist, ofModel⟩ := List.mem_filter.mp inLeaves
  obtain ⟨output, isOutput, rfl⟩ := List.mem_map.mp inOutputs
  obtain ⟨position, here, direction⟩ := exists_position l output isOutput
  obtain ⟨index, found⟩ := List.getElem?_of_mem inNetlist
  have declared := tables l inNetlist (by simpa using ofModel) position output here direction
  have computes := (consistent.computes index l found).2 position t value declared (constant _)
  rw [consistent.wired index l position output found here connected] at computes
  exact Option.some.inj computes

theorem collectConstants_right (faithful : Faithful n) (consistent : Consistent n v) :
    RightIn v (collectConstants n) := by
  have inZero (iso : Nat) : iso ∈ (collectConstants n).zero →
      iso ∈ outputIsosOf n n.logic0 ∨ iso ∈ n.constant0Isos := by
    intro member
    rw [collectConstants, mem_foldl_insertIso] at member
    simpa using member
  have inOne (iso : Nat) : iso ∈ (collectConstants n).one →
      iso ∈ outputIsosOf n n.logic1 ∨ iso ∈ n.constant1Isos := by
    intro member
    rw [collectConstants, mem_foldl_insertIso, List.mem_append] at member
    rcases member with (cell | net) | absent
    · split at cell
      · contradiction
      · exact Or.inl cell
    · exact Or.inr net
    · contradiction
  have value0 : tableValue SNLTruthTable.Logic0 [] = some false := by decide
  have value1 : tableValue SNLTruthTable.Logic1 [] = some true := by decide
  refine ⟨?_, ?_⟩
  · intro iso member connected
    rcases inZero iso member with cell | net
    · exact outputIsosOf_right consistent n.logic0 _ false faithful.logic0 (fun _ => value0) iso cell connected
    · exact consistent.zeros iso net
  · intro iso member connected
    rcases inOne iso member with cell | net
    · exact outputIsosOf_right consistent n.logic1 _ true faithful.logic1 (fun _ => value1) iso cell connected
    · exact consistent.ones iso net

end Whole

theorem openAnd_faithful : Faithful openAnd := by
  have only (l : Leaf) (member : l ∈ openAnd.leaves) : l = and2 0 1 2 := List.mem_singleton.mp member
  refine ⟨?_, ?_, Or.inr ?_, ?_, ?_⟩
  · intro l member _ named
    rw [only l member] at named
    exact absurd named (by decide)
  · intro l member _ _ _
    rw [only l member]
    intro t table _
    have same := Except.ok.inj table
    rw [← same]
    refine Or.inr ⟨⟨?_, by decide +kernel, by decide⟩, Or.inr ⟨⟨by decide, by decide⟩, by decide⟩⟩
    intro position term here isOutput
    match position with
    | 0 =>
        rw [← Option.some.inj here] at isOutput
        contradiction
    | 1 =>
        rw [← Option.some.inj here] at isOutput
        contradiction
    | 2 => rfl
    | position + 3 => contradiction
  · intro l member _
    rw [only l member]
    decide
  · intro l _ isLogic
    contradiction
  · intro l _ isLogic
    contradiction

theorem lowBit_kind : (BitData.mask 0b1100).isMask = decide (4 ≤ 64) := rfl

/-- A cell with a two-bit input bus that passes its low bit on: both bits have the ID of the bus. -/
def lowBit : Netlist :=
  { leaves := [{ model := 0, modelID := 0, modelName := "LOW", vector := .none,
                 terms := [⟨0, "A", .Input, 0⟩, ⟨0, "A", .Input, 1⟩, ⟨1, "Y", .Output, 2⟩],
                 tables := [none, none,
                   some { size := 2, bits := ⟨4, .mask 0b1100, lowBit_kind⟩, dependencies := [0b11] }],
                 modelTable := .ok {} }],
    readers := [[some 0], [some 0], []], constant0Isos := [0], constant1Isos := [], logic0 := none,
    logic1 := none }

end Naja.ConstantPropagation
