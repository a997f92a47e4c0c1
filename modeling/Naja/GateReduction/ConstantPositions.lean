import Naja.TruthTable.Cofactor
import Naja.Primitives.Term

/-! The constants a table is reduced with. A constant pin is passed on by the ID of its
term, which all bits of a bus share, and read back as the place of the last input pin
with that ID. The table counts its variables, the pins of its dependencies, otherwise. -/

namespace Naja.GateReduction.ConstantPositions
open TruthTable TruthTable.SNLTruthTable TruthTable.BitDependencies
open Naja.Primitives

/-- The pairs `reduceTruthTable` calls the reduction with. -/
def constInputs (inputIDs : List Nat) (constTerms : List (Nat × Bool)) : ConstantInputs :=
  constTerms.map (fun constTerm => (termIndex inputIDs constTerm.1, constTerm.2))

/-- A leaf model; its terms have IDs of their own. -/
structure Model where
  terms : List Term
  distinct : (terms.map Term.id).Nodup

namespace Model
variable (model : Model)

def getBitTerms : List BitTerm := bitTermsOf model.terms

/-- The pins the instance terminals are numbered by. -/
def inputs : List BitTerm := model.getBitTerms.filter (fun pin => pin.direction == .Input)

def inputIDs : List Nat := model.inputs.map BitTerm.id

variable (known : BitTerm → Option Bool)

/-- The constant input pins, in their order. -/
def constantPins : List (BitTerm × Bool) :=
  model.inputs.filterMap (fun pin => (known pin).map (fun value => (pin, value)))

/-- What the constant propagation passes on of them. -/
def constTerms : List (Nat × Bool) := (model.constantPins known).map (fun pin => (pin.1.id, pin.2))

variable (dependencies : List BitDependencies.Word)

/-- A variable of the table. -/
def IsVariable (pin : BitTerm) : Prop := orderID model.getBitTerms pin ∈ decodeBits dependencies

instance (pin : BitTerm) : Decidable (model.IsVariable dependencies pin) := inferInstanceAs (Decidable (_ ∈ _))

/-- The place of a pin among the variables. -/
def position (pin : BitTerm) : Nat := (decodeBits dependencies).idxOf (orderID model.getBitTerms pin)

/-- What the reduction should be called with. -/
def variablePairs : ConstantInputs :=
  ((model.constantPins known).filter (fun pin => model.IsVariable dependencies pin.1)).map
    (fun pin => (model.position dependencies pin.1, pin.2))

/-- The pin is a variable, and there are as many variables before it as input pins before it and bits of its bus
after it. -/
structure Aligned (pin : BitTerm) : Prop where
  isVariable : model.IsVariable dependencies pin
  place : model.position dependencies pin = model.inputs.idxOf pin + pin.bit

/-! ### The index of a pin -/

theorem getBitTerms_nodup : model.getBitTerms.Nodup := bitTermsOf_nodup model.terms model.distinct

theorem inputs_nodup : model.inputs.Nodup := model.getBitTerms_nodup.filter _

theorem inputs_sublist : List.Sublist model.inputs model.getBitTerms := List.filter_sublist

/-- The input pins of a term stand together, and no other has their ID. -/
theorem inputs_split (pin : BitTerm) (member : pin ∈ model.inputs) :
    ∃ (term : Term) (before after : List BitTerm), model.inputs = before ++ term.getBits ++ after ∧
      pin ∈ term.getBits ∧ ∀ other ∈ before ++ after, other.id ≠ pin.id := by
  obtain ⟨inTerms, isInput⟩ := List.mem_filter.mp member
  obtain ⟨term, inModel, inBits⟩ := List.mem_flatMap.mp inTerms
  obtain ⟨first, last, split⟩ := List.append_of_mem inModel
  have direction : term.direction = .Input := by
    rw [((term.mem_getBits pin).mp inBits).2] at isInput
    exact beq_iff_eq.mp isInput
  have whole : term.getBits.filter (fun bit => bit.direction == .Input) = term.getBits := by
    apply List.filter_eq_self.mpr
    intro bit inTerm
    rw [((term.mem_getBits bit).mp inTerm).2]
    exact beq_iff_eq.mpr direction
  refine ⟨term, (bitTermsOf first).filter (fun bit => bit.direction == .Input),
    (bitTermsOf last).filter (fun bit => bit.direction == .Input), ?_, inBits, ?_⟩
  · rw [inputs, getBitTerms, split, bitTermsOf, List.flatMap_append, List.flatMap_cons, List.filter_append,
      List.filter_append, whole, List.append_assoc]
    rfl
  · intro other elsewhere same
    rw [← List.filter_append] at elsewhere
    have inRest : other ∈ bitTermsOf (first ++ last) := by
      rw [bitTermsOf, List.flatMap_append]
      exact (List.mem_filter.mp elsewhere).1
    obtain ⟨otherTerm, inOthers, inOther⟩ := List.mem_flatMap.mp inRest
    have distinct := model.distinct
    rw [split, List.map_append, List.map_cons, List.nodup_middle] at distinct
    refine (List.nodup_cons.mp distinct).1 ?_
    rw [← List.map_append, ← term.id_of_mem_getBits pin inBits, ← same, otherTerm.id_of_mem_getBits other inOther]
    exact List.mem_map_of_mem inOthers

theorem idxOf_getBits (term : Term) (pin : BitTerm) (inBits : pin ∈ term.getBits) :
    term.getBits.idxOf pin + pin.bit + 1 = term.width := by
  obtain ⟨bound, isBit⟩ := (term.mem_getBits pin).mp inBits
  have here : term.getBits[term.width - 1 - pin.bit]? = some pin := by
    rw [Term.getBits, List.getElem?_map, List.getElem?_range (by omega)]
    change some (term.getBit (term.width - 1 - (term.width - 1 - pin.bit))) = _
    rw [show term.width - 1 - (term.width - 1 - pin.bit) = pin.bit by omega, ← isBit]
  obtain ⟨inside, isPin⟩ := List.getElem?_eq_some_iff.mp here
  have place := term.getBits_nodup.idxOf_getElem (term.width - 1 - pin.bit) inside
  rw [isPin] at place
  omega

theorem termIndex_of_last (ids : List Nat) (i id : Nat) (here : ids[i]? = some id)
    (last : ∀ j, ids[j]? = some id → j ≤ i) : termIndex ids id = i := by
  have inside := (List.getElem?_eq_some_iff.mp here).1
  have split : List.range ids.length = List.range i ++ i :: List.range' (i + 1) (ids.length - (i + 1)) := by
    rw [List.range_eq_range', List.range_eq_range', ← List.range'_succ]
    have pieces : List.range' 0 i ++ List.range' (0 + i) (ids.length - (i + 1) + 1) = _ := List.range'_append_1
    rw [Nat.zero_add] at pieces
    rw [pieces]
    congr 1
    omega
  have nothing : (List.range' (i + 1) (ids.length - (i + 1))).filter (fun j => ids[j]? == some id) = [] := by
    apply List.filter_eq_nil_iff.mpr
    intro j above same
    have bound := last j (beq_iff_eq.mp same)
    have := (List.mem_range'_1.mp above).1
    omega
  unfold termIndex
  rw [split, List.filter_append, List.filter_cons_of_pos (p := fun j => ids[j]? == some id) (beq_iff_eq.mpr here), nothing,
    List.getLast?_concat]

/-- The index is the place of the pin among the inputs, and further by the bits of its bus after it. -/
theorem termIndex_inputIDs (pin : BitTerm) (member : pin ∈ model.inputs) :
    termIndex model.inputIDs pin.id = model.inputs.idxOf pin + pin.bit := by
  obtain ⟨term, before, after, split, inBits, apart⟩ := model.inputs_split pin member
  have notBefore : pin ∉ before := fun inside => apart pin (List.mem_append_left _ inside) rfl
  have place : model.inputs.idxOf pin = before.length + term.getBits.idxOf pin := by
    rw [split, List.append_assoc, List.idxOf_append_of_notMem notBefore, List.idxOf_append_of_mem inBits, Nat.add_comm]
  have width := idxOf_getBits term pin inBits
  have ids : model.inputIDs = before.map BitTerm.id ++ (List.replicate term.width pin.id ++ after.map BitTerm.id) := by
    have bits : term.getBits.map BitTerm.id = List.replicate term.width pin.id := by
      refine List.eq_replicate_iff.mpr ⟨by simp, ?_⟩
      intro id isID
      obtain ⟨bit, inTerm, rfl⟩ := List.mem_map.mp isID
      rw [term.id_of_mem_getBits bit inTerm, term.id_of_mem_getBits pin inBits]
    rw [inputIDs, split, List.map_append, List.map_append, bits, List.append_assoc]
  apply termIndex_of_last
  · rw [ids, List.getElem?_append_right (by rw [List.length_map]; omega), List.length_map,
      List.getElem?_append_left (by rw [List.length_replicate]; omega), List.getElem?_replicate, if_pos (by omega)]
  · intro j same
    by_contra above
    rw [ids, List.getElem?_append_right (by rw [List.length_map]; omega), List.length_map,
      List.getElem?_append_right (by rw [List.length_replicate]; omega)] at same
    obtain ⟨other, inAfter, isID⟩ := List.mem_map.mp (List.mem_of_getElem? same)
    exact apart other (List.mem_append_right _ inAfter) isID

/-- A later pin of another term comes after the whole bus. -/
theorem idxOf_after_bus (pin later : BitTerm) (member : pin ∈ model.inputs) (laterMember : later ∈ model.inputs)
    (below : model.inputs.idxOf pin < model.inputs.idxOf later) (other : later.id ≠ pin.id) :
    model.inputs.idxOf pin + pin.bit < model.inputs.idxOf later := by
  obtain ⟨term, before, after, split, inBits, apart⟩ := model.inputs_split pin member
  have width := idxOf_getBits term pin inBits
  have notBefore : pin ∉ before := fun inside => apart pin (List.mem_append_left _ inside) rfl
  rw [split, List.append_assoc, List.idxOf_append_of_notMem notBefore, List.idxOf_append_of_mem inBits] at below ⊢
  rw [split, List.append_assoc] at laterMember
  by_cases early : later ∈ before
  · rw [List.idxOf_append_of_mem early] at below
    have := List.idxOf_lt_length_of_mem early
    omega
  · have notBus : later ∉ term.getBits := fun inside => other
      ((term.id_of_mem_getBits later inside).trans (term.id_of_mem_getBits pin inBits).symm)
    rw [List.idxOf_append_of_notMem early, List.idxOf_append_of_notMem notBus, term.length_getBits]
    omega

/-- Later pins have no smaller index. -/
theorem termIndex_sorted :
    model.inputs.Pairwise (fun left right => termIndex model.inputIDs left.id ≤ termIndex model.inputIDs right.id) := by
  rw [List.pairwise_iff_getElem]
  intro i j inI inJ below
  have memberI := List.getElem_mem inI
  have memberJ := List.getElem_mem inJ
  by_cases same : model.inputs[j].id = model.inputs[i].id
  · rw [same]
  · have placeI := model.inputs_nodup.idxOf_getElem i inI
    have placeJ := model.inputs_nodup.idxOf_getElem j inJ
    have apart := model.idxOf_after_bus _ _ memberI memberJ (by omega) same
    rw [model.termIndex_inputIDs _ memberI, model.termIndex_inputIDs _ memberJ]
    omega

/-! ### The pairs -/

variable {known dependencies}

theorem mem_constantPins (pin : BitTerm × Bool) :
    pin ∈ model.constantPins known ↔ pin.1 ∈ model.inputs ∧ known pin.1 = some pin.2 := by
  obtain ⟨bit, value⟩ := pin
  simp only [constantPins, List.mem_filterMap, Option.map_eq_some_iff, Prod.mk.injEq]
  constructor
  · rintro ⟨_, member, _, isValue, rfl, rfl⟩
    exact ⟨member, isValue⟩
  · rintro ⟨member, isValue⟩
    exact ⟨bit, member, value, isValue, rfl, rfl⟩

theorem constantPins_sublist (known : BitTerm → Option Bool) : List.Sublist ((model.constantPins known).map Prod.fst) model.inputs := by
  have same : (model.constantPins known).map Prod.fst = model.inputs.filter (fun pin => (known pin).isSome) := by
    rw [constantPins, List.map_filterMap, ← List.filterMap_eq_filter]
    apply List.filterMap_congr
    intro pin _
    cases isValue : known pin <;> simp [Option.guard, isValue]
  rw [same]
  exact List.filter_sublist

theorem constInputs_constTerms : constInputs model.inputIDs (model.constTerms known) =
    (model.constantPins known).map (fun pin => (termIndex model.inputIDs pin.1.id, pin.2)) := by
  rw [constInputs, constTerms, List.map_map]
  rfl

/-- The pairs are right for aligned pins. -/
theorem constInputs_of_aligned (aligned : ∀ pin ∈ model.inputs, known pin ≠ none → model.Aligned dependencies pin) :
    constInputs model.inputIDs (model.constTerms known) = model.variablePairs known dependencies := by
  have ofConstant (pin : BitTerm × Bool) (member : pin ∈ model.constantPins known) :
      pin.1 ∈ model.inputs ∧ model.Aligned dependencies pin.1 := by
    obtain ⟨isInput, isValue⟩ := (model.mem_constantPins pin).mp member
    exact ⟨isInput, aligned pin.1 isInput (by rw [isValue]; exact Option.some_ne_none _)⟩
  have all : (model.constantPins known).filter (fun pin => model.IsVariable dependencies pin.1) = model.constantPins known :=
    List.filter_eq_self.mpr (fun pin member => decide_eq_true (ofConstant pin member).2.isVariable)
  rw [constInputs_constTerms, variablePairs, all]
  apply List.map_congr_left
  intro pin member
  obtain ⟨isInput, right⟩ := ofConstant pin member
  rw [model.termIndex_inputIDs pin.1 isInput, right.place]

theorem idxOf_sorted (l : List Nat) (sorted : l.Pairwise (· < ·)) (left right : Nat) (inLeft : left ∈ l)
    (inRight : right ∈ l) (below : left < right) : l.idxOf left ≤ l.idxOf right := by
  by_contra swapped
  have order := List.pairwise_iff_getElem.mp sorted _ _ (List.idxOf_lt_length_of_mem inRight)
    (List.idxOf_lt_length_of_mem inLeft) (Nat.lt_of_not_le swapped)
  rw [List.getElem_idxOf, List.getElem_idxOf] at order
  omega

theorem position_sorted : ((model.constantPins known).filter (fun pin => model.IsVariable dependencies pin.1)).Pairwise
    (fun left right => model.position dependencies left.1 ≤ model.position dependencies right.1) := by
  have order := orderID_sorted _ _ model.getBitTerms_nodup
    ((model.constantPins_sublist known).trans model.inputs_sublist)
  have pins : (model.constantPins known).Pairwise
      (fun left right => orderID model.getBitTerms left.1 < orderID model.getBitTerms right.1) := by
    rw [List.map_map] at order
    exact List.pairwise_map.mp order
  apply (pins.filter _).imp_of_mem
  intro left right inLeft inRight below
  have isLeft := of_decide_eq_true (List.mem_filter.mp inLeft).2
  have isRight := of_decide_eq_true (List.mem_filter.mp inRight).2
  exact idxOf_sorted _ (decodeBits_sorted dependencies) _ _ isLeft isRight below

/-- The pairs are a rearrangement of the right ones only when they are those. -/
theorem aligned_of_perm (perm : (constInputs model.inputIDs (model.constTerms known)).Perm
    (model.variablePairs known dependencies)) (pin : BitTerm) (member : pin ∈ model.inputs) (constant : known pin ≠ none) :
    model.Aligned dependencies pin := by
  rw [constInputs_constTerms] at perm
  have lengths := perm.length_eq
  rw [variablePairs, List.length_map, List.length_map] at lengths
  have isVariable := List.length_filter_eq_length_iff.mp lengths.symm
  have all := List.filter_eq_self.mpr isVariable
  have indexes := perm.map Prod.fst
  rw [variablePairs, List.map_map, List.map_map] at indexes
  have sortedIndexes : ((model.constantPins known).map
      (Prod.fst ∘ fun pin => (termIndex model.inputIDs pin.1.id, pin.2))).Pairwise (· ≤ ·) := by
    have sorted := List.pairwise_map.mp (model.termIndex_sorted.sublist (model.constantPins_sublist known))
    exact List.pairwise_map.mpr sorted
  have sortedPositions : (((model.constantPins known).filter (fun pin => model.IsVariable dependencies pin.1)).map
      (Prod.fst ∘ fun pin => (model.position dependencies pin.1, pin.2))).Pairwise (· ≤ ·) :=
    List.pairwise_map.mpr model.position_sorted
  have same := indexes.eq_of_pairwise (fun _ _ _ _ => Nat.le_antisymm) sortedIndexes sortedPositions
  rw [all] at same
  obtain ⟨value, isValue⟩ := Option.ne_none_iff_exists'.mp constant
  have isConstant : (pin, value) ∈ model.constantPins known := (model.mem_constantPins (pin, value)).mpr ⟨member, isValue⟩
  have place : termIndex model.inputIDs pin.id = model.position dependencies pin :=
    List.map_inj_left.mp same (pin, value) isConstant
  exact ⟨of_decide_eq_true (isVariable _ isConstant), by rw [← place, model.termIndex_inputIDs pin member]⟩

end Model

/-- The reduction is called with the place and the constant of each constant variable, and with nothing else, exactly
when every constant pin is an aligned variable. -/
theorem constInputs_perm_iff (model : Model) (dependencies : List BitDependencies.Word) (known : BitTerm → Option Bool) :
    (constInputs model.inputIDs (model.constTerms known)).Perm (model.variablePairs known dependencies) ↔
      ∀ pin ∈ model.inputs, known pin ≠ none → model.Aligned dependencies pin := by
  constructor
  · intro perm pin member constant
    exact model.aligned_of_perm perm pin member constant
  · intro aligned
    rw [model.constInputs_of_aligned aligned]

/-- A bus `a[1:0]` before an output, and a pin after it that the table does not read. -/
def busModel : Model := ⟨[⟨0, .Input, 2⟩, ⟨1, .Output, 1⟩, ⟨2, .Input, 1⟩], by decide⟩

/-- Both bits of the bus are passed on as the variable 1, and a pin that is no variable is passed on too. -/
theorem bus_bits_collide :
    (let known := fun pin : BitTerm => if pin.id = 0 then some (decide (pin.bit = 1)) else none
     constInputs busModel.inputIDs (busModel.constTerms known) = [(1, true), (1, false)] ∧
      busModel.variablePairs known (encodeBits [0, 1]) = [(0, true), (1, false)] ∧
      ¬(constInputs busModel.inputIDs (busModel.constTerms known)).Perm (busModel.variablePairs known (encodeBits [0, 1]))) ∧
    (let known := fun pin : BitTerm => if pin.id = 2 then some true else none
     constInputs busModel.inputIDs (busModel.constTerms known) = [(2, true)] ∧
      busModel.variablePairs known (encodeBits [0, 1]) = []) := by
  decide +kernel

end Naja.GateReduction.ConstantPositions
