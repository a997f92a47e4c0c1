import Naja.MuxMerging.Rewiring

/-! When the pass merges two multiplexers, and the terminals of the outer one after it. -/

namespace Naja.MuxMerging
open Primitives NLDB0

/-- What the pass has checked of two multiplexers before it merges them. -/
structure Compatible (design : Design) (outer inner : Instance) (width : Nat) (trueBranch : Bool)
    (select innerSelect : Net) : Prop where
  inOuter : outer ∈ design.instances
  inInner : inner ∈ design.instances
  apart : inner.id ≠ outer.id
  outerModel : outer.model = .primitive (.mux2 width)
  innerModel : inner.model = .primitive (.mux2 width)
  outerSelect : outer.net getMux2Select = some select
  innerSelects : inner.net getMux2Select = some innerSelect
  bits : ∀ bit < width, ∃ net data common,
    inner.net ((getMux2Output width).getBit bit) = some net ∧
    inner.net ((dataPort width trueBranch).getBit bit) = some data ∧
    outer.net ((dataPort width trueBranch).getBit bit) = some net ∧
    inner.net ((commonPort width trueBranch).getBit bit) = some common ∧
    outer.net ((commonPort width trueBranch).getBit bit) = some common ∧
    design.hasBitTerms net = false ∧
    ∀ i ∈ design.instances, ∀ t ∈ i.model.getBitTerms, i.net t = some net →
      (i.id = inner.id ∧ t = (getMux2Output width).getBit bit) ∨
      (i.id = outer.id ∧ t = (dataPort width trueBranch).getBit bit)

/-- One net for each bit, the one the data input of the inner multiplexer has. -/
def ReadsInputs (inner : Instance) (width : Nat) (trueBranch : Bool) (inputs : List Net) : Prop :=
  ((List.range width).zip inputs).map Prod.fst = List.range width ∧
    ∀ entry ∈ (List.range width).zip inputs, inner.net ((dataPort width trueBranch).getBit entry.1) = some entry.2

theorem mux2Width_some (model : Model) (width : Nat) (isMux2 : model.mux2Width = some width) :
    model = .primitive (.mux2 width) := by
  cases model with
  | other design terms => cases isMux2
  | primitive signature =>
      cases signature with
      | mux2 other =>
          cases isMux2
          rfl
      | _ => cases isMux2

theorem compatibleInput_some (design : Design) (outer inner : Instance) (width : Nat) (trueBranch : Bool)
    (outputs : List Net) (bit data : Nat)
    (compatible : compatibleInput design outer inner width trueBranch outputs bit = some data) :
    ∃ net common,
      inner.net ((getMux2Output width).getBit bit) = some net ∧
      inner.net ((dataPort width trueBranch).getBit bit) = some data ∧
      outer.net ((dataPort width trueBranch).getBit bit) = some net ∧
      inner.net ((commonPort width trueBranch).getBit bit) = some common ∧
      outer.net ((commonPort width trueBranch).getBit bit) = some common ∧
      design.hasBitTerms net = false ∧
      ∀ i ∈ design.instances, ∀ t ∈ i.model.getBitTerms, i.net t = some net →
        (i.id = inner.id ∧ t = (getMux2Output width).getBit bit) ∨
        (i.id = outer.id ∧ t = (dataPort width trueBranch).getBit bit) := by
  unfold compatibleInput at compatible
  dsimp only at compatible
  cases innerOutput : inner.net ((getMux2Output width).getBit bit) with
  | none =>
      rw [innerOutput] at compatible
      cases compatible
  | some net =>
      cases outerInput : inner.net ((dataPort width trueBranch).getBit bit) with
      | none =>
          rw [innerOutput, outerInput] at compatible
          cases compatible
      | some found =>
          cases shared : outer.net ((commonPort width trueBranch).getBit bit) with
          | none =>
              rw [innerOutput, outerInput, shared] at compatible
              cases compatible
          | some common =>
              rw [innerOutput, outerInput, shared] at compatible
              dsimp only at compatible
              obtain ⟨passed, same⟩ := Option.ite_none_left_eq_some.mp compatible
              cases same
              push Not at passed
              obtain ⟨_, _, same, also, noTerm, exclusive⟩ := passed
              refine ⟨net, common, rfl, rfl, same, also, rfl, Bool.eq_false_iff.mpr noTerm, ?_⟩
              intro i member t inTerms connected
              by_contra neither
              refine exclusive (List.any_eq_true.mpr ⟨i, member, List.any_eq_true.mpr ⟨t, inTerms, ?_⟩⟩)
              exact decide_eq_true ⟨connected, fun left => neither (Or.inl left), fun right => neither (Or.inr right)⟩

/-- The merge the pass makes, with its checks. -/
theorem mergeBranch_some (producers : Producers) (s s' : State) (outer : Instance) (width : Nat) (select : Net)
    (trueBranch : Bool) (inOuter : outer ∈ s.design.instances)
    (isMux2 : outer.model.mux2Width = some width) (selected : outer.net getMux2Select = some select)
    (merged : mergeBranch producers s outer width select trueBranch = some s') :
    ∃ inner innerSelect inputs,
      (∃ first, producers.lookup first = some (some inner.id)) ∧ inner.id ∉ s.removed ∧
      Compatible s.design outer inner width trueBranch select innerSelect ∧
      ReadsInputs inner width trueBranch inputs ∧
      s' = ⟨rewire s.design outer inner width trueBranch inputs innerSelect select, s.removed ++ [inner.id]⟩ := by
  unfold mergeBranch at merged
  obtain ⟨first, _, merged⟩ := Option.bind_eq_some_iff.mp merged
  obtain ⟨found, produced, merged⟩ := Option.bind_eq_some_iff.mp merged
  obtain ⟨fresh, merged⟩ := Option.ite_none_left_eq_some.mp merged
  push Not at fresh
  obtain ⟨inner, got, merged⟩ := Option.bind_eq_some_iff.mp merged
  obtain ⟨sameModel, merged⟩ := Option.ite_none_left_eq_some.mp merged
  rw [not_not] at sameModel
  obtain ⟨innerSelect, innerSelects, merged⟩ := Option.bind_eq_some_iff.mp merged
  obtain ⟨_, merged⟩ := Option.ite_none_left_eq_some.mp merged
  obtain ⟨inputs, mapped, merged⟩ := Option.bind_eq_some_iff.mp merged
  obtain ⟨inInner, sameId⟩ := Design.getInstance_some got
  obtain ⟨keys, values⟩ := mapM_some _ _ _ mapped
  have each : ∀ bit < width, ∃ data, compatibleInput s.design outer inner width trueBranch
      ((getMux2Output width).getBits.filterMap outer.net) bit = some data := by
    intro bit bound
    have inKeys : bit ∈ ((List.range width).zip inputs).map Prod.fst := by
      rw [keys]
      exact List.mem_range.mpr bound
    obtain ⟨entry, member, same⟩ := List.mem_map.mp inKeys
    exact ⟨entry.2, by rw [← same]; exact values entry member⟩
  have model := mux2Width_some outer.model width isMux2
  refine ⟨inner, innerSelect, inputs, ⟨first, ?_⟩, ?_, ?_, ?_, ?_⟩
  · rw [sameId]
    exact Option.join_eq_some_iff.mp produced
  · rw [sameId]
    exact fresh.2
  · refine ⟨inOuter, inInner, ?_, model, sameModel.trans model, selected, innerSelects, fun bit bound => ?_⟩
    · rw [sameId]
      exact fresh.1
    · obtain ⟨data, compatible⟩ := each bit bound
      obtain ⟨net, common, facts⟩ := compatibleInput_some _ _ _ _ _ _ _ _ compatible
      exact ⟨net, data, common, facts⟩
  · refine ⟨keys, fun entry member => ?_⟩
    obtain ⟨net, common, _, data, _⟩ := compatibleInput_some _ _ _ _ _ _ _ _ (values entry member)
    exact data
  · exact (Option.some.inj merged).symm

section Rewired

variable {outer inner : Instance} {width : Nat} {trueBranch : Bool} {inputs : List Net}
  (reads : ReadsInputs inner width trueBranch inputs)
include reads

theorem rewired_net (combined : Net) (t : BitTerm) :
    (rewired outer width trueBranch inputs combined).net t =
      if t = getMux2Select then some combined
      else if t ∈ (dataPort width trueBranch).getBits then inner.net t else outer.net t := by
  obtain ⟨keys, values⟩ := reads
  unfold rewired
  rw [show ∀ entries i, setNets (entries ++ [(getMux2Select, combined)]) i =
    (setNets entries i).setNet getMux2Select combined from fun entries i => List.foldl_append]
  show (if t = getMux2Select then some combined else (setNets _ outer).net t) = _
  congr 1
  rw [setNets_net inner.net]
  · have inBits : t ∈ (((List.range width).zip inputs).map fun entry =>
        ((dataPort width trueBranch).getBit entry.1, entry.2)).map Prod.fst ↔ t ∈ (dataPort width trueBranch).getBits := by
      rw [List.map_map, Term.mem_getBits]
      have widths : (dataPort width trueBranch).width = width := by cases trueBranch <;> rfl
      rw [widths]
      constructor
      · intro member
        obtain ⟨entry, inZip, same⟩ := List.mem_map.mp member
        have bound : entry.1 ∈ List.range width := by
          rw [← keys]
          exact List.mem_map_of_mem inZip
        subst same
        exact ⟨List.mem_range.mp bound, rfl⟩
      · rintro ⟨bound, same⟩
        have inKeys : t.bit ∈ ((List.range width).zip inputs).map Prod.fst := by
          rw [keys]
          exact List.mem_range.mpr bound
        obtain ⟨entry, inZip, equal⟩ := List.mem_map.mp inKeys
        refine List.mem_map.mpr ⟨entry, inZip, ?_⟩
        show (dataPort width trueBranch).getBit entry.1 = t
        rw [equal]
        exact same.symm
    by_cases inData : t ∈ (dataPort width trueBranch).getBits
    · rw [if_pos inData, if_pos (inBits.mpr inData)]
    · rw [if_neg inData, if_neg fun member => inData (inBits.mp member)]
  · intro entry member
    obtain ⟨pair, inZip, same⟩ := List.mem_map.mp member
    subst same
    exact values pair inZip

omit reads in
theorem rewired_id (combined : Net) : (rewired outer width trueBranch inputs combined).id = outer.id :=
  setNets_id _ outer

omit reads in
theorem rewired_model (combined : Net) : (rewired outer width trueBranch inputs combined).model = outer.model :=
  setNets_model _ outer

end Rewired

end Naja.MuxMerging
