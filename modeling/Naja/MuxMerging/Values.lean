import Naja.MuxMerging.Compatible

/-! One merge keeps the values of the nets. Values that agree with the design before it go over to the
design after it, on all nets, and back again, on the nets that are still connected. -/

namespace Naja.MuxMerging
open Primitives NLDB0

/-! ### Multiplexers and gates -/

section Behaviour

variable (others : Nat → Model → (BitTerm → Bool) → Prop) (id : Nat) (trueBranch : Bool) (value : BitTerm → Bool)

/-- The data input goes through when the select has the value of its branch, else the other one. -/
theorem behaves_mux2 (width : Nat) :
    Behaves others id (.primitive (.mux2 width)) value ↔ ∀ bit < width,
      value ((getMux2Output width).getBit bit) =
        if value getMux2Select = trueBranch then value ((dataPort width trueBranch).getBit bit)
        else value ((commonPort width trueBranch).getBit bit) := by
  have chosen (bit : Nat) :
      PinRoles.primitiveValue (.mux2 width) ((getMux2Output width).getBit bit) value =
        some (if value getMux2Select = trueBranch then value ((dataPort width trueBranch).getBit bit)
          else value ((commonPort width trueBranch).getBit bit)) := by
    change some (if value getMux2Select = true then value ((getMux2InputB width).getBit bit)
      else value ((getMux2InputA width).getBit bit)) = _
    cases trueBranch <;> cases value getMux2Select <;> rfl
  constructor
  · intro behaves bit bound
    have given := behaves ((getMux2Output width).getBit bit) (Term.getBit_mem (output 3 width) bit bound)
    rw [chosen bit] at given
    exact (Option.some.inj given).symm
  · intro computes o member
    obtain ⟨bound, same⟩ := (Term.mem_getBits (output 3 width) o).mp member
    have given := computes o.bit bound
    rw [same]
    exact (chosen o.bit).trans (congrArg some given.symm)

/-- What the new gate computes. -/
def combinedValue (trueBranch innerSelect select : Bool) : Bool :=
  if trueBranch then innerSelect && select else innerSelect || select

/-- Both selects have the value of the branch. -/
theorem combinedValue_iff (innerSelect select : Bool) :
    combinedValue trueBranch innerSelect select = trueBranch ↔ select = trueBranch ∧ innerSelect = trueBranch := by
  revert trueBranch innerSelect select
  decide

theorem combinedValue_self (select : Bool) : combinedValue trueBranch select select = select := by
  revert trueBranch select
  decide

/-- Two multiplexers in a row are one on the combined select. -/
theorem merged_value (innerSelect select data common : Bool) :
    (if select = trueBranch then if innerSelect = trueBranch then data else common else common) =
      if combinedValue trueBranch innerSelect select = trueBranch then data else common := by
  simp only [combinedValue_iff]
  by_cases outside : select = trueBranch
  · simp [outside]
  · simp [outside]

theorem behaves_gate :
    Behaves others id (.primitive (.nInputGate (if trueBranch then .And else .Or) 2)) value ↔
      value getGateSingleTerm =
        combinedValue trueBranch (value (getGateNTerms.getBit 0)) (value (getGateNTerms.getBit 1)) := by
  have computed (o : BitTerm) :
      PinRoles.primitiveValue (.nInputGate (if trueBranch then .And else .Or) 2) o value =
        some (combinedValue trueBranch (value (getGateNTerms.getBit 0)) (value (getGateNTerms.getBit 1))) := by
    change some (PinRoles.gateValue (if trueBranch then .And else .Or)
      [value (getGateNTerms.getBit 1), value (getGateNTerms.getBit 0)]) = _
    cases trueBranch <;> cases value (getGateNTerms.getBit 1) <;> cases value (getGateNTerms.getBit 0) <;> rfl
  constructor
  · intro behaves
    have given := behaves getGateSingleTerm (Term.getBit_mem (output 0 1) 0 Nat.one_pos)
    rw [computed] at given
    exact (Option.some.inj given).symm
  · intro computes o member
    obtain ⟨bound, same⟩ := (Term.mem_getBits (output 0 1) o).mp member
    have only : o = getGateSingleTerm := by
      rw [same, Nat.lt_one_iff.mp bound]
      rfl
    rw [computed, only, computes]

end Behaviour

/-- A pin has one value under valuations that agree on its net. -/
theorem pin_congr (v v' : Valuation) (i : Instance) (t : BitTerm) (floating : v.floating = v'.floating)
    (same : ∀ net, i.net t = some net → v.net net = v'.net net) : v.pin i t = v'.pin i t := by
  unfold Valuation.pin
  cases connected : i.net t with
  | none => exact congrFun (congrFun floating i.id) t
  | some net => exact same net connected

theorem pin_some (v : Valuation) (i : Instance) (t : BitTerm) (net : Net) (connected : i.net t = some net) :
    v.pin i t = v.net net := by
  unfold Valuation.pin
  rw [connected]

section Gate

variable (id : Nat) (trueBranch : Bool) (innerSelect select combinedSelect : Net)

theorem selectGate_model :
    (selectGate id trueBranch innerSelect select combinedSelect).model =
      .primitive (.nInputGate (if trueBranch then .And else .Or) 2) :=
  setNets_model _ _

theorem selectGate_net (t : BitTerm) (net : Net)
    (connected : (selectGate id trueBranch innerSelect select combinedSelect).net t = some net) :
    t ∈ (selectGate id trueBranch innerSelect select combinedSelect).model.getBitTerms ∧
      (net = innerSelect ∨ net = select ∨ net = combinedSelect) := by
  rw [selectGate_model]
  change (if t = getGateSingleTerm then some combinedSelect else if t = getGateNTerms.getBit 1 then some select
    else if t = getGateNTerms.getBit 0 then some innerSelect else none) = some net at connected
  have pins : ∀ pin ∈ [getGateSingleTerm, getGateNTerms.getBit 1, getGateNTerms.getBit 0],
      pin ∈ (Model.primitive (.nInputGate (if trueBranch then .And else .Or) 2)).getBitTerms := by
    cases trueBranch <;> decide
  split at connected
  · next here =>
      rw [here]
      exact ⟨pins _ (by simp), Or.inr (Or.inr (Option.some.inj connected).symm)⟩
  · split at connected
    · next here =>
        rw [here]
        exact ⟨pins _ (by simp), Or.inr (Or.inl (Option.some.inj connected).symm)⟩
    · split at connected
      · next here =>
          rw [here]
          exact ⟨pins _ (by simp), Or.inl (Option.some.inj connected).symm⟩
      · cases connected

/-- The gate forces the value of the net it drives. -/
theorem selectGate_behaves (others : Nat → Model → (BitTerm → Bool) → Prop) (v : Valuation) :
    Behaves others (selectGate id trueBranch innerSelect select combinedSelect).id
        (selectGate id trueBranch innerSelect select combinedSelect).model
        (v.pin (selectGate id trueBranch innerSelect select combinedSelect)) ↔
      v.net combinedSelect = combinedValue trueBranch (v.net innerSelect) (v.net select) := by
  rw [selectGate_model]
  exact behaves_gate others _ trueBranch _

end Gate

end Naja.MuxMerging
