import Naja.MuxMerging.Values

/-! The values of a design before and after a merge. -/

namespace Naja.MuxMerging
open Primitives NLDB0

/-- A terminal of an instance or a term of the design is on the net. -/
def Design.Connected (design : Design) (net : Net) : Prop :=
  (∃ i ∈ design.instances, ∃ t, i.net t = some net) ∨ design.hasBitTerms net = true

/-- A design that keeps the values of another one on the nets that are still connected in it. -/
structure Preserved (others : Nat → Model → (BitTerm → Bool) → Prop) (design design' : Design) : Prop where
  nets : ∀ net ∈ design.nets, net ∈ design'.nets
  bitTerms : design'.bitTerms = design.bitTerms
  connected : ∀ net ∈ design.nets, design'.Connected net → design.Connected net
  forward : ∀ v, Consistent others design v → ∃ v', Consistent others design' v' ∧ v'.floating = v.floating ∧
    ∀ net ∈ design.nets, v'.net net = v.net net
  backward : ∀ v', Consistent others design' v' → ∃ v, Consistent others design v ∧ v.floating = v'.floating ∧
    ∀ net ∈ design.nets, design'.Connected net → v.net net = v'.net net

theorem Preserved.refl (others : Nat → Model → (BitTerm → Bool) → Prop) (design : Design) :
    Preserved others design design := by
  refine ⟨fun _ member => member, rfl, fun _ _ connected => connected, ?_, ?_⟩
  · intro v consistent
    exact ⟨v, consistent, rfl, fun _ _ => rfl⟩
  · intro v consistent
    exact ⟨v, consistent, rfl, fun _ _ _ => rfl⟩

theorem Preserved.trans {others : Nat → Model → (BitTerm → Bool) → Prop} {first second third : Design}
    (before : Preserved others first second) (after : Preserved others second third) :
    Preserved others first third := by
  refine ⟨?_, after.bitTerms.trans before.bitTerms, ?_, ?_, ?_⟩
  · intro net member
    exact after.nets net (before.nets net member)
  · intro net member connected
    exact before.connected net member (after.connected net (before.nets net member) connected)
  · intro v consistent
    obtain ⟨v₁, consistent₁, floating₁, same₁⟩ := before.forward v consistent
    obtain ⟨v₂, consistent₂, floating₂, same₂⟩ := after.forward v₁ consistent₁
    refine ⟨v₂, consistent₂, floating₂.trans floating₁, ?_⟩
    intro net member
    rw [same₂ net (before.nets net member), same₁ net member]
  · intro v consistent
    obtain ⟨v₁, consistent₁, floating₁, same₁⟩ := after.backward v consistent
    obtain ⟨v₂, consistent₂, floating₂, same₂⟩ := before.backward v₁ consistent₁
    refine ⟨v₂, consistent₂, floating₂.trans floating₁, ?_⟩
    intro net member connected
    have between := after.connected net (before.nets net member) connected
    rw [same₂ net member between, same₁ net (before.nets net member) connected]

/-! ### Pins of multiplexers -/

theorem dataPort_id (width : Nat) (trueBranch : Bool) (t : BitTerm) (member : t ∈ (dataPort width trueBranch).getBits) :
    t.id = if trueBranch then 1 else 0 := by
  have same := ((Term.mem_getBits _ t).mp member).2
  rw [same]
  cases trueBranch <;> rfl

theorem output_id (width : Nat) (t : BitTerm) (member : t ∈ (getMux2Output width).getBits) : t.id = 3 := by
  rw [((Term.mem_getBits _ t).mp member).2]
  rfl

section Pins

variable (width : Nat) (trueBranch : Bool) (bit : Nat)

theorem select_not_output : getMux2Select ∉ (getMux2Output width).getBits := by
  intro member
  exact absurd (output_id width _ member) (by decide)

theorem select_not_data : getMux2Select ∉ (dataPort width trueBranch).getBits := by
  intro member
  have same := dataPort_id width trueBranch _ member
  cases trueBranch <;> exact absurd same (by decide)

theorem data_not_output : (dataPort width trueBranch).getBit bit ∉ (getMux2Output width).getBits := by
  intro member
  have same := output_id width _ member
  cases trueBranch <;> exact absurd same (by simp [dataPort, getMux2InputA, getMux2InputB, Term.getBit, input])

theorem common_not_output : (commonPort width trueBranch).getBit bit ∉ (getMux2Output width).getBits := by
  intro member
  have same := output_id width _ member
  cases trueBranch <;> exact absurd same (by simp [commonPort, getMux2InputA, getMux2InputB, Term.getBit, input])

theorem common_not_data : (commonPort width trueBranch).getBit bit ∉ (dataPort width trueBranch).getBits := by
  intro member
  have same := dataPort_id width trueBranch _ member
  cases trueBranch <;>
    exact absurd same (by simp [commonPort, getMux2InputA, getMux2InputB, Term.getBit, input])

theorem output_not_data : (getMux2Output width).getBit bit ∉ (dataPort width trueBranch).getBits := by
  intro member
  have same := dataPort_id width trueBranch _ member
  cases trueBranch <;> exact absurd same (by simp [getMux2Output, Term.getBit, output])

theorem output_ne_select : (getMux2Output width).getBit bit ≠ getMux2Select := by
  intro same
  exact absurd (congrArg BitTerm.id same) (by simp [getMux2Output, getMux2Select, Term.getBit, output, input])

theorem common_ne_select : (commonPort width trueBranch).getBit bit ≠ getMux2Select := by
  intro same
  have ids := congrArg BitTerm.id same
  cases trueBranch <;>
    exact absurd ids (by simp [commonPort, getMux2InputA, getMux2InputB, getMux2Select, Term.getBit, input])

theorem data_ne_select : (dataPort width trueBranch).getBit bit ≠ getMux2Select := by
  intro same
  have ids := congrArg BitTerm.id same
  cases trueBranch <;>
    exact absurd ids (by simp [dataPort, getMux2InputA, getMux2InputB, getMux2Select, Term.getBit, input])

end Pins

/-! ### One merge -/

section Merge

variable {others : Nat → Model → (BitTerm → Bool) → Prop} {design : Design} {outer inner : Instance} {width : Nat}
  {trueBranch : Bool} {select innerSelect : Net} {inputs : List Net}
  (sound : design.Sound) (compatible : Compatible design outer inner width trueBranch select innerSelect)
  (reads : ReadsInputs inner width trueBranch inputs)

section Nets

include sound compatible

/-- Nothing but the two multiplexers is on an output net of the inner one. -/
theorem Compatible.only (bit : Nat) (bound : bit < width) (net : Net)
    (drives : inner.net ((getMux2Output width).getBit bit) = some net) (i : Instance) (member : i ∈ design.instances)
    (t : BitTerm) (connected : i.net t = some net) :
    (i.id = inner.id ∧ t = (getMux2Output width).getBit bit) ∨
      (i.id = outer.id ∧ t = (dataPort width trueBranch).getBit bit) := by
  obtain ⟨net', -, -, drives', -, -, -, -, -, exclusive⟩ := compatible.bits bit bound
  obtain rfl := Option.some.inj (drives.symm.trans drives')
  exact exclusive i member t (sound.pins i member t net connected).1 connected

theorem select_mem : select ∈ design.nets :=
  (sound.pins outer compatible.inOuter getMux2Select select compatible.outerSelect).2

theorem innerSelect_mem : innerSelect ∈ design.nets :=
  (sound.pins inner compatible.inInner getMux2Select innerSelect compatible.innerSelects).2

omit sound compatible in
/-- The combined net is new unless the selects are one. -/
theorem combinedNet_old (member : combinedNet design innerSelect select ∈ design.nets) : select = innerSelect := by
  by_contra apart
  unfold combinedNet at member
  rw [if_neg apart] at member
  exact newID_fresh design.nets member

end Nets

include reads in
theorem rewired_select (w : Valuation) (combined : Net) :
    w.pin (rewired outer width trueBranch inputs combined) getMux2Select = w.net combined := by
  apply pin_some
  rw [rewired_net reads]
  exact if_pos rfl

include reads compatible in
theorem rewired_data (w : Valuation) (combined : Net) (bit : Nat) (bound : bit < width) :
    w.pin (rewired outer width trueBranch inputs combined) ((dataPort width trueBranch).getBit bit) =
      w.pin inner ((dataPort width trueBranch).getBit bit) := by
  obtain ⟨-, data, -, -, connected, -⟩ := compatible.bits bit bound
  have widths : (dataPort width trueBranch).width = width := by cases trueBranch <;> rfl
  have inBits : (dataPort width trueBranch).getBit bit ∈ (dataPort width trueBranch).getBits :=
    Term.getBit_mem _ bit (by rwa [widths])
  have here : (rewired outer width trueBranch inputs combined).net ((dataPort width trueBranch).getBit bit) = some data := by
    rw [rewired_net reads, if_neg (data_ne_select width trueBranch bit), if_pos inBits, connected]
  rw [pin_some w _ _ data here, pin_some w _ _ data connected]

include reads in
theorem rewired_other (w : Valuation) (combined : Net) (t : BitTerm) (notSelect : t ≠ getMux2Select)
    (notData : t ∉ (dataPort width trueBranch).getBits) :
    w.pin (rewired outer width trueBranch inputs combined) t = w.pin outer t := by
  unfold Valuation.pin
  rw [rewired_net reads, if_neg notSelect, if_neg notData, rewired_id]

/-- The value of the net of the combined select. -/
def extended (design : Design) (trueBranch : Bool) (innerSelect select : Net) (v : Valuation) : Valuation :=
  { v with net := fun net =>
      if net = combinedNet design innerSelect select then
        combinedValue trueBranch (v.net innerSelect) (v.net select)
      else v.net net }

theorem extended_combined (v : Valuation) :
    (extended design trueBranch innerSelect select v).net (combinedNet design innerSelect select) =
      combinedValue trueBranch (v.net innerSelect) (v.net select) := if_pos rfl

theorem extended_old (v : Valuation) (net : Net) (member : net ∈ design.nets) :
    (extended design trueBranch innerSelect select v).net net = v.net net := by
  change (if net = combinedNet design innerSelect select then combinedValue trueBranch (v.net innerSelect) (v.net select)
    else v.net net) = v.net net
  by_cases here : net = combinedNet design innerSelect select
  · have same := combinedNet_old (here ▸ member)
    have single : combinedNet design innerSelect select = select := if_pos same
    rw [if_pos here, here, single, same, combinedValue_self]
  · exact if_neg here

include sound in
theorem extended_pin (v : Valuation) (i : Instance) (member : i ∈ design.instances) (t : BitTerm) :
    (extended design trueBranch innerSelect select v).pin i t = v.pin i t := by
  apply pin_congr
  · rfl
  · intro net connected
    exact extended_old v net (sound.pins i member t net connected).2

include sound compatible reads in
/-- Values of the design before agree with the design after, the new net apart. -/
theorem consistent_extended (v : Valuation) (consistent : Consistent others design v) :
    Consistent others (rewire design outer inner width trueBranch inputs innerSelect select)
      (extended design trueBranch innerSelect select v) := by
  have pins (i : Instance) (member : i ∈ design.instances) (t : BitTerm) :
      (extended design trueBranch innerSelect select v).pin i t = v.pin i t := extended_pin sound v i member t
  intro i member
  rcases (mem_rewire width trueBranch sound compatible.inOuter compatible.inInner compatible.apart inputs innerSelect
    select i).mp member with ⟨old, -, -⟩ | rfl | gate
  · have same : (extended design trueBranch innerSelect select v).pin i = v.pin i := funext (pins i old)
    rw [same]
    exact consistent i old
  · rw [rewired_model, compatible.outerModel, behaves_mux2 others _ trueBranch]
    intro bit bound
    have outerValue := consistent outer compatible.inOuter
    rw [compatible.outerModel, behaves_mux2 others _ trueBranch] at outerValue
    have innerValue := consistent inner compatible.inInner
    rw [compatible.innerModel, behaves_mux2 others _ trueBranch] at innerValue
    obtain ⟨net, data, common, drives, -, driven, innerCommon, outerCommon, -⟩ := compatible.bits bit bound
    have between : v.pin outer ((dataPort width trueBranch).getBit bit) = v.pin inner ((getMux2Output width).getBit bit) := by
      rw [pin_some v _ _ net driven, pin_some v _ _ net drives]
    have shared : v.pin outer ((commonPort width trueBranch).getBit bit) =
        v.pin inner ((commonPort width trueBranch).getBit bit) := by
      rw [pin_some v _ _ common outerCommon, pin_some v _ _ common innerCommon]
    rw [rewired_other reads _ _ _ (output_ne_select width bit) (output_not_data width trueBranch bit),
      rewired_other reads _ _ _ (common_ne_select width trueBranch bit) (common_not_data width trueBranch bit),
      rewired_select reads, rewired_data compatible reads _ _ bit bound, extended_combined,
      pins outer compatible.inOuter, pins outer compatible.inOuter, pins inner compatible.inInner,
      outerValue bit bound, between, innerValue bit bound, shared, pin_some v _ _ select compatible.outerSelect,
      pin_some v _ _ innerSelect compatible.innerSelects]
    exact merged_value trueBranch _ _ _ _
  · obtain ⟨apart, rfl, -⟩ := newGates_fresh trueBranch innerSelect select i gate
    have fresh : combinedNet design innerSelect select = design.nets.foldr max 0 + 1 := if_neg apart
    rw [selectGate_behaves, extended_old v _ (select_mem sound compatible), extended_old v _ (innerSelect_mem sound compatible),
      ← fresh, extended_combined]

/-- The output nets of the multiplexer that goes have the values it gives them. -/
def restored (inner : Instance) (width : Nat) (trueBranch : Bool) (w : Valuation) : Valuation :=
  { w with net := fun net =>
      match (List.range width).find? (fun bit => inner.net ((getMux2Output width).getBit bit) = some net) with
      | some bit =>
          if w.pin inner getMux2Select = trueBranch then w.pin inner ((dataPort width trueBranch).getBit bit)
          else w.pin inner ((commonPort width trueBranch).getBit bit)
      | none => w.net net }

include sound compatible in
theorem restored_output (w : Valuation) (bit : Nat) (bound : bit < width) (net : Net)
    (drives : inner.net ((getMux2Output width).getBit bit) = some net) :
    (restored inner width trueBranch w).net net =
      if w.pin inner getMux2Select = trueBranch then w.pin inner ((dataPort width trueBranch).getBit bit)
      else w.pin inner ((commonPort width trueBranch).getBit bit) := by
  have found : (List.range width).find? (fun bit => inner.net ((getMux2Output width).getBit bit) = some net) =
      some bit := by
    cases found : (List.range width).find? (fun bit => inner.net ((getMux2Output width).getBit bit) = some net) with
    | none =>
        have absent := List.find?_eq_none.mp found bit (List.mem_range.mpr bound)
        exact absurd (decide_eq_true drives) absent
    | some other =>
        have on := List.find?_some found
        rw [decide_eq_true_eq] at on
        rcases compatible.only sound bit bound net drives inner compatible.inInner _ on with ⟨-, same⟩ | ⟨same, -⟩
        · exact congrArg some (congrArg BitTerm.bit same)
        · exact absurd same compatible.apart
  unfold restored
  simp only [found]

theorem restored_old (w : Valuation) (net : Net)
    (noOutput : ∀ bit < width, inner.net ((getMux2Output width).getBit bit) ≠ some net) :
    (restored inner width trueBranch w).net net = w.net net := by
  have found : (List.range width).find? (fun bit => inner.net ((getMux2Output width).getBit bit) = some net) =
      none := by
    refine List.find?_eq_none.mpr ?_
    intro bit inRange
    simpa using noOutput bit (List.mem_range.mp inRange)
  unfold restored
  simp only [found]

include sound compatible in
theorem restored_pin (w : Valuation) (i : Instance) (member : i ∈ design.instances) (t : BitTerm)
    (notOutput : i.id = inner.id → t ∉ (getMux2Output width).getBits)
    (notData : i.id = outer.id → t ∉ (dataPort width trueBranch).getBits) :
    (restored inner width trueBranch w).pin i t = w.pin i t := by
  apply pin_congr
  · rfl
  · intro net connected
    apply restored_old
    intro bit bound drives
    have widths : (dataPort width trueBranch).width = width := by cases trueBranch <;> rfl
    rcases compatible.only sound bit bound net drives i member t connected with ⟨same, rfl⟩ | ⟨same, rfl⟩
    · exact notOutput same (Term.getBit_mem _ bit bound)
    · exact notData same (Term.getBit_mem _ bit (by rwa [widths]))

include sound compatible in
theorem combined_value (w : Valuation)
    (consistent : Consistent others (rewire design outer inner width trueBranch inputs innerSelect select) w) :
    w.net (combinedNet design innerSelect select) =
      combinedValue trueBranch (w.net innerSelect) (w.net select) := by
  by_cases same : select = innerSelect
  · have single : combinedNet design innerSelect select = select := if_pos same
    rw [single, same, combinedValue_self]
  · have fresh : combinedNet design innerSelect select = design.nets.foldr max 0 + 1 := if_neg same
    have gate : selectGate ((design.instances.map Instance.id).foldr max 0 + 1) trueBranch innerSelect select
        (design.nets.foldr max 0 + 1) ∈ newGates design trueBranch innerSelect select := by
      unfold newGates
      rw [if_neg same]
      exact List.mem_singleton_self _
    have behaves := consistent _ ((mem_rewire width trueBranch sound compatible.inOuter compatible.inInner
      compatible.apart inputs innerSelect select _).mpr (Or.inr (Or.inr gate)))
    rw [fresh]
    exact (selectGate_behaves _ _ _ _ _ others w).mp behaves

include sound compatible reads in
/-- Values of the design after agree with the design before, the outputs of the inner multiplexer restored. -/
theorem consistent_restored (w : Valuation)
    (consistent : Consistent others (rewire design outer inner width trueBranch inputs innerSelect select) w) :
    Consistent others design (restored inner width trueBranch w) := by
  have after := mem_rewire width trueBranch sound compatible.inOuter compatible.inInner compatible.apart inputs
    innerSelect select
  intro i member
  by_cases isInner : i.id = inner.id
  · obtain rfl := sound.eq_of_id i inner member compatible.inInner isInner
    rw [compatible.innerModel, behaves_mux2 others _ trueBranch]
    intro bit bound
    obtain ⟨net, -, -, drives, -⟩ := compatible.bits bit bound
    have kept (t : BitTerm) (notOutput : t ∉ (getMux2Output width).getBits) :
        (restored i width trueBranch w).pin i t = w.pin i t :=
      restored_pin sound compatible w i member t (fun _ => notOutput) (fun same => absurd same compatible.apart)
    rw [pin_some _ _ _ net drives, restored_output sound compatible w bit bound net drives,
      kept _ (select_not_output width), kept _ (data_not_output width trueBranch bit),
      kept _ (common_not_output width trueBranch bit)]
  · by_cases isOuter : i.id = outer.id
    · obtain rfl := sound.eq_of_id i outer member compatible.inOuter isOuter
      rw [compatible.outerModel, behaves_mux2 others _ trueBranch]
      intro bit bound
      have rewiredValue := consistent _ ((after _).mpr (Or.inr (Or.inl rfl)))
      rw [rewired_model, compatible.outerModel, behaves_mux2 others _ trueBranch] at rewiredValue
      have value := rewiredValue bit bound
      obtain ⟨net, data, common, drives, -, driven, innerCommon, outerCommon, -⟩ := compatible.bits bit bound
      have kept (t : BitTerm) (notData : t ∉ (dataPort width trueBranch).getBits) :
          (restored inner width trueBranch w).pin i t = w.pin i t :=
        restored_pin sound compatible w i member t (fun same => absurd same isInner) (fun _ => notData)
      rw [rewired_other reads _ _ _ (output_ne_select width bit) (output_not_data width trueBranch bit),
        rewired_other reads _ _ _ (common_ne_select width trueBranch bit) (common_not_data width trueBranch bit),
        rewired_select reads, rewired_data compatible reads _ _ bit bound,
        combined_value sound compatible w consistent] at value
      rw [kept _ (output_not_data width trueBranch bit), kept _ (select_not_data width trueBranch),
        kept _ (common_not_data width trueBranch bit), value, pin_some _ _ _ net driven,
        restored_output sound compatible w bit bound net drives, pin_some w _ _ select compatible.outerSelect,
        pin_some w _ _ innerSelect compatible.innerSelects, pin_some w _ _ common outerCommon,
        pin_some w _ _ common innerCommon]
      exact (merged_value trueBranch _ _ _ _).symm
    · have same : (restored inner width trueBranch w).pin i = w.pin i := by
        funext t
        exact restored_pin sound compatible w i member t (fun here => absurd here isInner)
          (fun here => absurd here isOuter)
      rw [same]
      exact consistent i ((after i).mpr (Or.inl ⟨member, isInner, isOuter⟩))

include sound compatible reads in
/-- A net that is connected after was connected before, by a terminal other than the two that the merge frees. -/
theorem connected_before (net : Net) (old : net ∈ design.nets)
    (connected : (rewire design outer inner width trueBranch inputs innerSelect select).Connected net) :
    (∃ i ∈ design.instances, ∃ t, i.net t = some net ∧ (i.id = inner.id → t ∉ (getMux2Output width).getBits) ∧
      (i.id = outer.id → t ∉ (dataPort width trueBranch).getBits)) ∨ design.hasBitTerms net = true := by
  have selects : net = combinedNet design innerSelect select → net = select := by
    rintro rfl
    exact if_pos (combinedNet_old old)
  have onSelect : net = select → ∃ i ∈ design.instances, ∃ t, i.net t = some net ∧
      (i.id = inner.id → t ∉ (getMux2Output width).getBits) ∧
      (i.id = outer.id → t ∉ (dataPort width trueBranch).getBits) := by
    rintro rfl
    exact ⟨outer, compatible.inOuter, getMux2Select, compatible.outerSelect, fun _ => select_not_output width,
      fun _ => select_not_data width trueBranch⟩
  rcases connected with ⟨i, member, t, on⟩ | inTerms
  · left
    rcases (mem_rewire width trueBranch sound compatible.inOuter compatible.inInner compatible.apart inputs innerSelect
      select i).mp member with ⟨inOld, notInner, notOuter⟩ | rfl | gate
    · exact ⟨i, inOld, t, on, fun same => absurd same notInner, fun same => absurd same notOuter⟩
    · rw [rewired_net reads] at on
      split at on
      · exact onSelect (selects (Option.some.inj on).symm)
      · split at on
        · next inData =>
            refine ⟨inner, compatible.inInner, t, on, fun _ => ?_, fun same => absurd same compatible.apart⟩
            rw [((Term.mem_getBits _ t).mp inData).2]
            exact data_not_output width trueBranch t.bit
        · next notData =>
            exact ⟨outer, compatible.inOuter, t, on, fun same => absurd same.symm compatible.apart, fun _ => notData⟩
    · obtain ⟨apart, rfl, -⟩ := newGates_fresh trueBranch innerSelect select i gate
      have fresh : combinedNet design innerSelect select = design.nets.foldr max 0 + 1 := if_neg apart
      rcases (selectGate_net _ _ _ _ _ t net on).2 with same | same | same
      · refine ⟨inner, compatible.inInner, getMux2Select, same ▸ compatible.innerSelects, fun _ => select_not_output width,
          fun _ => select_not_data width trueBranch⟩
      · exact onSelect same
      · exact onSelect (selects (same.trans fresh.symm))
  · right
    rw [rewire_eq] at inTerms
    exact inTerms

include sound compatible reads in
/-- A merge keeps the values. -/
theorem preserved_rewire :
    Preserved others design (rewire design outer inner width trueBranch inputs innerSelect select) := by
  refine ⟨?_, ?_, ?_, ?_, ?_⟩
  · intro net member
    rw [rewire_eq]
    exact List.mem_append_left _ member
  · rw [rewire_eq]
  · intro net old connected
    rcases connected_before sound compatible reads net old connected with ⟨i, member, t, on, -⟩ | inTerms
    · exact Or.inl ⟨i, member, t, on⟩
    · exact Or.inr inTerms
  · intro v consistent
    exact ⟨_, consistent_extended sound compatible reads v consistent, rfl, extended_old v⟩
  · intro w consistent
    refine ⟨_, consistent_restored sound compatible reads w consistent, rfl, ?_⟩
    intro net old connected
    apply restored_old
    intro bit bound drives
    have widths : (dataPort width trueBranch).width = width := by cases trueBranch <;> rfl
    rcases connected_before sound compatible reads net old connected with ⟨i, member, t, on, notOutput, notData⟩ | inTerms
    · rcases compatible.only sound bit bound net drives i member t on with ⟨same, rfl⟩ | ⟨same, rfl⟩
      · exact notOutput same (Term.getBit_mem _ bit bound)
      · exact notData same (Term.getBit_mem _ bit (by rwa [widths]))
    · obtain ⟨net', -, -, drives', -, -, -, -, free, -⟩ := compatible.bits bit bound
      obtain rfl := Option.some.inj (drives.symm.trans drives')
      rw [free] at inTerms
      exact Bool.false_ne_true inTerms

end Merge

end Naja.MuxMerging
