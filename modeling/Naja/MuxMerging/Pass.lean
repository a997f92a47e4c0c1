import Naja.MuxMerging.Preserved

/-! The whole pass. It ends, the values of the nets that are still connected are those of before, and
the multiplexers it counts are those that are gone. -/

namespace Naja.MuxMerging
open Primitives NLDB0 Worklist

def muxIDs (design : Design) : List Nat := (getMuxes design).map Instance.id

theorem muxIDs_nodup (design : Design) (sound : design.Sound) : (muxIDs design).Nodup :=
  sound.distinct.sublist (List.filter_sublist.map Instance.id)

/-! ### Instances after a merge -/

/-- The outer multiplexer is changed where it stands. -/
def rewiredIn (outer : Nat) (entries : List (BitTerm × Net)) (i : Instance) : Instance :=
  if i.id = outer then setNets entries i else i

section Instances

variable (outer inner : Nat) (entries : List (BitTerm × Net))

theorem rewiredIn_id (i : Instance) : (rewiredIn outer entries i).id = i.id := by
  unfold rewiredIn
  split
  · exact setNets_id entries i
  · rfl

theorem rewiredIn_model (i : Instance) : (rewiredIn outer entries i).model = i.model := by
  unfold rewiredIn
  split
  · exact setNets_model entries i
  · rfl

theorem map_id_rewiredIn (instances : List Instance) :
    ((instances.map (rewiredIn outer entries)).filter (fun i => i.id ≠ inner)).map Instance.id =
      (instances.map Instance.id).filter (fun id => id ≠ inner) := by
  have same : Instance.id ∘ rewiredIn outer entries = Instance.id := funext (rewiredIn_id outer entries)
  have tests : (fun i : Instance => decide (i.id ≠ inner)) ∘ rewiredIn outer entries =
      (fun id => decide (id ≠ inner)) ∘ Instance.id := by
    funext i
    simp only [Function.comp_apply, rewiredIn_id]
  rw [List.filter_map, List.map_map, List.filter_map, same, tests]

/-- The multiplexers without the one that goes. -/
theorem muxes_rewiredIn (instances : List Instance) :
    (((instances.map (rewiredIn outer entries)).filter (fun i => i.id ≠ inner)).filter
        (fun i => i.model.mux2Width.isSome)).map Instance.id =
      ((instances.filter (fun i => i.model.mux2Width.isSome)).map Instance.id).filter (fun id => id ≠ inner) := by
  have tests : (fun i : Instance => i.model.mux2Width.isSome) ∘ rewiredIn outer entries =
      fun i => i.model.mux2Width.isSome := by
    funext i
    simp only [Function.comp_apply, rewiredIn_model]
  have swapped : ((instances.map (rewiredIn outer entries)).filter (fun i => i.id ≠ inner)).filter
      (fun i => i.model.mux2Width.isSome) =
      ((instances.map (rewiredIn outer entries)).filter (fun i => i.model.mux2Width.isSome)).filter
        (fun i => i.id ≠ inner) := by
    rw [List.filter_filter, List.filter_filter]
    simp only [Bool.and_comm]
  rw [swapped, List.filter_map, tests]
  exact map_id_rewiredIn outer inner entries _

end Instances

section Merge

theorem rewire_instances (design : Design) (outer inner : Instance) (width : Nat) (trueBranch : Bool)
    (inputs : List Net) (innerSelect select : Net) : ∃ entries,
    (rewire design outer inner width trueBranch inputs innerSelect select).instances =
      ((design.instances ++ newGates design trueBranch innerSelect select).map (rewiredIn outer.id entries)).filter
        (fun i => i.id ≠ inner.id) := by
  rw [rewire_eq]
  exact ⟨_, rfl⟩

variable {design : Design} {outer inner : Instance} {width : Nat} {trueBranch : Bool} {select innerSelect : Net}
  {inputs : List Net} (sound : design.Sound)
  (compatible : Compatible design outer inner width trueBranch select innerSelect)
  (reads : ReadsInputs inner width trueBranch inputs)

/-- The multiplexers after a merge are those before, without the inner one. -/
theorem muxIDs_rewire (inputs : List Net) :
    muxIDs (rewire design outer inner width trueBranch inputs innerSelect select) =
      (muxIDs design).filter (fun id => id ≠ inner.id) := by
  have gates : (newGates design trueBranch innerSelect select).filter (fun i => i.model.mux2Width.isSome) = [] := by
    refine List.filter_eq_nil_iff.mpr ?_
    intro gate member
    unfold newGates at member
    split at member
    · exact absurd member List.not_mem_nil
    · rw [List.mem_singleton.mp member, selectGate_model]
      exact Bool.false_ne_true
  obtain ⟨entries, same⟩ := rewire_instances design outer inner width trueBranch inputs innerSelect select
  unfold muxIDs getMuxes
  rw [same, muxes_rewiredIn, List.filter_append, gates, List.append_nil]

include compatible in
theorem inner_muxIDs : inner.id ∈ muxIDs design := by
  refine List.mem_map_of_mem (List.mem_filter.mpr ⟨compatible.inInner, ?_⟩)
  rw [compatible.innerModel]
  rfl

include sound compatible reads in
/-- A merge keeps what the database keeps. -/
theorem sound_rewire : (rewire design outer inner width trueBranch inputs innerSelect select).Sound := by
  have nets (net : Net) (old : net ∈ design.nets) :
      net ∈ (rewire design outer inner width trueBranch inputs innerSelect select).nets := by
    rw [rewire_eq]
    exact List.mem_append_left _ old
  have combined : combinedNet design innerSelect select ∈
      (rewire design outer inner width trueBranch inputs innerSelect select).nets := by
    by_cases same : select = innerSelect
    · have single : combinedNet design innerSelect select = select := if_pos same
      rw [single]
      exact nets select (select_mem sound compatible)
    · rw [rewire_eq]
      refine List.mem_append_right _ ?_
      unfold newNets combinedNet
      rw [if_neg same, if_neg same]
      exact List.mem_singleton_self _
  refine ⟨?_, ?_, ?_⟩
  · obtain ⟨entries, same⟩ := rewire_instances design outer inner width trueBranch inputs innerSelect select
    rw [same, map_id_rewiredIn, List.map_append]
    refine List.Nodup.filter _ (List.nodup_append.mpr ⟨sound.distinct, ?_, ?_⟩)
    · unfold newGates
      split
      · exact List.nodup_nil
      · exact List.nodup_singleton _
    · intro id old gateID new
      obtain ⟨gate, member, rfl⟩ := List.mem_map.mp new
      have fresh := (newGates_fresh trueBranch innerSelect select gate member).2.2
      rintro rfl
      exact fresh old
  · intro i member t net on
    rcases (mem_rewire width trueBranch sound compatible.inOuter compatible.inInner compatible.apart inputs innerSelect
      select i).mp member with ⟨old, -, -⟩ | rfl | gate
    · obtain ⟨inTerms, inNets⟩ := sound.pins i old t net on
      exact ⟨inTerms, nets net inNets⟩
    · rw [rewired_model]
      rw [rewired_net reads] at on
      split at on
      · next here =>
          rw [here, ← Option.some.inj on]
          exact ⟨(sound.pins outer compatible.inOuter _ _ compatible.outerSelect).1, combined⟩
      · split at on
        · obtain ⟨inTerms, inNets⟩ := sound.pins inner compatible.inInner t net on
          rw [compatible.innerModel, ← compatible.outerModel] at inTerms
          exact ⟨inTerms, nets net inNets⟩
        · obtain ⟨inTerms, inNets⟩ := sound.pins outer compatible.inOuter t net on
          exact ⟨inTerms, nets net inNets⟩
    · obtain ⟨apart, rfl, -⟩ := newGates_fresh trueBranch innerSelect select i gate
      have fresh : combinedNet design innerSelect select = design.nets.foldr max 0 + 1 := if_neg apart
      obtain ⟨inTerms, nets_⟩ := selectGate_net _ _ _ _ _ t net on
      refine ⟨inTerms, ?_⟩
      rcases nets_ with rfl | rfl | rfl
      · exact nets _ (innerSelect_mem sound compatible)
      · exact nets _ (select_mem sound compatible)
      · rwa [← fresh]
  · intro entry member net on
    rw [rewire_eq] at member
    exact nets net (sound.terms entry member net on)

end Merge

/-! ### Rounds -/

/-- What a round finds before it merges. -/
theorem mergeOnce_some (producers : Producers) (id : Nat) (s s' : State)
    (merged : mergeOnce producers id s = some s') :
    ∃ outer inner width trueBranch select innerSelect inputs, inner.id ∉ s.removed ∧
      Compatible s.design outer inner width trueBranch select innerSelect ∧
      ReadsInputs inner width trueBranch inputs ∧
      s' = ⟨rewire s.design outer inner width trueBranch inputs innerSelect select, s.removed ++ [inner.id]⟩ := by
  unfold mergeOnce at merged
  obtain ⟨outer, got, merged⟩ := Option.bind_eq_some_iff.mp merged
  obtain ⟨width, isMux2, merged⟩ := Option.bind_eq_some_iff.mp merged
  obtain ⟨select, selected, merged⟩ := Option.bind_eq_some_iff.mp merged
  have inOuter := (Design.getInstance_some got).1
  have branch (trueBranch : Bool) (taken : mergeBranch producers s outer width select trueBranch = some s') :
      ∃ outer inner width trueBranch select innerSelect inputs, inner.id ∉ s.removed ∧
        Compatible s.design outer inner width trueBranch select innerSelect ∧
        ReadsInputs inner width trueBranch inputs ∧
        s' = ⟨rewire s.design outer inner width trueBranch inputs innerSelect select, s.removed ++ [inner.id]⟩ := by
    obtain ⟨inner, innerSelect, inputs, -, fresh, compatible, reads, same⟩ :=
      mergeBranch_some producers s s' outer width select trueBranch inOuter isMux2 selected taken
    exact ⟨outer, inner, width, trueBranch, select, innerSelect, inputs, fresh, compatible, reads, same⟩
  cases first : mergeBranch producers s outer width select false with
  | some next =>
      rw [first] at merged
      exact branch false (first.trans merged)
  | none =>
      rw [first] at merged
      exact branch true merged

/-- A state of the pass on a design: the values are kept, and the multiplexers that are gone are those
on the list. -/
structure Reached (others : Nat → Model → (BitTerm → Bool) → Prop) (design : Design) (s : State) : Prop where
  sound : s.design.Sound
  preserved : Preserved others design s.design
  muxes : muxIDs s.design = (muxIDs design).filter (fun id => id ∉ s.removed)
  distinct : s.removed.Nodup
  were : ∀ id ∈ s.removed, id ∈ muxIDs design

theorem Reached.start (others : Nat → Model → (BitTerm → Bool) → Prop) (design : Design) (sound : design.Sound) :
    Reached others design ⟨design, []⟩ := by
  refine ⟨sound, Preserved.refl others design, ?_, List.nodup_nil, ?_⟩
  · simp
  · intro id member
    exact absurd member List.not_mem_nil

variable {others : Nat → Model → (BitTerm → Bool) → Prop} {design : Design}

theorem Reached.step (producers : Producers) (id : Nat) (s s' : State) (reached : Reached others design s)
    (merged : mergeOnce producers id s = some s') :
    Reached others design s' ∧ (muxIDs s'.design).length < (muxIDs s.design).length := by
  obtain ⟨outer, inner, width, trueBranch, select, innerSelect, inputs, fresh, compatible, reads, rfl⟩ :=
    mergeOnce_some producers id s s' merged
  have there := inner_muxIDs compatible
  have was : inner.id ∈ muxIDs design := by
    rw [reached.muxes] at there
    exact (List.mem_filter.mp there).1
  refine ⟨⟨sound_rewire reached.sound compatible reads,
    reached.preserved.trans (preserved_rewire reached.sound compatible reads), ?_, ?_, ?_⟩, ?_⟩
  · change muxIDs (rewire _ _ _ _ _ _ _ _) = _
    rw [muxIDs_rewire, reached.muxes, List.filter_filter]
    refine List.filter_congr ?_
    intro other _
    simp [and_comm]
  · refine List.nodup_append.mpr ⟨reached.distinct, List.nodup_singleton _, ?_⟩
    intro gone member other last
    rw [List.mem_singleton.mp last]
    rintro rfl
    exact fresh member
  · intro gone member
    rcases List.mem_append.mp member with before | last
    · exact reached.were gone before
    · rw [List.mem_singleton.mp last]
      exact was
  · change (muxIDs (rewire _ _ _ _ _ _ _ _)).length < _
    rw [muxIDs_rewire]
    exact List.length_filter_lt_length_iff_exists.mpr ⟨inner.id, there, by simp⟩

/-- The loop on one multiplexer ends: every round takes a multiplexer away. -/
theorem visitMux_reached (producers : Producers) (fuel id : Nat) (s : State) (reached : Reached others design s)
    (enough : (muxIDs design).length < fuel) : ∃ s', visitMux producers fuel s id = some s' ∧ Reached others design s' := by
  unfold visitMux
  split
  · exact ⟨s, rfl, reached⟩
  · have short : (muxIDs s.design).length < fuel := by
      rw [reached.muxes]
      exact lt_of_le_of_lt (List.length_filter_le _ _) enough
    obtain ⟨s', ran, reached', -⟩ := whileSome_ends (mergeOnce producers id) (Reached others design)
      (fun s => (muxIDs s.design).length) (fun s s' inv taken => inv.step producers id s s' taken) fuel s reached short
    exact ⟨s', ran, reached'⟩

theorem visitAll_reached (producers : Producers) (fuel : Nat) (muxes : List Instance) (s : State)
    (reached : Reached others design s) (enough : (muxIDs design).length < fuel) :
    ∃ s', muxes.foldlM (fun s outer => visitMux producers fuel s outer.id) s = some s' ∧ Reached others design s' := by
  induction muxes generalizing s with
  | nil => exact ⟨s, rfl, reached⟩
  | cons outer rest ih =>
      obtain ⟨next, visited, reached'⟩ := visitMux_reached producers fuel outer.id s reached enough
      obtain ⟨s', ran, last⟩ := ih next reached'
      refine ⟨s', ?_, last⟩
      rw [List.foldlM_cons, visited]
      exact ran

/-- The multiplexers on the list are as many as are gone. -/
theorem Reached.count (s : State) (sound : design.Sound) (reached : Reached others design s) :
    (muxIDs s.design).length + s.removed.length = (muxIDs design).length := by
  have gone : ((muxIDs design).filter (fun id => id ∈ s.removed)).Perm s.removed := by
    refine (List.perm_ext_iff_of_nodup ((muxIDs_nodup design sound).filter _) reached.distinct).mpr ?_
    intro id
    rw [List.mem_filter, decide_eq_true_eq]
    exact ⟨And.right, fun member => ⟨reached.were id member, member⟩⟩
  rw [reached.muxes, ← gone.length_eq, Nat.add_comm]
  have parts := List.length_eq_length_filter_add (l := muxIDs design) (fun id => decide (id ∈ s.removed))
  simpa using parts.symm

/-! ### The pass -/

/-- Values that nets can have at the same time, for given values of the inputs of the design and of the
terminals without a net. -/
def Allows (others : Nat → Model → (BitTerm → Bool) → Prop) (design : Design) (kept : Net → Prop)
    (inputs : BitTerm → Bool) (floating : Nat → BitTerm → Bool) (values : Net → Bool) : Prop :=
  ∃ v, Consistent others design v ∧ v.floating = floating ∧
    (∀ entry ∈ design.bitTerms, entry.1.direction = .Input → ∀ net, entry.2 = some net → v.net net = inputs entry.1) ∧
    ∀ net, kept net → v.net net = values net

/-- A kept design allows the same values on the nets that are still connected. -/
theorem Preserved.allows (design' : Design) (sound : design.Sound) (preserved : Preserved others design design')
    (inputs : BitTerm → Bool) (floating : Nat → BitTerm → Bool) (values : Net → Bool) :
    Allows others design (fun net => net ∈ design.nets ∧ design'.Connected net) inputs floating values ↔
      Allows others design' (fun net => net ∈ design.nets ∧ design'.Connected net) inputs floating values := by
  constructor
  · rintro ⟨v, consistent, rfl, driven, kept⟩
    obtain ⟨v', consistent', floating', same⟩ := preserved.forward v consistent
    refine ⟨v', consistent', floating', ?_, ?_⟩
    · intro entry member input net on
      rw [preserved.bitTerms] at member
      rw [same net (sound.terms entry member net on)]
      exact driven entry member input net on
    · intro net still
      rw [same net still.1]
      exact kept net still
  · rintro ⟨v', consistent', rfl, driven, kept⟩
    obtain ⟨v, consistent, floating', same⟩ := preserved.backward v' consistent'
    refine ⟨v, consistent, floating', ?_, ?_⟩
    · intro entry member input net on
      have after : entry ∈ design'.bitTerms := by rwa [preserved.bitTerms]
      have connected : design'.Connected net :=
        Or.inr (List.any_eq_true.mpr ⟨entry, after, decide_eq_true on⟩)
      rw [same net (sound.terms entry member net on) connected]
      exact driven entry after input net on
    · intro net still
      rw [same net still.1 still.2]
      exact kept net still

/-- The pass ends, counts the multiplexers it removes, and the nets that are still connected have the same
values for all inputs. -/
theorem mergeRepeatedMuxSelections_preserves (others : Nat → Model → (BitTerm → Bool) → Prop) (design : Design)
    (sound : design.Sound) : ∃ design' count, mergeRepeatedMuxSelections design = some (design', count) ∧
      (muxIDs design').Sublist (muxIDs design) ∧ (muxIDs design').length + count = (muxIDs design).length ∧
      ∀ inputs floating values,
        Allows others design (fun net => net ∈ design.nets ∧ design'.Connected net) inputs floating values ↔
          Allows others design' (fun net => net ∈ design.nets ∧ design'.Connected net) inputs floating values := by
  have enough : (muxIDs design).length < (getMuxes design).length + 1 := by
    rw [muxIDs, List.length_map]
    exact Nat.lt_succ_self _
  obtain ⟨s, ran, reached⟩ := visitAll_reached ((getMuxes design).foldl addProducer []) _ (getMuxes design) ⟨design, []⟩
    (Reached.start others design sound) enough
  refine ⟨s.design, s.removed.length, ?_, ?_, reached.count s sound, reached.preserved.allows s.design sound⟩
  · exact congrArg (Option.map (fun s : State => (s.design, s.removed.length))) ran
  · rw [reached.muxes]
    exact List.filter_sublist

/-! ### A chain of two multiplexers -/

def connect (entries : List (BitTerm × Net)) (t : BitTerm) : Option Net := entries.lookup t

/-- The second multiplexer has the first one at `A`, and both have one net at `B`. -/
def chain : Design :=
  { nets := [1, 2, 3, 4, 5, 6]
    bitTerms := [(⟨0, 0, .Input⟩, some 1), (⟨1, 0, .Input⟩, some 2), (⟨2, 0, .Input⟩, some 3), (⟨3, 0, .Input⟩, some 5),
      (⟨4, 0, .Output⟩, some 6)]
    instances := [
      ⟨0, .primitive (.mux2 1), connect [((getMux2InputA 1).getBit 0, 1), ((getMux2InputB 1).getBit 0, 2),
        (getMux2Select, 3), ((getMux2Output 1).getBit 0, 4)]⟩,
      ⟨1, .primitive (.mux2 1), connect [((getMux2InputA 1).getBit 0, 4), ((getMux2InputB 1).getBit 0, 2),
        (getMux2Select, 5), ((getMux2Output 1).getBit 0, 6)]⟩] }

theorem connect_mem (entries : List (BitTerm × Net)) (t : BitTerm) (net : Net) (on : connect entries t = some net) :
    (t, net) ∈ entries := by
  obtain ⟨before, after, same, -⟩ := List.lookup_eq_some_iff.mp on
  rw [same]
  exact List.mem_append_right _ List.mem_cons_self

theorem chain_sound : chain.Sound := by
  refine ⟨by decide, ?_, by decide⟩
  intro i member t net on
  have checked (entries : List (BitTerm × Net)) (on : connect entries t = some net)
      (all : ∀ entry ∈ entries, entry.1 ∈ (Model.primitive (.mux2 1)).getBitTerms ∧ entry.2 ∈ chain.nets) :
      t ∈ (Model.primitive (.mux2 1)).getBitTerms ∧ net ∈ chain.nets := all _ (connect_mem entries t net on)
  simp only [chain, List.mem_cons, List.not_mem_nil, or_false] at member
  rcases member with rfl | rfl
  · exact checked _ on (by decide)
  · exact checked _ on (by decide)

theorem chain_preserves : ∃ design' count, mergeRepeatedMuxSelections chain = some (design', count) ∧
    (muxIDs design').Sublist (muxIDs chain) ∧ (muxIDs design').length + count = (muxIDs chain).length ∧
    ∀ inputs floating values,
      Allows (fun _ _ _ => True) chain (fun net => net ∈ chain.nets ∧ design'.Connected net) inputs floating values ↔
        Allows (fun _ _ _ => True) design' (fun net => net ∈ chain.nets ∧ design'.Connected net) inputs floating values :=
  mergeRepeatedMuxSelections_preserves (fun _ _ _ => True) chain chain_sound

example : (mergeRepeatedMuxSelections chain).map Prod.snd = some 1 := by decide

end Naja.MuxMerging
