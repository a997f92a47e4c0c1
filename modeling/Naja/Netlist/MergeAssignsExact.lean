import Naja.Netlist.MergeAssigns
import Naja.Netlist.Runs

/-! Merging keeps the connections as long as no assign closes a cycle. The components of a
net that an assign closes on itself fall out of its list, and those that are not of an
assign never come back; a scalar net is even destroyed under them. -/

namespace Naja.Netlist
open Naja.Registry

section forest
variable (w : World) (whole : w.Sound) (assign : Nat) (d : Design)

/-- Every assign is between two nets. -/
def AssignsConnected : Prop :=
  ∀ i ∈ assignInstances assign d, ∃ a b, d.links.netOf (.instTerm i.object 0) = some a ∧
    d.links.netOf (.instTerm i.object 1) = some b

theorem forall₂_assignNets (connected : AssignsConnected assign d) :
    List.Forall₂ (fun i pair => d.links.netOf (.instTerm i.object 0) = some pair.1 ∧
      d.links.netOf (.instTerm i.object 1) = some pair.2) (assignInstances assign d) (assignNets assign d) := by
  unfold AssignsConnected at connected
  unfold assignNets
  generalize assignInstances assign d = instances at connected
  induction instances with
  | nil => exact .nil
  | cons i rest ih =>
      obtain ⟨a, b, input, output⟩ := connected i List.mem_cons_self
      rw [List.filterMap_cons_some (b := (a, b)) (by rw [input, output]; rfl)]
      exact .cons ⟨input, output⟩ (ih (fun x member => connected x (List.mem_cons_of_mem _ member)))

theorem nodup_assignInstances (sound : d.instances.Sound) : (assignInstances assign d).Nodup :=
  (List.Nodup.of_map _ sound.objects).filter _

/-- The components left when the assigns are gone. -/
theorem hasComponent_iff_plain (sound : d.Sound w) (merged : Design) (terms : merged.terms = d.terms)
    (instances : ∀ i, i ∈ merged.instances.set ↔ i ∈ d.instances.set ∧ i ∉ assignInstances assign d) (c : Component) :
    merged.hasComponent c ↔ PlainComponent assign d c := by
  cases c with
  | bitTerm b =>
      have same : merged.hasComponent (.bitTerm b) ↔ d.hasComponent (.bitTerm b) := by
        unfold Design.hasComponent Design.hasBitTerm
        rw [terms]
      rw [same]
      refine ⟨fun here => ⟨here, fun i _ isTerminal => ?_⟩, And.left⟩
      obtain ⟨_, -, other⟩ := List.mem_map.mp isTerminal
      exact nomatch other
  | instTerm inst slot =>
      constructor
      · rintro ⟨e, member, rfl, filled⟩
        obtain ⟨inDesign, notAssign⟩ := (instances e).mp member
        refine ⟨⟨e, inDesign, rfl, filled⟩, fun i isAssign isTerminal => ?_⟩
        obtain ⟨_, -, same⟩ := List.mem_map.mp isTerminal
        have object : i.object = e.object := by
          injection same
        rw [sound.instances.eq_of_object i e (List.mem_of_mem_filter isAssign) inDesign object] at isAssign
        exact notAssign isAssign
      · rintro ⟨⟨e, inDesign, rfl, filled⟩, elsewhere⟩
        refine ⟨e, (instances e).mpr ⟨inDesign, fun isAssign => ?_⟩, rfl, filled⟩
        exact elsewhere e isAssign (List.mem_map_of_mem ((mem_filledSlots e slot).mpr filled))

include whole

/-- Without a cycle all assigns are merged. -/
theorem merged_of_forest (k : Nat) (found : w.designs[k]? = some d) (connected : AssignsConnected assign d)
    (forest : Forest (assignNets assign d)) :
    ∃ merged, w.mergeAssigns assign k = .done (w.setDesign k merged) ∧ Merged assign d merged := by
  have sound := whole k d found
  obtain ⟨turned, f, turns, state⟩ := foldlM_mergeAssign w whole d (assignInstances assign d) (turned_start w d sound) _
    (forall₂_assignNets assign d connected) forest
  rw [List.nil_append] at state
  have turnedInstances : turned.instances = d.instances := by rw [state.frame]
  obtain ⟨merged, destroys, mergedSound, frame, instances, netOf⟩ := foldlM_destroyAssign w whole (assignInstances assign d)
    (nodup_assignInstances assign d sound.instances) turned state.sound
    (fun i member => turnedInstances ▸ List.mem_of_mem_filter member)
  rw [turnedInstances] at instances
  have terms : merged.terms = d.terms := by
    rw [frame]
    simp only
    rw [state.frame]
  have merges : w.mergeAssigns assign k = .done (w.setDesign k merged) := by
    rw [World.mergeAssigns, found]
    simp only
    rw [turns, Option.bind_some, destroys]
  have plainNet (c : Component) (plain : PlainComponent assign d c) :
      merged.links.netOf c = (d.links.netOf c).map f := (netOf c plain.2).trans (state.netOf c)
  refine ⟨merged, merges, ?_, hasComponent_iff_plain w assign d sound merged terms instances, ?_,
    fun n _ c => mergedSound.links.iff c n, fun c n isNet => (mergedSound.attached c n isNet).2⟩
  · apply List.filter_eq_nil_iff.mpr
    intro i member isAssign
    obtain ⟨inDesign, notAssign⟩ := (instances i).mp member
    exact notAssign (List.mem_filter.mpr ⟨inDesign, isAssign⟩)
  · intro c c' plain plain'
    rw [plainNet c plain, plainNet c' plain']
    constructor
    · rintro ⟨m, isNet, isNet'⟩
      obtain ⟨n, there, rfl⟩ := Option.map_eq_some_iff.mp isNet
      obtain ⟨n', there', same⟩ := Option.map_eq_some_iff.mp isNet'
      exact ⟨n, n', there, there', (state.represents n n').mp same.symm⟩
    · rintro ⟨n, n', there, there', joined⟩
      rw [there, there']
      exact ⟨f n, rfl, congrArg some ((state.represents n n').mpr joined).symm⟩

end forest

/-! ### A net that is closed on itself -/

section lost
variable (w : World)

/-- The component has a net, and no net has the component. -/
def Lost (c : Component) (n : BitNet) (d : Design) : Prop :=
  d.links.netOf c = some n ∧ ∀ m, c ∉ d.links.components m

/-- The net was destroyed. -/
def Dead (n : BitNet) (d : Design) : Prop := ∀ e ∈ d.nets.set ++ d.nets.loose, e.object ≠ n.net

variable {c : Component} {n : BitNet} {d d' : Design}

theorem Lost.setNet (lost : Lost c n d) (other : Component) (ne : other ≠ c) (target : Option BitNet) :
    Lost c n (w.setNet d other target) := by
  constructor
  · have netOf := Links.netOf_setNet (w.sameKey d) d.links other target c
    rw [if_neg (Ne.symm ne), lost.1] at netOf
    exact netOf
  · intro m member
    rcases Links.components_setNet (w.sameKey d) d.links other target c m member with same | old
    · exact ne same.symm
    · exact lost.2 m old

theorem Lost.setNets (lost : Lost c n d) (pairs : List (Component × Option BitNet)) (others : ∀ pair ∈ pairs, pair.1 ≠ c) :
    Lost c n (w.setNets d pairs) := by
  induction pairs generalizing d with
  | nil => exact lost
  | cons pair rest ih =>
      exact ih (lost.setNet w pair.1 (others pair List.mem_cons_self) pair.2)
        (fun other member => others other (List.mem_cons_of_mem _ member))

theorem moveComponent_ok (target : Option BitNet) (other : Component) (moved : w.moveComponent target d other = some d') :
    d' = w.setNet d other target := by
  unfold World.moveComponent at moved
  split at moved
  · cases moved
  split at moved
  · cases moved
  · exact (Option.some.inj moved).symm

theorem moveComponents_ok (target : Option BitNet) (cs : List Component)
    (moved : cs.foldlM (w.moveComponent target) d = some d') : d' = w.setNets d (cs.map (fun c => (c, target))) := by
  induction cs generalizing d with
  | nil => exact (Option.some.inj moved).symm
  | cons other rest ih =>
      rw [List.foldlM_cons] at moved
      obtain ⟨next, first, later⟩ := Option.bind_eq_some_iff.mp moved
      have step := ih later
      rw [moveComponent_ok w target other first] at step
      exact step

theorem Lost.disconnect (lost : Lost c n d) (bits : List BitNet) : Lost c n (bits.foldl w.disconnect d) := by
  induction bits generalizing d with
  | nil => exact lost
  | cons m rest ih =>
      refine ih (lost.setNets w _ ?_)
      intro pair inPairs same
      obtain ⟨other, listed, rfl⟩ := List.mem_map.mp inPairs
      exact lost.2 m (show c ∈ d.links.components m from same ▸ listed)

theorem Lost.clear (lost : Lost c n d) (m : BitNet) : Lost c n (World.clearComponents d m) := by
  refine ⟨lost.1, ?_⟩
  intro m' member
  change c ∈ (if m' = m then [] else d.links.components m') at member
  split at member
  · exact absurd member List.not_mem_nil
  · exact lost.2 m' member

theorem mem_of_mem_remove (nets : Index NetData) (e x : Entry NetData)
    (member : x ∈ (nets.remove e).set ++ (nets.remove e).loose) : x ∈ nets.set ++ nets.loose := by
  rcases List.mem_append.mp member with inSet | inLoose
  · exact List.mem_append_left _ (List.mem_of_mem_filter inSet)
  · rcases List.mem_append.mp (List.mem_of_mem_filter inLoose) with first | second
    · exact List.mem_append_left _ (List.mem_of_mem_filter first)
    · exact List.mem_append_right _ second

/-- Turns move listed components only, and never bring a net back. -/
theorem Lost.mergeAssign (lost : Lost c n d) (i : Entry InstData) (merged : w.mergeAssign d i = some d') :
    Lost c n d' ∧ (Dead n d → Dead n d') := by
  unfold World.mergeAssign at merged
  split at merged
  · cases merged
  next out _ =>
  split at merged
  · cases merged
  next e _ =>
  obtain ⟨moved, moves, rfl⟩ := Option.map_eq_some_iff.mp merged
  have movedLost : Lost c n moved ∧ moved.nets = d.nets := by
    unfold World.connectAllComponentsTo at moves
    split at moves
    · cases moves
      exact ⟨lost.clear out, rfl⟩
    · obtain ⟨between, ran, rfl⟩ := Option.map_eq_some_iff.mp moves
      rw [moveComponents_ok w _ _ ran]
      refine ⟨Lost.clear (lost.setNets w _ ?_) out, ?_⟩
      · intro pair inPairs same
        obtain ⟨other, listed, rfl⟩ := List.mem_map.mp inPairs
        exact lost.2 out (show c ∈ d.links.components out from same ▸ listed)
      · change (w.setNets d _).nets = d.nets
        rw [setNets_frame]
  split
  · refine ⟨movedLost.1.disconnect w (bitNetsOf e), ?_⟩
    intro dead x member
    have cutNets : ((bitNetsOf e).foldl w.disconnect moved).nets = d.nets := by
      rw [disconnectAll_frame]
      exact movedLost.2
    rw [World.withoutNet] at member
    simp only at member
    rw [cutNets] at member
    exact dead x (mem_of_mem_remove d.nets e x member)
  · exact ⟨movedLost.1, fun dead => by unfold Dead; rw [movedLost.2]; exact dead⟩

theorem Lost.mergeAssigns (lost : Lost c n d) (instances : List (Entry InstData))
    (merged : instances.foldlM w.mergeAssign d = some d') : Lost c n d' ∧ (Dead n d → Dead n d') := by
  induction instances generalizing d with
  | nil =>
      cases merged
      exact ⟨lost, id⟩
  | cons i rest ih =>
      rw [List.foldlM_cons] at merged
      obtain ⟨next, first, later⟩ := Option.bind_eq_some_iff.mp merged
      obtain ⟨nextLost, nextDead⟩ := lost.mergeAssign w i first
      obtain ⟨lastLost, lastDead⟩ := ih nextLost later
      exact ⟨lastLost, fun dead => lastDead (nextDead dead)⟩

theorem destroyAssign_ok (i : Entry InstData) (destroyed : w.destroyAssign d i = some d') :
    d' = w.withoutInstance d i := by
  obtain ⟨cut, ran, rfl⟩ := Option.map_eq_some_iff.mp destroyed
  rw [moveComponents_ok w none _ ran]
  rfl

theorem Lost.withoutInstance (lost : Lost c n d) (i : Entry InstData) (elsewhere : c ∉ terminalsOf i) :
    Lost c n (w.withoutInstance d i) := by
  refine lost.setNets w _ ?_
  intro pair inPairs same
  obtain ⟨other, isTerminal, rfl⟩ := List.mem_map.mp inPairs
  exact elsewhere (show c ∈ terminalsOf i from same ▸ isTerminal)

theorem Lost.destroyAssigns (lost : Lost c n d) (gone : List (Entry InstData)) (elsewhere : ∀ i ∈ gone, c ∉ terminalsOf i)
    (destroyed : gone.foldlM w.destroyAssign d = some d') : Lost c n d' := by
  induction gone generalizing d with
  | nil =>
      cases destroyed
      exact lost
  | cons i rest ih =>
      rw [List.foldlM_cons] at destroyed
      obtain ⟨next, first, later⟩ := Option.bind_eq_some_iff.mp destroyed
      have step := lost.withoutInstance w i (elsewhere i List.mem_cons_self)
      rw [← destroyAssign_ok w i first] at step
      exact ih step (fun x member => elsewhere x (List.mem_cons_of_mem _ member)) later

theorem not_held_of_dead (dead : Dead n d) : World.holdsBitNet d n = false := by
  have absent : d.nets.entry n.net = none := by
    apply List.find?_eq_none.mpr
    intro e member
    rw [beq_iff_eq]
    exact dead e member
  rw [World.holdsBitNet, absent]
  rfl

theorem moveComponents_dead (lost : Lost c n d) (dead : Dead n d) (cs : List Component) (member : c ∈ cs) :
    cs.foldlM (w.moveComponent none) d = none := by
  induction cs generalizing d with
  | nil => exact absurd member List.not_mem_nil
  | cons other rest ih =>
      rw [List.foldlM_cons]
      by_cases same : other = c
      · have stops : w.moveComponent none d other = none := by
          rw [same, World.moveComponent, if_neg (by simp), if_pos]
          rw [lost.1]
          exact ⟨nofun, by rw [Option.any_some, not_held_of_dead dead]; rfl⟩
        rw [stops]
        rfl
      · cases moves : w.moveComponent none d other with
        | none => rfl
        | some next =>
            have isNext := moveComponent_ok w none other moves
            have later : c ∈ rest := (List.mem_cons.mp member).resolve_left (Ne.symm same)
            exact ih (isNext ▸ lost.setNet w other same none) (isNext ▸ dead) later

/-- A terminal that is left on a destroyed net cannot be destroyed. -/
theorem destroyAssigns_dead (lost : Lost c n d) (dead : Dead n d) (gone : List (Entry InstData)) (i : Entry InstData)
    (member : i ∈ gone) (terminal : c ∈ terminalsOf i) : gone.foldlM w.destroyAssign d = none := by
  induction gone generalizing d with
  | nil => exact absurd member List.not_mem_nil
  | cons x rest ih =>
      rw [List.foldlM_cons]
      by_cases here : c ∈ terminalsOf x
      · rw [World.destroyAssign, moveComponents_dead w lost dead _ here]
        rfl
      · cases destroys : w.destroyAssign d x with
        | none => rfl
        | some next =>
            have isNext := destroyAssign_ok w x destroys
            have nets : (w.withoutInstance d x).nets = d.nets := by
              change (w.setNets d _).nets = d.nets
              rw [setNets_frame]
            have later : i ∈ rest := (List.mem_cons.mp member).resolve_left (fun same => here (same ▸ terminal))
            refine ih (isNext ▸ lost.withoutInstance w x here) ?_ later
            unfold Dead
            rw [isNext, nets]
            exact dead

end lost

section cycle
variable (w : World) (whole : w.Sound) (assign : Nat) (d : Design)

/-- What a closed net takes with it: a component that is not of an assign, or the net itself when it is scalar. -/
def Exposed (before : List (BitNet × BitNet)) (a : BitNet) : Prop :=
  (∃ c n, PlainComponent assign d c ∧ d.links.netOf c = some n ∧ Joined before n a) ∨
    ∀ n, Joined before n a → ∀ e ∈ d.nets.set, n ∈ bitNetsOf e → e.data.range = none

/-- The turn of an assign whose two nets are one already. -/
theorem mergeAssign_closes (done : List (BitNet × BitNet)) (f : BitNet → BitNet) (turned : Design)
    (state : Turned w d done f turned) (i : Entry InstData) (a b : BitNet)
    (input : d.links.netOf (.instTerm i.object 0) = some a) (output : d.links.netOf (.instTerm i.object 1) = some b)
    (joined : Joined done a b) :
    ∃ next, w.mergeAssign turned i = some next ∧
      (∀ c, turned.links.netOf c = some (f a) → Lost c (f a) next) ∧
      ((∀ e ∈ d.nets.set, f a ∈ bitNetsOf e → e.data.range = none) → Dead (f a) next) := by
  have same := (state.represents a b).mpr joined
  have isInput : turned.links.netOf (.instTerm i.object 0) = some (f a) := by rw [state.netOf, input]; rfl
  have isOutput : turned.links.netOf (.instTerm i.object 1) = some (f a) := by rw [state.netOf, output, same]; rfl
  obtain ⟨e, member, bit⟩ := (state.sound.attached _ _ isOutput).2
  have object := ((mem_bitNetsOf e _).mp bit).1
  have found := (state.sound.nets.entry_iff (f a).net e).mpr ⟨member, object.symm⟩
  have merges : w.mergeAssign turned i = some (if e.data.range.isNone
      then w.withoutNet (World.clearComponents turned (f a)) e else World.clearComponents turned (f a)) := by
    rw [World.mergeAssign, isOutput, isInput]
    simp only
    rw [found]
    simp only
    rw [World.connectAllComponentsTo, if_pos rfl]
    rfl
  have cleared (c : Component) (isNet : turned.links.netOf c = some (f a)) :
      Lost c (f a) (World.clearComponents turned (f a)) := by
    refine ⟨isNet, fun m listed => ?_⟩
    change c ∈ (if m = f a then [] else turned.links.components m) at listed
    split at listed
    · exact absurd listed List.not_mem_nil
    · next other => exact other (Option.some.inj (((state.sound.links.iff c m).mp listed).symm.trans isNet))
  by_cases scalar : e.data.range.isNone = true
  · rw [if_pos scalar] at merges
    refine ⟨_, merges, fun c isNet => (cleared c isNet).disconnect w _, fun _ x there => ?_⟩
    have nets : ((bitNetsOf e).foldl w.disconnect (World.clearComponents turned (f a))).nets = turned.nets := by
      rw [disconnectAll_frame]
      rfl
    rw [World.withoutNet] at there
    simp only at there
    rw [nets, (Index.sound_remove state.sound.nets e member).loose, List.append_nil] at there
    obtain ⟨inNets, other⟩ := (Index.mem_remove state.sound.nets e member x).mp there
    exact fun isNet => other (state.sound.nets.eq_of_object x e inNets member (isNet.trans object))
  · rw [if_neg scalar] at merges
    refine ⟨_, merges, cleared, fun all => ?_⟩
    rw [all e (state.nets e member) bit] at scalar
    exact absurd rfl scalar

theorem forall₂_split {α β : Type} (r : α → β → Prop) (as : List α) (before : List β) (b : β) (after : List β)
    (all : List.Forall₂ r as (before ++ b :: after)) :
    ∃ first a last, as = first ++ a :: last ∧ List.Forall₂ r first before ∧ r a b := by
  induction before generalizing as with
  | nil =>
      obtain ⟨a, last, here, -, rfl⟩ := List.forall₂_cons_right_iff.mp all
      exact ⟨[], a, last, rfl, .nil, here⟩
  | cons x before ih =>
      obtain ⟨y, rest, here, later, rfl⟩ := List.forall₂_cons_right_iff.mp all
      obtain ⟨first, a, last, rfl, firstAll, isPair⟩ := ih rest later
      exact ⟨y :: first, a, last, rfl, .cons here firstAll, isPair⟩

include whole

/-- An assign that closes a cycle on what matters leaves something wrong behind. -/
theorem not_merged_of_cycle (k : Nat) (found : w.designs[k]? = some d) (connected : AssignsConnected assign d)
    (before : List (BitNet × BitNet)) (pair : BitNet × BitNet) (after : List (BitNet × BitNet))
    (split : assignNets assign d = before ++ pair :: after) (forest : Forest before) (joined : Joined before pair.1 pair.2)
    (exposed : Exposed assign d before pair.1) :
    ¬∃ merged, w.mergeAssigns assign k = .done (w.setDesign k merged) ∧ Merged assign d merged := by
  rintro ⟨merged, merges, isMerged⟩
  have sound := whole k d found
  have between := forall₂_assignNets assign d connected
  rw [split] at between
  obtain ⟨first, i, last, instances, firstBetween, input, output⟩ := forall₂_split _ _ _ _ _ between
  obtain ⟨turned, f, turns, state⟩ := foldlM_mergeAssign w whole d first (turned_start w d sound) before firstBetween forest
  rw [List.nil_append] at state
  obtain ⟨next, closes, lost, dead⟩ := mergeAssign_closes w d before f turned state i pair.1 pair.2 input output joined
  -- the design the call leaves is what the two loops make of it
  have ran : ((assignInstances assign d).foldlM w.mergeAssign d).bind
      (fun turned => (assignInstances assign d).foldlM w.destroyAssign turned) = some merged := by
    rw [World.mergeAssigns, found] at merges
    simp only at merges
    split at merges
    · cases merges
    · next made ran =>
        rw [ran]
        have designs := congrArg (fun world : World => world.designs[k]?) (Outcome.done.inj merges)
        have inside := (List.getElem?_eq_some_iff.mp found).1
        simp only [World.setDesign, List.getElem?_set_self inside] at designs
        exact designs
  obtain ⟨loose, mergedAll, destroys⟩ := Option.bind_eq_some_iff.mp ran
  rw [instances, List.foldlM_append, turns, Option.bind_eq_bind, Option.bind_some, List.foldlM_cons, closes,
    Option.bind_eq_bind, Option.bind_some] at mergedAll
  have onNet (c : Component) (n : BitNet) (isNet : d.links.netOf c = some n) (inClass : Joined before n pair.1) :
      turned.links.netOf c = some (f pair.1) := by
    rw [state.netOf, isNet]
    exact congrArg some ((state.represents n pair.1).mpr inClass)
  rcases exposed with ⟨c, n, plain, isNet, inClass⟩ | scalar
  · obtain ⟨looseLost, -⟩ := (lost c (onNet c n isNet inClass)).mergeAssigns w last mergedAll
    obtain ⟨isLost, unlisted⟩ := looseLost.destroyAssigns w _ plain.2 destroys
    have listed := (isMerged.linked _ (isMerged.alive c _ isLost) c).mpr isLost
    exact unlisted _ listed
  · have isNet := onNet _ _ input (.refl _)
    obtain ⟨looseLost, looseDead⟩ := (lost _ isNet).mergeAssigns w last mergedAll
    have representative : Joined before (f pair.1) pair.1 := (state.represents _ _).mp (state.stays pair.1)
    have isDead := looseDead (dead (fun e member bit => scalar _ representative e member bit))
    have member : i ∈ assignInstances assign d := by
      rw [instances]
      exact List.mem_append_right _ List.mem_cons_self
    obtain ⟨⟨e, inDesign, object, filled⟩, -⟩ := sound.attached _ _ input
    have isInstance := sound.instances.eq_of_object e i inDesign (List.mem_of_mem_filter member) object
    have terminal : Component.instTerm i.object 0 ∈ terminalsOf i :=
      List.mem_map_of_mem ((mem_filledSlots i 0).mpr (isInstance ▸ filled))
    rw [destroyAssigns_dead w looseLost isDead _ i member terminal] at destroys
    cases destroys

end cycle

/-- Merging the assigns keeps the connections when no assign closes a cycle, and does not when one closes a cycle that
has another component on it, or scalar nets only. -/
theorem mergeAssigns_merges (w : World) (whole : w.Sound) (assign k : Nat) (d : Design) (found : w.designs[k]? = some d)
    (connected : AssignsConnected assign d) :
    (Forest (assignNets assign d) →
      ∃ merged, w.mergeAssigns assign k = .done (w.setDesign k merged) ∧ Merged assign d merged) ∧
    (∀ before pair after, assignNets assign d = before ++ pair :: after → Forest before → Joined before pair.1 pair.2 →
      Exposed assign d before pair.1 →
      ¬∃ merged, w.mergeAssigns assign k = .done (w.setDesign k merged) ∧ Merged assign d merged) := by
  constructor
  · intro forest
    exact merged_of_forest w whole assign d k found connected forest
  · intro before pair after split forest joined exposed
    exact not_merged_of_cycle w whole assign d k found connected before pair after split forest joined exposed

/-- The assign of NLDB0, and a design with two scalar nets, a term on each and one assign. -/
def assignRun (output : Address) : List Operation :=
  [.createDesign 0 .Primitive "assign", .createTerm 0 none "I" .Input none, .createTerm 0 none "O" .Output none,
    .createDesign 1 .Standard "top", .createTerm 1 none "p" .Input none, .createTerm 1 none "q" .Output none,
    .createNet 1 none "a" none, .createNet 1 none "b" none, .createInstance 1 0 none "",
    .setNet 1 (.bitTerm ⟨2, 0⟩) (some (.bit 1 ⟨4, 0⟩)), .setNet 1 (.bitTerm ⟨3, 0⟩) (some (.bit 1 ⟨5, 0⟩)),
    .setNet 1 (.instTerm 6 0) (some (.bit 1 ⟨4, 0⟩)), .setNet 1 (.instTerm 6 1) (some (.bit 1 ⟨output, 0⟩))]

theorem assignRun_admissible (output : Address) (isNet : output = 4 ∨ output = 5) :
    ∃ w, AdmissibleRun (World.start [⟨"assign", true⟩, ⟨"work", false⟩]) (assignRun output) w := by
  refine AdmissibleRun.exists_cons _ _ _ _ trivial rfl ?_
  refine AdmissibleRun.exists_cons _ _ _ _ ?_ rfl ?_
  · exact forall_of_all _ 0 (fun d => Room d.terms none) (by decide +kernel)
  refine AdmissibleRun.exists_cons _ _ _ _ ?_ rfl ?_
  · exact forall_of_all _ 0 (fun d => Room d.terms none) (by decide +kernel)
  refine AdmissibleRun.exists_cons _ _ _ _ trivial rfl ?_
  refine AdmissibleRun.exists_cons _ _ _ _ ?_ rfl ?_
  · exact forall_of_all _ 1 (fun d => Room d.terms none) (by decide +kernel)
  refine AdmissibleRun.exists_cons _ _ _ _ ?_ rfl ?_
  · exact forall_of_all _ 1 (fun d => Room d.terms none) (by decide +kernel)
  refine AdmissibleRun.exists_cons _ _ _ _ ?_ rfl ?_
  · exact forall_of_all _ 1 (fun d => Room d.nets none) (by decide +kernel)
  refine AdmissibleRun.exists_cons _ _ _ _ ?_ rfl ?_
  · exact forall_of_all _ 1 (fun d => Room d.nets none) (by decide +kernel)
  refine AdmissibleRun.exists_cons _ _ _ _ ?_ rfl ?_
  · exact forall_of_all _ 1 (fun d => Room d.instances none) (by decide +kernel)
  refine AdmissibleRun.exists_cons _ _ _ _ trivial rfl ?_
  refine AdmissibleRun.exists_cons _ _ _ _ trivial rfl ?_
  refine AdmissibleRun.exists_cons _ _ _ _ trivial rfl ?_
  rcases isNet with rfl | rfl
  · refine AdmissibleRun.exists_cons _ _ _ _ trivial rfl ?_
    exact ⟨_, .nil _⟩
  · refine AdmissibleRun.exists_cons _ _ _ _ trivial rfl ?_
    exact ⟨_, .nil _⟩

instance (d : Design) (i : Entry InstData) :
    Decidable (∃ a b, d.links.netOf (.instTerm i.object 0) = some a ∧ d.links.netOf (.instTerm i.object 1) = some b) :=
  decidable_of_iff ((d.links.netOf (.instTerm i.object 0)).isSome ∧ (d.links.netOf (.instTerm i.object 1)).isSome) (by
    rw [Option.isSome_iff_exists, Option.isSome_iff_exists, ← exists_and_exists_comm])

/-- The terms of the design are on one net once the assign between their nets is merged. -/
theorem assignRun_merges : ∃ w d merged,
    (World.start [⟨"assign", true⟩, ⟨"work", false⟩]).run (assignRun 5) = some w ∧ w.designs[1]? = some d ∧
    assignNets 0 d = [(⟨4, 0⟩, ⟨5, 0⟩)] ∧ w.mergeAssigns 0 1 = .done (w.setDesign 1 merged) ∧ Merged 0 d merged := by
  obtain ⟨w, ran⟩ := assignRun_admissible 5 (.inr rfl)
  have whole := run_sound _ w (sound_start _) (assignRun 5) ran
  have state := ran.run_eq
  have checked : ((World.start [⟨"assign", true⟩, ⟨"work", false⟩]).run (assignRun 5)).all (fun w =>
      (w.designs[1]?).any (fun d => decide (assignNets 0 d = [(⟨4, 0⟩, ⟨5, 0⟩)]) &&
        decide (∀ i ∈ assignInstances 0 d, ∃ a b, d.links.netOf (.instTerm i.object 0) = some a ∧
          d.links.netOf (.instTerm i.object 1) = some b))) = true := by
    decide +kernel
  rw [state, Option.all_some, Option.any_eq_true] at checked
  obtain ⟨d, found, holds⟩ := checked
  simp only [Bool.and_eq_true, decide_eq_true_eq] at holds
  obtain ⟨nets, connected⟩ := holds
  have forest : Forest (assignNets 0 d) := by
    intro before pair after split joined
    rw [nets] at split
    have only : before = [] ∧ pair = (⟨4, 0⟩, ⟨5, 0⟩) := by
      cases before with
      | nil => exact ⟨rfl, (List.cons.inj split).1.symm⟩
      | cons _ rest => exact absurd (List.cons.inj split).2 (by simp)
    rw [only.1, only.2] at joined
    exact absurd ((represents_nil _ _).mpr joined) (by decide)
  obtain ⟨merged, merges, isMerged⟩ := (mergeAssigns_merges w whole 0 1 d found connected).1 forest
  exact ⟨w, d, merged, state, found, nets, merges, isMerged⟩

/-- An assign from a net to itself is destroyed after its net. -/
theorem selfAssign_undefined : ∃ w d,
    AdmissibleRun (World.start [⟨"assign", true⟩, ⟨"work", false⟩]) (assignRun 4) w ∧ w.designs[1]? = some d ∧
    assignNets 0 d = [(⟨4, 0⟩, ⟨4, 0⟩)] ∧ w.mergeAssigns 0 1 = .undefined := by
  obtain ⟨w, ran⟩ := assignRun_admissible 4 (.inl rfl)
  have state := ran.run_eq
  have checked : ((World.start [⟨"assign", true⟩, ⟨"work", false⟩]).run (assignRun 4)).all (fun w =>
      (match w.mergeAssigns 0 1 with | .undefined => true | _ => false) &&
      (w.designs[1]?).any (fun d => decide (assignNets 0 d = [(⟨4, 0⟩, ⟨4, 0⟩)]))) = true := by
    decide +kernel
  rw [state, Option.all_some, Bool.and_eq_true, Option.any_eq_true] at checked
  obtain ⟨isUndefined, d, found, holds⟩ := checked
  refine ⟨w, d, ran, found, of_decide_eq_true holds, ?_⟩
  split at isUndefined
  · next stopped => exact stopped
  · cases isUndefined

end Naja.Netlist
