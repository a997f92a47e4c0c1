import Naja.Netlist.Connection
import Naja.Registry.Merging

/-! The assigns of a design are merged away: the components of the output net of each go to
its input net, and an output net that is scalar is destroyed. The assigns are
destroyed after the last one was merged. -/

namespace Naja.Netlist
open Naja.Registry

namespace World
variable (w : World)

/-- `component->setNet(net)`. The new net is followed, and so is the one that is left. -/
def moveComponent (net : Option BitNet) (d : Design) (c : Component) : Option Design :=
  if net.any (fun n => !holdsBitNet d n) then none
  else if d.links.netOf c ≠ net ∧ (d.links.netOf c).any (fun n => !holdsBitNet d n) then none
  else some (w.setNet d c net)

def clearComponents (d : Design) (n : BitNet) : Design :=
  { d with links := { d.links with components := fun m => if m = n then [] else d.links.components m } }

def connectAllComponentsTo (d : Design) (n : BitNet) (net : Option BitNet) : Option Design :=
  if net = some n then some (clearComponents d n)
  else ((d.links.components n).foldlM (w.moveComponent net) d).map (fun d => clearComponents d n)

/-- The turn of one assign; the slots 0 and 1 are those of the input and the output of the assign of NLDB0. -/
def mergeAssign (d : Design) (assignInstance : Entry InstData) : Option Design :=
  match d.links.netOf (.instTerm assignInstance.object 1) with
  | none => none
  | some assignOutputNet =>
      match d.nets.entry assignOutputNet.net with
      | none => none
      | some e =>
          (w.connectAllComponentsTo d assignOutputNet (d.links.netOf (.instTerm assignInstance.object 0))).map
            (fun d => if e.data.range.isNone then w.withoutNet d e else d)

/-- `destroy` of an assign. -/
def destroyAssign (d : Design) (assignInstance : Entry InstData) : Option Design :=
  ((terminalsOf assignInstance).foldlM (w.moveComponent none) d).map
    (fun d => { d with instances := d.instances.remove assignInstance })

end World

/-- `assign` is the number of the assign of NLDB0. -/
def assignInstances (assign : Nat) (d : Design) : List (Entry InstData) :=
  d.instances.set.filter (fun i => i.data.model == assign)

def World.mergeAssigns (w : World) (assign k : Nat) : Outcome :=
  match w.designs[k]? with
  | none => .undefined
  | some d =>
      match ((assignInstances assign d).foldlM w.mergeAssign d).bind
          (fun merged => (assignInstances assign d).foldlM w.destroyAssign merged) with
      | none => .undefined
      | some merged => .done (w.setDesign k merged)

/-! ### What is claimed -/

section claim
variable (assign : Nat) (d : Design)

/-- The input and the output net of each assign. -/
def assignNets : List (BitNet × BitNet) :=
  (assignInstances assign d).filterMap (fun i =>
    (d.links.netOf (.instTerm i.object 0)).bind (fun a => (d.links.netOf (.instTerm i.object 1)).map (fun b => (a, b))))

/-- A component that is not of an assign. -/
def PlainComponent (c : Component) : Prop :=
  d.hasComponent c ∧ ∀ i ∈ assignInstances assign d, c ∉ terminalsOf i

/-- The design without its assigns, and with the connections they made. -/
structure Merged (merged : Design) : Prop where
  noAssign : assignInstances assign merged = []
  components : ∀ c, merged.hasComponent c ↔ PlainComponent assign d c
  connected : ∀ c c', PlainComponent assign d c → PlainComponent assign d c' →
    ((∃ n, merged.links.netOf c = some n ∧ merged.links.netOf c' = some n) ↔
      ∃ n n', d.links.netOf c = some n ∧ d.links.netOf c' = some n' ∧ Joined (assignNets assign d) n n')
  linked : ∀ n, merged.hasBitNet n → ∀ c, c ∈ merged.links.components n ↔ merged.links.netOf c = some n
  alive : ∀ c n, merged.links.netOf c = some n → merged.hasBitNet n

end claim

/-! ### The moves -/

section moves
variable (w : World) (whole : w.Sound)

theorem held_of_hasBitNet (d : Design) (nets : d.nets.Sound) (n : BitNet) (there : d.hasBitNet n) :
    World.holdsBitNet d n = true := by
  obtain ⟨e, member, bit⟩ := there
  obtain ⟨net, inside⟩ := (mem_bitNetsOf e n).mp bit
  rw [World.holdsBitNet, (nets.entry_iff n.net e).mpr ⟨member, net.symm⟩]
  exact decide_eq_true inside

include whole

theorem moveComponent_eq (d : Design) (sound : d.Sound w) (net : Option BitNet) (there : ∀ n, net = some n → d.hasBitNet n)
    (c : Component) : w.moveComponent net d c = some (w.setNet d c net) := by
  have held (n : BitNet) (inside : d.hasBitNet n) : World.holdsBitNet d n = true := held_of_hasBitNet d sound.nets n inside
  unfold World.moveComponent
  rw [if_neg, if_neg]
  · rintro ⟨-, left⟩
    obtain ⟨n, isNet, dead⟩ := (Option.any_eq_true _ _).mp left
    rw [held n (sound.attached c n isNet).2] at dead
    exact nomatch dead
  · intro target
    obtain ⟨n, isNet, dead⟩ := (Option.any_eq_true _ _).mp target
    rw [held n (there n isNet)] at dead
    exact nomatch dead

/-- Components that exist all move. -/
theorem foldlM_moveComponent (net : Option BitNet) (cs : List Component) (d : Design) (sound : d.Sound w)
    (exist : ∀ c ∈ cs, d.hasComponent c) (there : ∀ n, net = some n → d.hasBitNet n) :
    cs.foldlM (w.moveComponent net) d = some (w.setNets d (cs.map (fun c => (c, net)))) := by
  induction cs generalizing d with
  | nil => rfl
  | cons c rest ih =>
      rw [List.foldlM_cons, moveComponent_eq w whole d sound net there c]
      exact ih (w.setNet d c net) (sound.setNet w whole d c (exist c List.mem_cons_self) net there)
        (fun other member => exist other (List.mem_cons_of_mem _ member)) there

/-- A net gives its components to another one. -/
theorem connectAllComponentsTo_spec (d : Design) (sound : d.Sound w) (n into : BitNet) (other : into ≠ n)
    (there : d.hasBitNet into) : ∃ moved, w.connectAllComponentsTo d n (some into) = some moved ∧ moved.Sound w ∧
      moved = { d with links := moved.links } ∧ moved.links.components n = [] ∧
      ∀ c, moved.links.netOf c = if d.links.netOf c = some n then some into else d.links.netOf c := by
  have exist (c : Component) (inNet : c ∈ d.links.components n) : d.hasComponent c :=
    (sound.attached c n ((sound.links.iff c n).mp inNet)).1
  have target (m : BitNet) (isInto : some into = some m) : d.hasBitNet m := Option.some.inj isInto ▸ there
  have movedSound := sound.setNets w whole d ((d.links.components n).map (fun c => (c, some into))) (by
    intro pair inPairs
    obtain ⟨c, inNet, rfl⟩ := List.mem_map.mp inPairs
    exact ⟨exist c inNet, target⟩)
  have netOf (c : Component) :
      (w.setNets d ((d.links.components n).map (fun c => (c, some into)))).links.netOf c =
        if d.links.netOf c = some n then some into else d.links.netOf c := by
    rw [netOf_setNets_to]
    exact if_congr (sound.links.iff c n) rfl rfl
  have frame := setNets_frame w d ((d.links.components n).map (fun c => (c, some into)))
  have moves : w.connectAllComponentsTo d n (some into) = some (World.clearComponents
      (w.setNets d ((d.links.components n).map (fun c => (c, some into)))) n) := by
    rw [World.connectAllComponentsTo, if_neg (fun same => other (Option.some.inj same)),
      foldlM_moveComponent w whole (some into) _ d sound exist target]
    rfl
  generalize w.setNets d ((d.links.components n).map (fun c => (c, some into))) = moved at movedSound netOf frame moves
  -- no component is left on the net, so that clearing its list changes nothing
  have empty : moved.links.components n = [] := by
    apply List.eq_nil_iff_forall_not_mem.mpr
    intro c inNet
    have isNet := (movedSound.links.iff c n).mp inNet
    rw [netOf] at isNet
    split at isNet
    · exact other (Option.some.inj isNet)
    · next elsewhere => exact elsewhere isNet
  have cleared : World.clearComponents moved n = moved := by
    have same : (fun m => if m = n then [] else moved.links.components m) = moved.links.components := by
      funext m
      split
      · next here => rw [here, empty]
      · rfl
    rw [World.clearComponents, same]
  rw [cleared] at moves
  exact ⟨moved, moves, movedSound, frame, empty, netOf⟩

omit whole in
/-- A net without components only leaves the set of nets. -/
theorem withoutNet_of_empty (d : Design) (e : Entry NetData) (empty : ∀ n ∈ bitNetsOf e, d.links.components n = []) :
    w.withoutNet d e = { d with nets := d.nets.remove e } := by
  have cut (bits : List BitNet) (all : ∀ n ∈ bits, d.links.components n = []) : bits.foldl w.disconnect d = d := by
    induction bits with
    | nil => rfl
    | cons n rest ih =>
        have first : w.disconnect d n = d := by
          rw [World.disconnect, all n List.mem_cons_self]
          rfl
        rw [List.foldl_cons, first]
        exact ih (fun m member => all m (List.mem_cons_of_mem _ member))
  rw [World.withoutNet, cut _ empty]

omit whole in
theorem scalar_bit (e : Entry NetData) (scalar : e.data.range.isNone = true) (n : BitNet) (bit : n ∈ bitNetsOf e) :
    n = ⟨e.object, 0⟩ := by
  obtain ⟨net, inside⟩ := (mem_bitNetsOf e n).mp bit
  have inRange := (List.mem_filter.mp inside).1
  rw [Option.isNone_iff_eq_none.mp scalar] at inRange
  have isZero : n.bit = 0 := List.mem_singleton.mp inRange
  obtain ⟨a, b⟩ := n
  exact congrArg₂ BitNet.mk net isZero

end moves

/-! ### The first loop -/

section turns
variable (w : World) (whole : w.Sound) (d₀ : Design)

/-- The state between two turns: the nets the assigns so far have joined are one, and components are on their
representative. -/
structure Turned (done : List (BitNet × BitNet)) (f : BitNet → BitNet) (d : Design) : Prop where
  sound : d.Sound w
  frame : d = { d₀ with links := d.links, nets := d.nets }
  nets : ∀ e ∈ d.nets.set, e ∈ d₀.nets.set
  netOf : ∀ c, d.links.netOf c = (d₀.links.netOf c).map f
  represents : Represents done f
  stays : ∀ n, f (f n) = f n

theorem turned_start (sound : d₀.Sound w) : Turned w d₀ [] id d₀ where
  sound := sound
  frame := rfl
  nets _ member := member
  netOf c := by rw [Option.map_id]; rfl
  represents := represents_nil
  stays _ := rfl

variable {done : List (BitNet × BitNet)} {f : BitNet → BitNet} {d : Design}
include whole

/-- An assign between two nets that are not yet one makes them one. -/
theorem mergeAssign_joins (turned : Turned w d₀ done f d) (i : Entry InstData) (a b : BitNet)
    (input : d₀.links.netOf (.instTerm i.object 0) = some a) (output : d₀.links.netOf (.instTerm i.object 1) = some b)
    (apart : ¬Joined done a b) :
    ∃ d', w.mergeAssign d i = some d' ∧ Turned w d₀ (done ++ [(a, b)]) (redirect f (a, b)) d' := by
  have isInput : d.links.netOf (.instTerm i.object 0) = some (f a) := by rw [turned.netOf, input]; rfl
  have isOutput : d.links.netOf (.instTerm i.object 1) = some (f b) := by rw [turned.netOf, output]; rfl
  have other : f a ≠ f b := fun same => apart ((turned.represents a b).mp same)
  obtain ⟨e, member, bit⟩ := (turned.sound.attached _ _ isOutput).2
  have found := (turned.sound.nets.entry_iff (f b).net e).mpr ⟨member, (((mem_bitNetsOf e _).mp bit).1).symm⟩
  obtain ⟨moved, moves, movedSound, frame, empty, netOf⟩ := connectAllComponentsTo_spec w whole d turned.sound (f b) (f a)
    other (turned.sound.attached _ _ isInput).2
  have merges : w.mergeAssign d i = some (if e.data.range.isNone then w.withoutNet moved e else moved) := by
    rw [World.mergeAssign, isOutput, isInput]
    simp only
    rw [found]
    simp only
    rw [moves]
    rfl
  have movedNets : moved.nets = d.nets := by rw [frame]
  have movedFrame : moved = { d₀ with links := moved.links, nets := moved.nets } := by
    rw [frame]
    simp only
    rw [turned.frame]
  have movedNetOf (c : Component) : moved.links.netOf c = (d₀.links.netOf c).map (redirect f (a, b)) := by
    rw [netOf, turned.netOf]
    cases d₀.links.netOf c with
    | none => rfl
    | some n =>
        rw [Option.map_some, Option.map_some, redirect]
        by_cases same : f n = f b
        · rw [if_pos (congrArg some same), if_pos same]
        · rw [if_neg (fun isSame => same (Option.some.inj isSame)), if_neg same]
  have represents := turned.represents.redirect done f (a, b)
  have stays := redirect_stays f (a, b) turned.stays
  by_cases scalar : e.data.range.isNone = true
  · have onlyBit (n : BitNet) (inNet : n ∈ bitNetsOf e) : moved.links.components n = [] := by
      rw [scalar_bit e scalar n inNet, ← scalar_bit e scalar (f b) bit]
      exact empty
    have without := movedSound.withoutNet w whole moved e (movedNets ▸ member)
    rw [if_pos scalar] at merges
    rw [withoutNet_of_empty w moved e onlyBit] at without merges
    refine ⟨_, merges, without, ?_, ?_, movedNetOf, represents, stays⟩
    · rw [movedFrame]
    · intro x there
      have inMoved := ((Index.mem_remove movedSound.nets e (movedNets ▸ member) x).mp there).1
      exact turned.nets x (movedNets ▸ inMoved)
  · rw [if_neg scalar] at merges
    exact ⟨moved, merges, movedSound, movedFrame, fun x there => turned.nets x (movedNets ▸ there), movedNetOf, represents,
      stays⟩

/-- The turns of assigns that join what was apart. -/
theorem foldlM_mergeAssign (instances : List (Entry InstData)) (turned : Turned w d₀ done f d)
    (pairs : List (BitNet × BitNet)) (between : List.Forall₂ (fun i pair =>
      d₀.links.netOf (.instTerm i.object 0) = some pair.1 ∧ d₀.links.netOf (.instTerm i.object 1) = some pair.2)
      instances pairs)
    (apart : ∀ before pair after, pairs = before ++ pair :: after → ¬Joined (done ++ before) pair.1 pair.2) :
    ∃ d' f', instances.foldlM w.mergeAssign d = some d' ∧ Turned w d₀ (done ++ pairs) f' d' := by
  induction between generalizing done f d with
  | nil => exact ⟨d, f, rfl, by rwa [List.append_nil]⟩
  | @cons i pair instances pairs nets later ih =>
      have first := apart [] pair pairs rfl
      rw [List.append_nil] at first
      obtain ⟨next, merges, turned'⟩ := mergeAssign_joins w whole d₀ turned i pair.1 pair.2 nets.1 nets.2 first
      have rest (before : List (BitNet × BitNet)) (other : BitNet × BitNet) (after : List (BitNet × BitNet))
          (split : pairs = before ++ other :: after) : ¬Joined (done ++ [pair] ++ before) other.1 other.2 := by
        have here := apart (pair :: before) other after (by rw [split]; rfl)
        rwa [List.append_cons] at here
      obtain ⟨d', f', merged, turned''⟩ := ih turned' rest
      refine ⟨d', f', ?_, ?_⟩
      · rw [List.foldlM_cons, merges]
        exact merged
      · rwa [List.append_cons]

end turns

/-! ### The second loop -/

section destruction
variable (w : World) (whole : w.Sound)
include whole

theorem destroyAssign_eq (d : Design) (sound : d.Sound w) (i : Entry InstData) (member : i ∈ d.instances.set) :
    w.destroyAssign d i = some (w.withoutInstance d i) := by
  have exist (c : Component) (isTerminal : c ∈ terminalsOf i) : d.hasComponent c := by
    obtain ⟨slot, inSlots, rfl⟩ := List.mem_map.mp isTerminal
    exact ⟨i, member, rfl, (mem_filledSlots i slot).mp inSlots⟩
  rw [World.destroyAssign, foldlM_moveComponent w whole none _ d sound exist nofun]
  rfl

/-- Assigns that are in the design are destroyed, and their terminals leave their nets. -/
theorem foldlM_destroyAssign (gone : List (Entry InstData)) (distinct : gone.Nodup) (d : Design) (sound : d.Sound w)
    (members : ∀ i ∈ gone, i ∈ d.instances.set) :
    ∃ d', gone.foldlM w.destroyAssign d = some d' ∧ d'.Sound w ∧
      d' = { d with links := d'.links, instances := d'.instances } ∧
      (∀ i, i ∈ d'.instances.set ↔ i ∈ d.instances.set ∧ i ∉ gone) ∧
      ∀ c, (∀ i ∈ gone, c ∉ terminalsOf i) → d'.links.netOf c = d.links.netOf c := by
  induction gone generalizing d with
  | nil => exact ⟨d, rfl, sound, rfl, by simp, fun _ _ => rfl⟩
  | cons i rest ih =>
      have member := members i List.mem_cons_self
      have cutFrame := setNets_frame w d ((terminalsOf i).map (fun c => (c, none)))
      have cutInstances : (w.withoutInstance d i).instances = d.instances.remove i := by
        rw [World.withoutInstance]
        simp only
        rw [cutFrame]
      have inCut (x : Entry InstData) : x ∈ (w.withoutInstance d i).instances.set ↔ x ∈ d.instances.set ∧ x ≠ i := by
        rw [cutInstances]
        exact Index.mem_remove sound.instances i member x
      have cutNetOf (c : Component) (elsewhere : c ∉ terminalsOf i) :
          (w.withoutInstance d i).links.netOf c = d.links.netOf c := by
        have netOf := netOf_setNets_none w d (terminalsOf i) c
        rw [if_neg elsewhere] at netOf
        exact netOf
      obtain ⟨d', destroys, sound', frame, instances, netOf⟩ := ih (List.nodup_cons.mp distinct).2 (w.withoutInstance d i)
        (sound.withoutInstance w whole d i member) (by
          intro x inRest
          refine (inCut x).mpr ⟨members x (List.mem_cons_of_mem _ inRest), ?_⟩
          intro same
          exact (List.nodup_cons.mp distinct).1 (same ▸ inRest))
      refine ⟨d', ?_, sound', ?_, ?_, ?_⟩
      · rw [List.foldlM_cons, destroyAssign_eq w whole d sound i member]
        exact destroys
      · rw [frame, World.withoutInstance]
        simp only
        rw [cutFrame]
      · intro x
        rw [instances, inCut, List.mem_cons, not_or, and_assoc]
      · intro c elsewhere
        rw [netOf c (fun x inRest => elsewhere x (List.mem_cons_of_mem _ inRest))]
        exact cutNetOf c (elsewhere i List.mem_cons_self)

end destruction

end Naja.Netlist
