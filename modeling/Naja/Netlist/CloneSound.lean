import Naja.Netlist.Clone

/-! What a clone looks like: the copy of every term, net and instance stands under
the ID and the name of the original, and a component of the clone is on a net exactly
when the one it stands for is. -/

namespace Naja.Netlist
open Naja.Registry

/-- The clone of a design with given links. -/
def World.cloned (w : World) (d : Design) (library : Nat) (name : String) (links : Links Component BitNet) : Design :=
  ⟨library, name, .Standard, d.terms.copy w.cloneTerm, d.nets.copy w.cloneNet, d.instances.copy w.cloneInstance,
    d.parameters, links⟩

/-- An interface has no nets and no instances. -/
theorem cloneInterfaceToLibrary_ok (w : World) (d : Design) (library : Nat) (name : String) (interface : Design)
    (made : w.cloneInterfaceToLibrary d library name = .ok interface) :
    interface = ⟨library, name, .Standard, d.terms.copy w.cloneTerm, .empty, .empty, d.parameters, .none⟩ := by
  unfold World.cloneInterfaceToLibrary at made
  split at made
  · contradiction
  · split at made
    · contradiction
    · split at made
      · contradiction
      · exact (Except.ok.inj made).symm

/-- The components that stand for each other: a terminal of the clone has the bit of its original. -/
inductive Counterpart (w : World) (d new : Design) : Component → Component → Prop
  | bitTerm (b : BitTerm) : Counterpart w d new (.bitTerm b) (.bitTerm ⟨w.copyAddress b.term, b.bit⟩)
  | instTerm (i i' : Entry InstData) (slot slot' : Nat) (b : BitTerm) (member : i ∈ d.instances.set)
      (member' : i' ∈ new.instances.set) (copied : i'.object = w.copyAddress i.object)
      (filled : i.data.table[slot]? = some (some b)) (filled' : i'.data.table[slot']? = some (some b)) :
      Counterpart w d new (.instTerm i.object slot) (.instTerm i'.object slot')

def copyBit (w : World) (n : BitNet) : BitNet := ⟨w.copyAddress n.net, n.bit⟩

theorem copyAddress_injective (w : World) (a b : Address) (same : w.copyAddress a = w.copyAddress b) : a = b :=
  Nat.add_left_cancel same

theorem copyBit_injective (w : World) (n n' : BitNet) (same : copyBit w n = copyBit w n') : n = n' := by
  obtain ⟨net, bit⟩ := n
  obtain ⟨net', bit'⟩ := n'
  obtain ⟨nets, bits⟩ := BitNet.mk.inj same
  rw [copyAddress_injective w net net' nets, show bit = bit' from bits]

section cloned
variable (w : World) (whole : w.Sound) (d : Design) (sound : d.Sound w) (library : Nat) (name : String)
  (links : Links Component BitNet)

include sound in
theorem sound_clonedTerms : (d.terms.copy w.cloneTerm).Sound :=
  Index.sound_copy d.terms sound.terms w.cloneTerm (fun _ => rfl) (fun _ => rfl)
    (fun x _ y _ same => copyAddress_injective w x.object y.object same)

include sound in
theorem sound_clonedNets : (d.nets.copy w.cloneNet).Sound :=
  Index.sound_copy d.nets sound.nets w.cloneNet (fun _ => rfl) (fun _ => rfl)
    (fun x _ y _ same => copyAddress_injective w x.object y.object same)

include sound in
theorem sound_clonedInstances : (d.instances.copy w.cloneInstance).Sound :=
  Index.sound_copy d.instances sound.instances w.cloneInstance (fun _ => rfl) (fun _ => rfl)
    (fun x _ y _ same => copyAddress_injective w x.object y.object same)

include sound

/-- A bit of a term is found again in the clone. -/
theorem cloneComponent_bitTerm (b : BitTerm) (here : d.hasComponent (.bitTerm b)) :
    w.cloneComponent d (w.cloned d library name links) (.bitTerm b) =
        some (.bitTerm ⟨w.copyAddress b.term, b.bit⟩) ∧
      (w.cloned d library name links).hasComponent (.bitTerm ⟨w.copyAddress b.term, b.bit⟩) := by
  obtain ⟨e, member, bit⟩ := here
  obtain ⟨term, inside⟩ := (mem_bitsOf e b).mp bit
  have copied : w.cloneTerm e ∈ (d.terms.copy w.cloneTerm).set := List.mem_map.mpr ⟨e, member, rfl⟩
  have range : b.bit ∈ (w.cloneTerm e).data.getBits := by
    refine List.mem_filter.mpr ⟨(List.mem_filter.mp inside).1, ?_⟩
    exact decide_eq_true List.not_mem_nil
  have found : (w.cloned d library name links).terms.getByID e.id = some (w.cloneTerm e) :=
    ((sound_clonedTerms w d sound).getByID_iff e.id _).mpr ⟨copied, rfl⟩
  refine ⟨?_, w.cloneTerm e, copied, (mem_bitsOf _ _).mpr ⟨congrArg w.copyAddress term, range⟩⟩
  have entry : d.terms.entry b.term = some e := (sound.terms.entry_iff b.term e).mpr ⟨member, term.symm⟩
  have bitFound : World.getTermBit (w.cloneTerm e) b.bit = some ⟨(w.cloneTerm e).object, b.bit⟩ := if_pos range
  simp only [World.cloneComponent, bind, Option.bind, entry, found, bitFound, pure]
  rw [show (w.cloneTerm e).object = w.copyAddress b.term from congrArg w.copyAddress term.symm]

include whole

/-- A terminal is found again when the flat IDs of its model are dense. -/
theorem cloneComponent_instTerm (dense : ModelsDense w d) (i : Entry InstData) (member : i ∈ d.instances.set)
    (slot : Nat) (b : BitTerm) (filled : i.data.table[slot]? = some (some b)) :
    ∃ flatID, w.cloneComponent d (w.cloned d library name links) (.instTerm i.object slot) =
        some (.instTerm (w.copyAddress i.object) flatID) ∧
      w.cloneInstance i ∈ (w.cloned d library name links).instances.set ∧
      (w.cloneInstance i).data.table[flatID]? = some (some b) := by
  obtain ⟨terms, ofModel, table⟩ := sound.tables i member
  obtain ⟨m, model, rfl⟩ := Option.map_eq_some_iff.mp ofModel
  obtain ⟨flatID, flat, place⟩ := dense i member m model b (List.mem_flatMap.mpr (table.bits slot b filled))
  have copied : w.cloneInstance i ∈ (d.instances.copy w.cloneInstance).set := List.mem_map.mpr ⟨i, member, rfl⟩
  have newTable : (w.cloneInstance i).data.table = m.getBitTerms.map some := by
    unfold World.cloneInstance
    rw [model]
    rfl
  have filled' : (w.cloneInstance i).data.table[flatID]? = some (some b) := by
    rw [newTable, List.getElem?_map, place]
    rfl
  have found : (w.cloned d library name links).instances.getByID i.id = some (w.cloneInstance i) :=
    ((sound_clonedInstances w d sound).getByID_iff i.id _).mpr ⟨copied, rfl⟩
  have entry : d.instances.entry i.object = some i := (sound.instances.entry_iff _ i).mpr ⟨member, rfl⟩
  refine ⟨flatID, ?_, copied, filled'⟩
  simp only [World.cloneComponent, bind, Option.bind, entry, filled, Option.join_some, found, pure]
  rw [show w.designs[(w.cloneInstance i).data.model]? = some m from model]
  simp only [flat, filled', Option.join_some]
  rfl

/-- Every component has one that stands for it in the clone. -/
theorem cloneComponent_spec (dense : ModelsDense w d) (c : Component) (here : d.hasComponent c) :
    ∃ c', w.cloneComponent d (w.cloned d library name links) c = some c' ∧
      (w.cloned d library name links).hasComponent c' ∧ Counterpart w d (w.cloned d library name links) c c' := by
  cases c with
  | bitTerm b =>
      obtain ⟨found, present⟩ := cloneComponent_bitTerm w d sound library name links b here
      exact ⟨_, found, present, .bitTerm b⟩
  | instTerm inst slot =>
      obtain ⟨i, member, rfl, b, filled⟩ := here
      obtain ⟨flatID, found, copied, filled'⟩ :=
        cloneComponent_instTerm w whole d sound library name links dense i member slot b filled
      exact ⟨_, found, ⟨_, copied, rfl, b, filled'⟩, .instTerm i _ slot flatID b member copied rfl filled filled'⟩

omit whole sound in
/-- Two components that one component of the clone stands for are the same. -/
theorem Counterpart.left_unique (sound : d.Sound w) (new : Design) (soundNew : new.instances.Sound)
    (c₁ c₂ c' : Component) (first : Counterpart w d new c₁ c') (second : Counterpart w d new c₂ c') : c₁ = c₂ := by
  cases first with
  | bitTerm b₁ =>
      generalize same : Component.bitTerm ⟨w.copyAddress b₁.term, b₁.bit⟩ = target at second
      cases second with
      | bitTerm b₂ =>
          obtain ⟨t₁, bit₁⟩ := b₁
          obtain ⟨t₂, bit₂⟩ := b₂
          simp only [Component.bitTerm.injEq, BitTerm.mk.injEq] at same
          rw [copyAddress_injective w t₁ t₂ same.1, same.2]
      | instTerm i i' slot slot' b member member' copied filled filled' => contradiction
  | instTerm i i' slot slot' b member member' copied filled filled' =>
      generalize same : Component.instTerm i'.object slot' = target at second
      cases second with
      | bitTerm b₂ => contradiction
      | instTerm i₂ i₂' slot₂ slot₂' b₂ member₂ member₂' copied₂ filled₂ filled₂' =>
          obtain ⟨objects, slots⟩ := Component.instTerm.inj same
          have newSame := soundNew.eq_of_object i' i₂' member' member₂' objects
          subst newSame
          subst slots
          have oldSame : i = i₂ := by
            refine sound.instances.eq_of_object i i₂ member member₂ ?_
            exact copyAddress_injective w _ _ (copied.symm.trans copied₂)
          subst oldSame
          have bits : b = b₂ := Option.some.inj (Option.some.inj (filled'.symm.trans filled₂'))
          subst bits
          obtain ⟨terms, -, table⟩ := sound.tables i member
          rw [table.distinct slot slot₂ b filled filled₂]

end cloned

section links
variable (w : World) (d : Design)

theorem mapM_some {α β : Type} (f : α → Option β) (g : α → β) (xs : List α) (found : ∀ x ∈ xs, f x = some (g x)) :
    xs.mapM f = some (xs.map g) := by
  induction xs with
  | nil => rfl
  | cons x rest ih =>
      rw [List.mapM_cons, found x List.mem_cons_self, ih (fun y member => found y (List.mem_cons_of_mem _ member))]
      rfl

/-- The links after some bits were cloned, with `stands` for the component that stands for another one. -/
structure Cloned (stands : Component → Component) (bits : List BitNet) (links : Links Component BitNet) : Prop where
  paired : links.Paired
  netOf : ∀ c' n', links.netOf c' = some n' ↔
    ∃ c n, n ∈ bits ∧ d.links.netOf c = some n ∧ c' = stands c ∧ n' = copyBit w n

/-- The bits that are to be cloned. -/
def bitNet (bit : Entry NetData × Int) : BitNet := ⟨bit.1.object, bit.2⟩

variable (new : Design) (stands : Component → Component) (paired : d.links.Paired)
  (found : ∀ c n, d.links.netOf c = some n → w.cloneComponent d new c = some (stands c))
  (injective : ∀ c₁ c₂ n₁ n₂, d.links.netOf c₁ = some n₁ → d.links.netOf c₂ = some n₂ → stands c₁ = stands c₂ → c₁ = c₂)
include paired found injective

/-- One bit more. -/
theorem cloned_cloneBit (bits : List BitNet) (links : Links Component BitNet) (sofar : Cloned w d stands bits links)
    (bit : Entry NetData × Int) (left : bit.2 ∈ bit.1.data.getBits) (fresh : bitNet bit ∉ bits) :
    ∃ links', w.cloneBit d new links bit = some links' ∧ Cloned w d stands (bits ++ [bitNet bit]) links' := by
  have members (c : Component) : c ∈ d.links.components (bitNet bit) ↔ d.links.netOf c = some (bitNet bit) :=
    paired.iff c (bitNet bit)
  have components : (d.links.components (bitNet bit)).mapM (w.cloneComponent d new) =
      some ((d.links.components (bitNet bit)).map stands) :=
    mapM_some _ stands _ (fun c member => found c _ ((members c).mp member))
  have mem_map (c' : Component) : c' ∈ (d.links.components (bitNet bit)).map stands ↔
      ∃ c, d.links.netOf c = some (bitNet bit) ∧ c' = stands c := by
    rw [List.mem_map]
    refine exists_congr ?_
    intro c
    rw [members c, eq_comm (a := c')]
  -- a component that is already linked stands for one of an earlier bit
  have notYet (c' : Component) (member : c' ∈ (d.links.components (bitNet bit)).map stands) :
      links.netOf c' = none := by
    obtain ⟨c, attached, rfl⟩ := (mem_map c').mp member
    cases already : links.netOf (stands c) with
    | none => rfl
    | some n' =>
        obtain ⟨c₂, n, early, attached₂, same, -⟩ := (sofar.netOf _ n').mp already
        obtain rfl := injective c c₂ _ _ attached attached₂ same
        rw [attached] at attached₂
        exact absurd (Option.some.inj attached₂ ▸ early) fresh
  have newBit (c' : Component) : links.netOf c' ≠ some (copyBit w (bitNet bit)) := by
    intro already
    obtain ⟨c, n, early, -, -, same⟩ := (sofar.netOf c' _).mp already
    exact fresh (copyBit_injective w _ _ same ▸ early)
  let netOf' (c : Component) : Option BitNet :=
    if c ∈ (d.links.components (bitNet bit)).map stands then some (copyBit w (bitNet bit)) else links.netOf c
  let components' (n : BitNet) : List Component :=
    if n = copyBit w (bitNet bit) then (d.links.components (bitNet bit)).map stands else links.components n
  refine ⟨⟨netOf', components'⟩, ?_, ?_⟩
  · unfold World.cloneBit
    rw [if_neg (not_not.mpr left)]
    change ((d.links.components (bitNet bit)).mapM (w.cloneComponent d new)).bind _ = _
    rw [components]
    rfl
  · have netOf (c' : Component) (n' : BitNet) :
        (if c' ∈ (d.links.components (bitNet bit)).map stands then some (copyBit w (bitNet bit)) else links.netOf c') =
            some n' ↔
          ∃ c n, n ∈ bits ++ [bitNet bit] ∧ d.links.netOf c = some n ∧ c' = stands c ∧ n' = copyBit w n := by
      split
      · next hit =>
          constructor
          · intro same
            obtain ⟨c, attached, rfl⟩ := (mem_map c').mp hit
            exact ⟨c, bitNet bit, by simp, attached, rfl, (Option.some.inj same).symm⟩
          · intro other
            obtain ⟨c, n, member, attached, rfl, rfl⟩ := other
            rcases List.mem_append.mp member with early | now
            · have already := (sofar.netOf (stands c) _).mpr ⟨c, n, early, attached, rfl, rfl⟩
              rw [notYet _ hit] at already
              contradiction
            · rw [List.mem_singleton.mp now]
      · next miss =>
          rw [sofar.netOf c' n']
          constructor
          · intro other
            obtain ⟨c, n, member, rest⟩ := other
            exact ⟨c, n, List.mem_append_left _ member, rest⟩
          · intro other
            obtain ⟨c, n, member, attached, rfl, rfl⟩ := other
            rcases List.mem_append.mp member with early | now
            · exact ⟨c, n, early, attached, rfl, rfl⟩
            · rw [List.mem_singleton.mp now] at attached
              exact absurd ((mem_map _).mpr ⟨c, attached, rfl⟩) miss
    refine ⟨⟨?_, ?_⟩, netOf⟩
    · intro c' n'
      change c' ∈ (if n' = copyBit w (bitNet bit) then _ else links.components n') ↔
        (if c' ∈ (d.links.components (bitNet bit)).map stands then _ else links.netOf c') = some n'
      by_cases here : n' = copyBit w (bitNet bit)
      · rw [if_pos here, here]
        by_cases hit : c' ∈ (d.links.components (bitNet bit)).map stands
        · simp only [hit, if_true]
        · simp only [hit, if_false, newBit c']
      · rw [if_neg here, sofar.paired.iff c' n']
        by_cases hit : c' ∈ (d.links.components (bitNet bit)).map stands
        · simp only [hit, if_true, notYet c' hit, Option.some.injEq]
          exact ⟨fun impossible => by contradiction, fun same => absurd same.symm here⟩
        · rw [if_neg hit]
    · intro n'
      change (if n' = copyBit w (bitNet bit) then _ else links.components n').Nodup
      split
      · refine List.Nodup.map_on ?_ (paired.nodup (bitNet bit))
        intro c₁ member₁ c₂ member₂ same
        exact injective c₁ c₂ _ _ ((members c₁).mp member₁) ((members c₂).mp member₂) same
      · exact sofar.paired.nodup n'

/-- All bits in a row. -/
theorem cloned_foldlM (queue : List (Entry NetData × Int)) (bits : List BitNet) (links : Links Component BitNet)
    (sofar : Cloned w d stands bits links) (left : ∀ bit ∈ queue, bit.2 ∈ bit.1.data.getBits)
    (fresh : (bits ++ queue.map bitNet).Nodup) :
    ∃ links', queue.foldlM (w.cloneBit d new) links = some links' ∧
      Cloned w d stands (bits ++ queue.map bitNet) links' := by
  induction queue generalizing bits links with
  | nil => exact ⟨links, rfl, by rwa [List.map_nil, List.append_nil]⟩
  | cons bit rest ih =>
      have shift : bits ++ (bit :: rest).map bitNet = (bits ++ [bitNet bit]) ++ rest.map bitNet := by simp
      have unseen : bitNet bit ∉ bits := by
        intro seen
        exact (List.nodup_append.mp fresh).2.2 _ seen _ (List.mem_cons_self) rfl
      obtain ⟨links₁, step, next⟩ :=
        cloned_cloneBit w d new stands paired found injective bits links sofar bit (left bit List.mem_cons_self) unseen
      rw [shift] at fresh ⊢
      obtain ⟨links', run, final⟩ :=
        ih (bits ++ [bitNet bit]) links₁ next (fun x member => left x (List.mem_cons_of_mem _ member)) fresh
      refine ⟨links', ?_, final⟩
      rw [List.foldlM_cons, step]
      exact run

end links

section design
variable (w : World) (whole : w.Sound) (d : Design) (sound : d.Sound w) (library : Nat) (name : String)

/-- The clone before its nets are connected. -/
def World.unlinked (w : World) (d : Design) (library : Nat) (name : String) : Design := w.cloned d library name .none

theorem netBits_of_mem (e : Entry NetData) (member : e ∈ d.nets.set) (bit : Int) (inside : bit ∈ rangeBits e.data.range) :
    (e, bit) ∈ World.netBits d :=
  List.mem_flatMap.mpr ⟨e, member, List.mem_map.mpr ⟨bit, inside, rfl⟩⟩

/-- A clone that comes to its end has met no destroyed bit. -/
theorem left_of_foldlM (new : Design) (queue : List (Entry NetData × Int)) (links links' : Links Component BitNet)
    (ran : queue.foldlM (w.cloneBit d new) links = some links') : ∀ bit ∈ queue, bit.2 ∈ bit.1.data.getBits := by
  induction queue generalizing links with
  | nil => simp
  | cons bit rest ih =>
      rw [List.foldlM_cons] at ran
      obtain ⟨links₁, step, later⟩ := Option.bind_eq_some_iff.mp ran
      intro x member
      rcases List.mem_cons.mp member with rfl | inside
      · by_contra gone
        unfold World.cloneBit at step
        rw [if_pos gone] at step
        contradiction
      · exact ih links₁ later x inside

include sound

theorem netBits_nodup : ((World.netBits d).map bitNet).Nodup := by
  unfold World.netBits
  rw [List.map_flatMap, List.nodup_flatMap]
  constructor
  · intro e _
    rw [List.map_map]
    refine (rangeBits_nodup e.data.range).map ?_
    intro bit bit' same
    exact (BitNet.mk.inj same).2
  · refine (List.pairwise_map.mp sound.nets.objects).imp ?_
    intro e e' different n inE inE'
    obtain ⟨pair, inPairs, rfl⟩ := List.mem_map.mp inE
    obtain ⟨bit, -, rfl⟩ := List.mem_map.mp inPairs
    obtain ⟨pair', inPairs', same⟩ := List.mem_map.mp inE'
    obtain ⟨bit', -, rfl⟩ := List.mem_map.mp inPairs'
    exact different (BitNet.mk.inj same).1.symm

include whole

/-- The clone of a design whose net bits are all there is connected as the design is. -/
theorem cloned_links (dense : ModelsDense w d) (left : ∀ bit ∈ World.netBits d, bit.2 ∈ bit.1.data.getBits) :
    ∃ (stands : Component → Component) (links : Links Component BitNet),
      (World.netBits d).foldlM (w.cloneBit d (w.unlinked d library name)) .none = some links ∧
      links.Paired ∧
      (∀ c, d.hasComponent c → w.cloneComponent d (w.unlinked d library name) c = some (stands c)) ∧
      ∀ c' n', links.netOf c' = some n' ↔ ∃ c n, d.links.netOf c = some n ∧ c' = stands c ∧ n' = copyBit w n := by
  let new := w.unlinked d library name
  let stands (c : Component) : Component := (w.cloneComponent d new c).getD c
  have found (c : Component) (here : d.hasComponent c) : w.cloneComponent d new c = some (stands c) := by
    obtain ⟨c', there, -, -⟩ := cloneComponent_spec w whole d sound library name .none dense c here
    exact there.trans (congrArg some (by simp only [stands, new, World.unlinked, there, Option.getD_some]))
  have counterpart (c : Component) (here : d.hasComponent c) : Counterpart w d new c (stands c) := by
    obtain ⟨c', there, -, relation⟩ := cloneComponent_spec w whole d sound library name .none dense c here
    exact (Option.some.inj ((found c here).symm.trans there)) ▸ relation
  have start : Cloned w d stands [] (.none : Links Component BitNet) :=
    ⟨Links.paired_none, by simp [Links.none]⟩
  obtain ⟨links, ran, final⟩ := cloned_foldlM w d new stands sound.links
    (fun c n attached => found c (sound.attached c n attached).1)
    (fun c₁ c₂ n₁ n₂ attached₁ attached₂ same =>
      Counterpart.left_unique w d sound new (sound_clonedInstances w d sound) c₁ c₂ (stands c₁)
        (counterpart c₁ (sound.attached c₁ n₁ attached₁).1)
        (same ▸ counterpart c₂ (sound.attached c₂ n₂ attached₂).1))
    (World.netBits d) [] .none start left (by simpa using netBits_nodup w d sound)
  refine ⟨stands, links, ran, final.paired, found, ?_⟩
  intro c' n'
  rw [final.netOf c' n', List.nil_append]
  constructor
  · intro linked
    obtain ⟨c, n, -, rest⟩ := linked
    exact ⟨c, n, rest⟩
  · intro linked
    obtain ⟨c, n, attached, rest⟩ := linked
    refine ⟨c, n, ?_, attached, rest⟩
    obtain ⟨e, member, inside⟩ := (sound.attached c n attached).2
    obtain ⟨object, bit⟩ := (mem_bitNetsOf e n).mp inside
    refine List.mem_map.mpr ⟨(e, n.bit), netBits_of_mem d e member n.bit (List.mem_filter.mp bit).1, ?_⟩
    exact congrArg (fun net => (⟨net, n.bit⟩ : BitNet)) object.symm

end design

section world
variable (w : World) (whole : w.Sound)

include whole

/-- The clone is sound when its links are those of the design. -/
theorem sound_cloned (d : Design) (sound : d.Sound w) (dense : ModelsDense w d) (library : Nat) (name : String)
    (stands : Component → Component) (links : Links Component BitNet) (paired : links.Paired)
    (found : ∀ c, d.hasComponent c → w.cloneComponent d (w.unlinked d library name) c = some (stands c))
    (netOf : ∀ c' n', links.netOf c' = some n' ↔ ∃ c n, d.links.netOf c = some n ∧ c' = stands c ∧ n' = copyBit w n) :
    (w.cloned d library name links).Sound (w.withDesign (w.cloned d library name links) (w.next + w.next)) := by
  have fresh (a : Address) (old : a < w.next) : w.copyAddress a < w.next + w.next := Nat.add_lt_add_left old _
  refine ⟨sound_clonedTerms w d sound, sound_clonedNets w d sound, sound_clonedInstances w d sound, ?_, ?_, ?_,
    sound.parameters, paired, ?_, ?_⟩
  · intro e member
    obtain ⟨e₀, member₀, rfl⟩ := List.mem_map.mp member
    exact fresh _ (sound.oldTerms e₀ member₀)
  · intro e member
    obtain ⟨e₀, member₀, rfl⟩ := List.mem_map.mp member
    exact fresh _ (sound.oldNets e₀ member₀)
  · intro e member
    obtain ⟨e₀, member₀, rfl⟩ := List.mem_map.mp member
    exact fresh _ (sound.oldInstances e₀ member₀)
  · intro c' n' linked
    obtain ⟨c, n, attached, rfl, rfl⟩ := (netOf c' n').mp linked
    obtain ⟨here, e, member, inside⟩ := sound.attached c n attached
    obtain ⟨c', there, present, -⟩ := cloneComponent_spec w whole d sound library name .none dense c here
    obtain rfl := Option.some.inj ((found c here).symm.trans there)
    refine ⟨?_, w.cloneNet e, List.mem_map.mpr ⟨e, member, rfl⟩, ?_⟩
    · cases standing : stands c with
      | bitTerm b => exact (standing ▸ present : (w.cloned d library name .none).hasComponent (.bitTerm b))
      | instTerm inst slot =>
          exact (standing ▸ present : (w.cloned d library name .none).hasComponent (.instTerm inst slot))
    · obtain ⟨object, bit⟩ := (mem_bitNetsOf e n).mp inside
      refine (mem_bitNetsOf _ _).mpr ⟨congrArg w.copyAddress object, List.mem_filter.mpr ?_⟩
      exact ⟨(List.mem_filter.mp bit).1, decide_eq_true List.not_mem_nil⟩
  · intro e member
    obtain ⟨i, member₀, rfl⟩ := List.mem_map.mp member
    obtain ⟨terms, ofModel, -⟩ := sound.tables i member₀
    obtain ⟨m, model, rfl⟩ := Option.map_eq_some_iff.mp ofModel
    have newTable : (w.cloneInstance i).data.table = m.getBitTerms.map some := by
      unfold World.cloneInstance
      rw [model]
      rfl
    obtain ⟨t', model', bits⟩ := keeps_withDesign w (w.cloned d library name links) (w.next + w.next) _ m.terms ofModel
    refine ⟨t', model', ?_⟩
    rw [newTable]
    exact (tableSound_dense m (whole _ m model).terms).mono _ _ _ bits

theorem cloneToLibrary_sound (k library : Nat) (name : String)
    (dense : ∀ d, w.designs[k]? = some d → ModelsDense w d) : (w.cloneToLibrary k library name).Sound := by
  unfold World.cloneToLibrary
  split
  · trivial
  · next d found =>
      split
      · exact whole
      · split
        · exact whole
        · next interface made =>
            have sound := whole k d found
            have shape := cloneInterfaceToLibrary_ok w d library name interface made
            subst shape
            simp only
            split
            · trivial
            · next links ran =>
                obtain ⟨stands, links', ran', paired, standsFor, netOf⟩ := cloned_links w whole d sound library name
                  (dense d found) (left_of_foldlM w d _ _ _ _ ran)
                obtain rfl : links' = links := Option.some.inj (ran'.symm.trans ran)
                exact whole.withDesign w _ (w.next + w.next) (Nat.le_add_left _ _) (sound_cloned w whole d sound (dense d found) library name stands links' paired
                  standsFor netOf)

end world

end Naja.Netlist
