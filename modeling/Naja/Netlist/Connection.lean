import Naja.Netlist.Creation

/-! Connecting and disconnecting keeps the netlist sound, and so does the destruction
of nets and instances. -/

namespace Naja.Netlist
open Naja.Registry

section held
variable (w : World) (d : Design) (sound : d.Sound w)
include sound

theorem hasComponent_of_held (c : Component) (held : World.holdsComponent d c) : d.hasComponent c := by
  cases c with
  | bitTerm b =>
      obtain ⟨e, found, inside⟩ := (Option.any_eq_true _ _).mp held
      obtain ⟨member, object⟩ := (sound.terms.entry_iff _ e).mp found
      exact ⟨e, member, (mem_bitsOf e b).mpr ⟨object.symm, by simpa using inside⟩⟩
  | instTerm inst slot =>
      obtain ⟨e, found, filled⟩ := (Option.any_eq_true _ _).mp held
      obtain ⟨member, object⟩ := (sound.instances.entry_iff _ e).mp found
      obtain ⟨b, there⟩ := Option.isSome_iff_exists.mp filled
      exact ⟨e, member, object, b, Option.join_eq_some_iff.mp there⟩

theorem hasBitNet_of_held (n : BitNet) (held : World.holdsBitNet d n) : d.hasBitNet n := by
  obtain ⟨e, found, inside⟩ := (Option.any_eq_true _ _).mp held
  obtain ⟨member, object⟩ := (sound.nets.entry_iff _ e).mp found
  exact ⟨e, member, (mem_bitNetsOf e n).mpr ⟨object.symm, by simpa using inside⟩⟩

theorem hasBitNet_of_getNetBit (e : Entry NetData) (net : Address) (found : d.nets.entry net = some e) (bit : Int)
    (n : BitNet) (present : World.getNetBit e bit = some n) : d.hasBitNet n := by
  unfold World.getNetBit at present
  split at present
  · next inside =>
      obtain rfl := Option.some.inj present
      exact ⟨e, ((sound.nets.entry_iff net e).mp found).1, (mem_bitNetsOf e _).mpr ⟨rfl, inside⟩⟩
  · contradiction

theorem hasComponent_of_getTermBit (e : Entry TermData) (term : Address) (found : d.terms.entry term = some e)
    (bit : Int) (b : BitTerm) (present : World.getTermBit e bit = some b) : d.hasComponent (.bitTerm b) := by
  unfold World.getTermBit at present
  split at present
  · next inside =>
      obtain rfl := Option.some.inj present
      exact ⟨e, ((sound.terms.entry_iff term e).mp found).1, (mem_bitsOf e _).mpr ⟨rfl, inside⟩⟩
  · contradiction

end held

section connection
variable (w : World) (whole : w.Sound)
include whole

/-- New links in one design. -/
theorem World.Sound.relinked (k : Nat) (d d' : Design) (found : w.designs[k]? = some d)
    (frame : d' = { d with links := d'.links }) (sound : d'.Sound w) : (w.setDesign k d').Sound := by
  refine whole.setDesign w k d d' found ?_ sound
  intro b inside
  rw [frame]
  exact inside

theorem setComponentNet_sound (k : Nat) (c : Component) (net : Option World.NetArgument) :
    (w.setComponentNet k c net).Sound := by
  unfold World.setComponentNet
  split
  · trivial
  · next d found =>
      have sound := whole k d found
      split
      · trivial
      · next held =>
          have here := hasComponent_of_held w d sound c (not_not.mp held)
          split
          · exact whole.relinked w k d _ found rfl (sound.setNet w whole d c here none nofun)
          · split
            · exact whole
            · split
              · next n _ =>
                  split
                  · next there =>
                      refine whole.relinked w k d _ found rfl (sound.setNet w whole d c here (some n) ?_)
                      intro n' same
                      obtain rfl := Option.some.inj same
                      exact hasBitNet_of_held w d sound n there
                  · trivial
              · next net _ =>
                  split
                  · trivial
                  · next e foundNet =>
                      split
                      · exact whole
                      · refine whole.relinked w k d _ found rfl (sound.setNet w whole d c here _ ?_)
                        intro n present
                        exact hasBitNet_of_getNetBit w d sound e net foundNet _ n present

theorem setBusTermNet_sound (k : Nat) (term : Address) (net : Option World.NetArgument) :
    (w.setBusTermNet k term net).Sound := by
  unfold World.setBusTermNet
  split
  · trivial
  · next d found =>
      have sound := whole k d found
      split
      · trivial
      · next t foundTerm =>
          obtain ⟨member, -⟩ := (sound.terms.entry_iff term t).mp foundTerm
          split
          · refine whole.relinked w k d _ found (setNets_frame w d _) (sound.setNets w whole d _ ?_)
            intro pair inPairs
            obtain ⟨b, inBits, rfl⟩ := List.mem_map.mp inPairs
            exact ⟨⟨t, member, inBits⟩, nofun⟩
          · split
            · exact whole
            · split
              · next n _ =>
                  split
                  · exact whole
                  · split
                    · trivial
                    · next there =>
                        split
                        · trivial
                        · next b present =>
                            refine whole.relinked w k d _ found rfl (sound.setNet w whole d _
                              (hasComponent_of_getTermBit w d sound t term foundTerm _ b present) (some n) ?_)
                            intro n' same
                            obtain rfl := Option.some.inj same
                            exact hasBitNet_of_held w d sound n (not_not.mp there)
              · next net _ =>
                  split
                  · trivial
                  · next e foundNet =>
                      split
                      · exact whole
                      · refine whole.relinked w k d _ found (setNets_frame w d _) (sound.setNets w whole d _ ?_)
                        intro pair inPairs
                        obtain ⟨⟨bit, netBit⟩, -, made⟩ := List.mem_filterMap.mp inPairs
                        obtain ⟨b, present, rfl⟩ := Option.map_eq_some_iff.mp made
                        exact ⟨hasComponent_of_getTermBit w d sound t term foundTerm bit b present,
                          fun n there => hasBitNet_of_getNetBit w d sound e net foundNet netBit n there⟩

theorem setTermsNets_sound (k : Nat) (inst : Address) (d₀ d : Design) (found : w.designs[k]? = some d₀)
    (frame : d = { d₀ with links := d.links }) (sound : d.Sound w)
    (pairs : List (Option (Nat × BitTerm) × Option (Nat × BitNet))) : (w.setTermsNets k inst d pairs).Sound := by
  have relinked := whole.relinked w k d₀ d found frame sound
  induction pairs generalizing d with
  | nil => exact relinked
  | cons pair rest ih =>
      obtain ⟨term, net⟩ := pair
      cases term with
      | none => trivial
      | some argument =>
          obtain ⟨m, b⟩ := argument
          unfold World.setTermsNets
          split
          · trivial
          · next i foundInst =>
              split
              · exact relinked
              · split
                · exact relinked
                · split
                  · trivial
                  · next flatID at_ =>
                      split
                      · next there =>
                          obtain ⟨slot, -, filled⟩ := Option.bind_eq_some_iff.mp at_
                          obtain ⟨b', entry, same⟩ := Option.map_eq_some_iff.mp filled
                          change slot = flatID at same
                          rw [same] at entry
                          obtain ⟨member, object⟩ := (sound.instances.entry_iff inst i).mp foundInst
                          have here : d.hasComponent (.instTerm inst flatID) :=
                            ⟨i, member, object, b', Option.join_eq_some_iff.mp entry⟩
                          have next := sound.setNet w whole d _ here (net.map Prod.snd) (by
                            intro n same
                            obtain ⟨⟨k', n'⟩, rfl, rfl⟩ := Option.map_eq_some_iff.mp same
                            exact hasBitNet_of_held w d sound n' (by simpa using there))
                          have frame' : w.setNet d (.instTerm inst flatID) (net.map Prod.snd) =
                              { d₀ with links := (w.setNet d (.instTerm inst flatID) (net.map Prod.snd)).links } := by
                            unfold World.setNet
                            rw [frame]
                          exact ih _ frame' next (whole.relinked w k d₀ _ found frame' next)
                      · trivial

theorem setTermNet_sound (k : Nat) (inst : Address) (m : Nat) (term : Address) (termBits : List Int)
    (net : Option (Nat × Address)) (netBits : List Int) :
    (w.setTermNet k inst m term termBits net netBits).Sound := by
  unfold World.setTermNet
  split
  · next d t found _ =>
      have sound := whole k d found
      simp only
      split
      · split
        · exact whole
        · exact setTermsNets_sound w whole k inst d d found rfl sound _
      · split
        · trivial
        · split
          · exact whole
          · exact setTermsNets_sound w whole k inst d d found rfl sound _
  · trivial

theorem setWholeTermNet_sound (k : Nat) (inst : Address) (m : Nat) (term : Address) (k' : Nat) (net : Address) :
    (w.setWholeTermNet k inst m term k' net).Sound := by
  unfold World.setWholeTermNet
  split
  · split
    · exact whole
    · exact setTermNet_sound w whole k inst m term _ _ _
  · trivial

/-- A bit net loses all its components, and nothing else changes. -/
theorem disconnect_spec (d : Design) (sound : d.Sound w) (n : BitNet) :
    (w.disconnect d n).Sound w ∧ w.disconnect d n = { d with links := (w.disconnect d n).links } ∧
      ∀ c n', (w.disconnect d n).links.netOf c = some n' ↔ d.links.netOf c = some n' ∧ n' ≠ n := by
  refine ⟨?_, setNets_frame w d _, ?_⟩
  · refine sound.setNets w whole d _ ?_
    intro pair inPairs
    obtain ⟨c, inNet, rfl⟩ := List.mem_map.mp inPairs
    exact ⟨(sound.attached c n ((sound.links.iff c n).mp inNet)).1, nofun⟩
  · intro c n'
    unfold World.disconnect
    rw [netOf_setNets_none]
    split
    · next here =>
        refine iff_of_false nofun ?_
        intro found
        exact found.2 (Option.some.inj (found.1.symm.trans ((sound.links.iff c n).mp here)))
    · next elsewhere =>
        refine ⟨fun found => ⟨found, ?_⟩, And.left⟩
        intro hit
        exact elsewhere ((sound.links.iff c n).mpr (hit ▸ found))

omit whole in
theorem disconnectAll_frame (d : Design) (ns : List BitNet) :
    ns.foldl w.disconnect d = { d with links := (ns.foldl w.disconnect d).links } := by
  induction ns generalizing d with
  | nil => rfl
  | cons n rest ih =>
      rw [List.foldl_cons, ih (w.disconnect d n), World.disconnect, setNets_frame]

theorem disconnectAll_spec (d : Design) (sound : d.Sound w) (ns : List BitNet) :
    (ns.foldl w.disconnect d).Sound w ∧
      ∀ c n, (ns.foldl w.disconnect d).links.netOf c = some n → d.links.netOf c = some n ∧ n ∉ ns := by
  induction ns generalizing d with
  | nil => exact ⟨sound, fun c n found => ⟨found, List.not_mem_nil⟩⟩
  | cons n rest ih =>
      obtain ⟨first, -, links⟩ := disconnect_spec w whole d sound n
      obtain ⟨later, links'⟩ := ih (w.disconnect d n) first
      refine ⟨later, ?_⟩
      intro c n' found
      obtain ⟨before, outside⟩ := links' c n' found
      obtain ⟨origin, different⟩ := (links c n').mp before
      exact ⟨origin, by rw [List.mem_cons, not_or]; exact ⟨different, outside⟩⟩

/-- A design without one of its nets. -/
def World.withoutNet (w : World) (d : Design) (e : Entry NetData) : Design :=
  let cut := (bitNetsOf e).foldl w.disconnect d
  { cut with nets := cut.nets.remove e }

theorem Design.Sound.withoutNet (d : Design) (sound : d.Sound w) (e : Entry NetData) (member : e ∈ d.nets.set) :
    (w.withoutNet d e).Sound w := by
  obtain ⟨cut, links⟩ := disconnectAll_spec w whole d sound (bitNetsOf e)
  have frame := disconnectAll_frame w d (bitNetsOf e)
  have nets : ((bitNetsOf e).foldl w.disconnect d).nets = d.nets := by rw [frame]
  unfold World.withoutNet
  simp only
  rw [nets]
  refine cut.withNets w _ _ (Index.sound_remove sound.nets e member) ?_ ?_
  · intro x there
    exact sound.oldNets x ((Index.mem_remove sound.nets e member x).mp there).1
  · intro c n linked
    obtain ⟨before, outside⟩ := links c n linked
    obtain ⟨x, there, bit⟩ := (sound.attached c n before).2
    refine ⟨x, (Index.mem_remove sound.nets e member x).mpr ⟨there, ?_⟩, bit⟩
    intro hit
    exact outside (hit ▸ bit)

theorem destroyNet_sound (k : Nat) (net : Address) : (w.destroyNet k net).Sound := by
  unfold World.destroyNet
  split
  · trivial
  · next d found =>
      have sound := whole k d found
      split
      · trivial
      · next e foundNet =>
          obtain ⟨member, -⟩ := (sound.nets.entry_iff net e).mp foundNet
          have frame := disconnectAll_frame w d (bitNetsOf e)
          exact whole.setDesign w k d _ found (fun b inside => by rw [frame]; exact inside)
            (sound.withoutNet w whole d e member)

theorem destroyNetBit_sound (k : Nat) (n : BitNet) : (w.destroyNetBit k n).Sound := by
  unfold World.destroyNetBit
  split
  · trivial
  · next d found =>
      have sound := whole k d found
      split
      · trivial
      · obtain ⟨cut, frame, links⟩ := disconnect_spec w whole d sound n
        have nets : (w.disconnect d n).nets = d.nets := by rw [frame]
        refine whole.setDesign w k d _ found (fun b inside => by rw [frame]; exact inside) ?_
        rw [nets]
        have members := Index.mem_modify d.nets n.net (fun data => { data with removed := n.bit :: data.removed })
        refine cut.withNets w _ _ (Index.sound_modify d.nets n.net sound.nets _) ?_ ?_
        · intro x' member'
          obtain ⟨x, there, rfl⟩ := (members x').mp member'
          split <;> exact sound.oldNets x there
        · intro c n' linked
          obtain ⟨before, different⟩ := (links c n').mp linked
          obtain ⟨x, there, bit⟩ := (sound.attached c n' before).2
          refine ⟨_, (members _).mpr ⟨x, there, rfl⟩, ?_⟩
          obtain ⟨net, inside⟩ := (mem_bitNetsOf x n').mp bit
          split
          · next hit =>
              refine (mem_bitNetsOf _ n').mpr ⟨net, ?_⟩
              obtain ⟨inRange, kept⟩ := List.mem_filter.mp inside
              refine List.mem_filter.mpr ⟨inRange, ?_⟩
              have other : n'.bit ≠ n.bit := by
                intro same
                apply different
                obtain ⟨a, b⟩ := n
                obtain ⟨a', b'⟩ := n'
                simp only at net hit same
                rw [net, hit, same]
              simpa [other] using kept
          · exact bit

/-- The slots that have a terminal. -/
def filledSlots (i : Entry InstData) : List Nat :=
  (List.range i.data.table.length).filter (fun slot => (i.data.table[slot]?).join.isSome)

omit whole in
theorem mem_filledSlots (i : Entry InstData) (slot : Nat) :
    slot ∈ filledSlots i ↔ ∃ b, i.data.table[slot]? = some (some b) := by
  rw [filledSlots, List.mem_filter, List.mem_range, Option.isSome_iff_exists]
  constructor
  · intro both
    obtain ⟨b, entry⟩ := both.2
    exact ⟨b, Option.join_eq_some_iff.mp entry⟩
  · intro there
    obtain ⟨b, entry⟩ := there
    exact ⟨(List.getElem?_eq_some_iff.mp entry).1, b, Option.join_eq_some_iff.mpr entry⟩

def terminalsOf (i : Entry InstData) : List Component := (filledSlots i).map (Component.instTerm i.object)

/-- A design without one of its instances. -/
def World.withoutInstance (w : World) (d : Design) (i : Entry InstData) : Design :=
  let cut := w.setNets d ((terminalsOf i).map (fun c => (c, none)))
  { cut with instances := cut.instances.remove i }

theorem Design.Sound.withoutInstance (d : Design) (sound : d.Sound w) (i : Entry InstData) (member : i ∈ d.instances.set) :
    (w.withoutInstance d i).Sound w := by
  have cut := sound.setNets w whole d ((terminalsOf i).map (fun c => (c, none))) (by
    intro pair inPairs
    obtain ⟨c, inSlots, rfl⟩ := List.mem_map.mp inPairs
    obtain ⟨slot, there, rfl⟩ := List.mem_map.mp inSlots
    exact ⟨⟨i, member, rfl, (mem_filledSlots i slot).mp there⟩, nofun⟩)
  have frame := setNets_frame w d ((terminalsOf i).map (fun c => (c, none)))
  have instances : (w.setNets d ((terminalsOf i).map (fun c => (c, none)))).instances = d.instances := by rw [frame]
  unfold World.withoutInstance
  simp only
  rw [instances]
  refine cut.withInstances w _ _ (Index.sound_remove sound.instances i member) ?_ ?_ ?_
  · intro e there
    exact sound.oldInstances e ((Index.mem_remove sound.instances i member e).mp there).1
  · intro e there
    exact sound.tables e ((Index.mem_remove sound.instances i member e).mp there).1
  · intro inst' slot linked
    obtain ⟨n, there⟩ := Option.isSome_iff_exists.mp linked
    rw [netOf_setNets_none] at there
    split at there
    · contradiction
    · next outside =>
        obtain ⟨e, inOld, rfl, entry⟩ := (sound.attached _ n there).1
        refine ⟨e, (Index.mem_remove sound.instances i member e).mpr ⟨inOld, ?_⟩, rfl, entry⟩
        intro hit
        subst hit
        exact outside (List.mem_map.mpr ⟨slot, (mem_filledSlots e slot).mpr entry, rfl⟩)

theorem destroyInstance_sound (k : Nat) (inst : Address) : (w.destroyInstance k inst).Sound := by
  unfold World.destroyInstance
  split
  · trivial
  · next d found =>
      have sound := whole k d found
      split
      · trivial
      · next i foundInst =>
          obtain ⟨member, rfl⟩ := (sound.instances.entry_iff inst i).mp foundInst
          have pairs : (filledSlots i).map (fun slot => (Component.instTerm i.object slot, (none : Option BitNet))) =
              (terminalsOf i).map (fun c => (c, none)) := by
            rw [terminalsOf, List.map_map]
            rfl
          change World.Sound (w.setDesign k { w.setNets d
            ((filledSlots i).map (fun slot => (Component.instTerm i.object slot, (none : Option BitNet)))) with
              instances := (w.setNets d ((filledSlots i).map (fun slot =>
                (Component.instTerm i.object slot, (none : Option BitNet))))).instances.remove i })
          rw [pairs]
          have frame := setNets_frame w d ((terminalsOf i).map (fun c => (c, none)))
          exact whole.setDesign w k d _ found (fun b inside => by simp only; rw [frame]; exact inside)
            (sound.withoutInstance w whole d i member)

end connection

end Naja.Netlist
