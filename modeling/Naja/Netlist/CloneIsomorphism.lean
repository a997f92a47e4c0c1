import Naja.Netlist.Runs

/-! The clone of a design is an isomorphic design of its own: the same IDs, names and
data under new addresses, connected in the same way, and nothing else is touched. -/

namespace Naja.Netlist
open Naja.Registry

/-- One component of the clone stands for a component. -/
theorem Counterpart.right_unique (w : World) (d new : Design) (sound : d.Sound w) (w' : World) (soundNew : new.Sound w')
    (c c₁ c₂ : Component) (first : Counterpart w d new c c₁) (second : Counterpart w d new c c₂) : c₁ = c₂ := by
  cases first with
  | bitTerm b =>
      generalize same : Component.bitTerm b = source at second
      cases second with
      | bitTerm b₂ =>
          obtain rfl := Component.bitTerm.inj same
          rfl
      | instTerm i i' slot slot' b₂ member member' copied filled filled' => contradiction
  | instTerm i i' slot slot' b member member' copied filled filled' =>
      generalize same : Component.instTerm i.object slot = source at second
      cases second with
      | bitTerm b₂ => contradiction
      | instTerm i₂ i₂' slot₂ slot₂' b₂ member₂ member₂' copied₂ filled₂ filled₂' =>
          obtain ⟨objects, slots⟩ := Component.instTerm.inj same
          obtain rfl := sound.instances.eq_of_object i i₂ member member₂ objects
          obtain rfl := slots
          have bits : b = b₂ := Option.some.inj (Option.some.inj (filled.symm.trans filled₂))
          obtain rfl := bits
          obtain rfl := soundNew.instances.eq_of_object i' i₂' member' member₂' (copied.trans copied₂.symm)
          obtain ⟨terms, -, table⟩ := soundNew.tables i' member'
          rw [table.distinct slot' slot₂' b filled' filled₂']

/-- `new` is a copy of `d` under new addresses, given by `copyAddress`. -/
structure Isomorphic (w : World) (d new : Design) : Prop where
  injective : ∀ a a', w.copyAddress a = w.copyAddress a' → a = a'
  terms : new.terms.set = d.terms.set.map (fun e => { e with object := w.copyAddress e.object })
  nets : new.nets.set = d.nets.set.map (fun e => { e with object := w.copyAddress e.object })
  instances : new.instances.set.map (fun e => (e.object, e.id, e.name, e.data.model, e.data.parameters)) =
    d.instances.set.map (fun e => (w.copyAddress e.object, e.id, e.name, e.data.model, e.data.parameters))
  parameters : new.parameters = d.parameters
  components : ∀ c, d.hasComponent c → ∃ c', new.hasComponent c' ∧ Counterpart w d new c c'
  netOf : ∀ c c' n, Counterpart w d new c c' → (d.links.netOf c = some n ↔ new.links.netOf c' = some (copyBit w n))
  members : ∀ c c' n, Counterpart w d new c c' →
    (c ∈ d.links.components n ↔ c' ∈ new.links.components (copyBit w n))
  linked : ∀ c' n', new.links.netOf c' = some n' → ∃ c n, Counterpart w d new c c' ∧ n' = copyBit w n

/-- What is new in `new` is in none of the designs of `w`, and its links stay inside. -/
structure Independent (w : World) (new : Design) : Prop where
  terms : ∀ x ∈ w.designs, ∀ e ∈ x.terms.set, ∀ e' ∈ new.terms.set, e.object ≠ e'.object
  nets : ∀ x ∈ w.designs, ∀ e ∈ x.nets.set, ∀ e' ∈ new.nets.set, e.object ≠ e'.object
  instances : ∀ x ∈ w.designs, ∀ e ∈ x.instances.set, ∀ e' ∈ new.instances.set, e.object ≠ e'.object
  inside : ∀ c' n', (new.links.netOf c' = some n' ∨ c' ∈ new.links.components n') →
    new.hasComponent c' ∧ new.hasBitNet n'

section clone
variable (w : World) (whole : w.Sound) (d : Design) (sound : d.Sound w) (dense : ModelsDense w d) (library : Nat)
  (name : String) (stands : Component → Component) (links : Links Component BitNet) (paired : links.Paired)
  (found : ∀ c, d.hasComponent c → w.cloneComponent d (w.unlinked d library name) c = some (stands c))
  (netOf : ∀ c' n', links.netOf c' = some n' ↔ ∃ c n, d.links.netOf c = some n ∧ c' = stands c ∧ n' = copyBit w n)
include whole sound dense found

/-- The links make no difference to who stands for whom. -/
theorem counterpart_stands (c : Component) (here : d.hasComponent c) :
    (w.cloned d library name links).hasComponent (stands c) ∧
      Counterpart w d (w.cloned d library name links) c (stands c) := by
  obtain ⟨c', there, present, relation⟩ := cloneComponent_spec w whole d sound library name links dense c here
  have same : w.cloneComponent d (w.cloned d library name links) c =
      w.cloneComponent d (w.unlinked d library name) c := by
    cases c with
    | bitTerm b => rfl
    | instTerm inst slot => rfl
  obtain rfl := Option.some.inj (((found c here).symm.trans same.symm).trans there)
  exact ⟨present, relation⟩

include paired netOf

theorem isomorphic_cloned (terms : ∀ e ∈ d.terms.set, e.data.removed = []) (nets : ∀ e ∈ d.nets.set, e.data.removed = []) :
    Isomorphic w d (w.cloned d library name links) := by
  have soundNew := sound_cloned w whole d sound dense library name stands links paired found netOf
  have stands_spec := counterpart_stands w whole d sound dense library name stands links found
  have pairs (c c' : Component) (n : BitNet) (relation : Counterpart w d (w.cloned d library name links) c c') :
      d.links.netOf c = some n ↔ links.netOf c' = some (copyBit w n) := by
    rw [netOf c' (copyBit w n)]
    constructor
    · intro attached
      obtain ⟨-, standing⟩ := stands_spec c (sound.attached c n attached).1
      exact ⟨c, n, attached, Counterpart.right_unique w d _ sound _ soundNew c c' _ relation standing, rfl⟩
    · intro image
      obtain ⟨c₂, n₂, attached, rfl, same⟩ := image
      obtain ⟨-, standing⟩ := stands_spec c₂ (sound.attached c₂ n₂ attached).1
      obtain rfl := Counterpart.left_unique w d sound _ soundNew.instances c c₂ _ relation standing
      rw [copyBit_injective w n n₂ same]
      exact attached
  refine ⟨copyAddress_injective w, ?_, ?_, ?_, rfl, ?_, pairs, ?_, ?_⟩
  · refine List.map_congr_left ?_
    intro e member
    have full : e.data = { e.data with removed := [] } := by
      rw [← terms e member]
    change { e with object := w.copyAddress e.object, data := _ } = _
    rw [← full]
  · refine List.map_congr_left ?_
    intro e member
    have full : e.data = { e.data with removed := [] } := by
      rw [← nets e member]
    change { e with object := w.copyAddress e.object, data := _ } = _
    rw [← full]
  · change (d.instances.set.map w.cloneInstance).map _ = _
    rw [List.map_map]
    rfl
  · intro c here
    exact ⟨stands c, stands_spec c here⟩
  · intro c c' n relation
    rw [sound.links.iff c n]
    exact (pairs c c' n relation).trans (paired.iff c' _).symm
  · intro c' n' attached'
    obtain ⟨c, n, attached, rfl, rfl⟩ := (netOf c' n').mp attached'
    exact ⟨c, n, (stands_spec c (sound.attached c n attached).1).2, rfl⟩

theorem independent_cloned : Independent w (w.cloned d library name links) := by
  have soundNew := sound_cloned w whole d sound dense library name stands links paired found netOf
  have apart (a a' : Address) (old : a < w.next) : a ≠ w.copyAddress a' :=
    Nat.ne_of_lt (Nat.lt_of_lt_of_le old (Nat.le_add_right _ _))
  have soundAt (x : Design) (member : x ∈ w.designs) : x.Sound w := by
    obtain ⟨j, there⟩ := List.getElem?_of_mem member
    exact whole j x there
  refine ⟨?_, ?_, ?_, ?_⟩
  · intro x member e inside e' inside'
    obtain ⟨e₀, -, rfl⟩ := List.mem_map.mp inside'
    exact apart _ _ ((soundAt x member).oldTerms e inside)
  · intro x member e inside e' inside'
    obtain ⟨e₀, -, rfl⟩ := List.mem_map.mp inside'
    exact apart _ _ ((soundAt x member).oldNets e inside)
  · intro x member e inside e' inside'
    obtain ⟨e₀, -, rfl⟩ := List.mem_map.mp inside'
    exact apart _ _ ((soundAt x member).oldInstances e inside)
  · intro c' n' either
    refine soundNew.attached c' n' ?_
    rcases either with attached | listed
    · exact attached
    · exact (paired.iff c' n').mp listed

end clone

/-- A design that is no primitive, has all bits of its buses and instantiates models with gapless flat
IDs has an isomorphic and independent clone, and a standard design a standard one. -/
theorem cloneToLibrary_isomorphic (w : World) (whole : w.Sound) (k library : Nat) (name : String) (d : Design)
    (found : w.designs[k]? = some d) (standard : d.isPrimitive = false)
    (notPrimitives : (w.libraries[library]?).any Library.isPrimitives = false)
    (free : name = "" ∨ w.getSNLDesign library name = none)
    (terms : ∀ e ∈ d.terms.set, e.data.removed = []) (nets : ∀ e ∈ d.nets.set, e.data.removed = [])
    (dense : ModelsDense w d) :
    ∃ w' new, w.cloneToLibrary k library name = .done w' ∧ w'.designs = w.designs ++ [new] ∧
      w'.libraries = w.libraries ∧ new.library = library ∧ new.name = name ∧
      (d.type = .Standard → new.type = d.type) ∧ Isomorphic w d new ∧ Independent w new ∧ w'.Sound := by
  have sound := whole k d found
  have available : ¬ (¬ name.isEmpty ∧ (w.getSNLDesign library name).isSome) := by
    intro taken
    rcases free with rfl | unused
    · exact taken.1 rfl
    · rw [unused] at taken
      exact Bool.false_ne_true taken.2
  have interface : w.cloneInterfaceToLibrary d library name =
      .ok ⟨library, name, .Standard, d.terms.copy w.cloneTerm, .empty, .empty, d.parameters, .none⟩ := by
    unfold World.cloneInterfaceToLibrary
    rw [if_neg (by rw [standard]; exact Bool.false_ne_true), if_neg (by rw [notPrimitives]; exact Bool.false_ne_true),
      if_neg available]
  have left (bit : Entry NetData × Int) (member : bit ∈ World.netBits d) : bit.2 ∈ bit.1.data.getBits := by
    obtain ⟨e, inside, inRange⟩ := List.mem_flatMap.mp member
    obtain ⟨b, there, rfl⟩ := List.mem_map.mp inRange
    refine List.mem_filter.mpr ⟨there, ?_⟩
    rw [nets e inside]
    exact decide_eq_true List.not_mem_nil
  obtain ⟨stands, links, ran, paired, standsFor, netOf⟩ := cloned_links w whole d sound library name dense left
  refine ⟨w.withDesign (w.cloned d library name links) (w.next + w.next), w.cloned d library name links, ?_, rfl, rfl,
    rfl, rfl, Eq.symm, ?_, ?_, ?_⟩
  · unfold World.cloneToLibrary
    rw [found]
    simp only
    rw [if_neg available, interface]
    simp only
    unfold World.unlinked World.cloned at ran
    rw [ran]
    rfl
  · exact isomorphic_cloned w whole d sound dense library name stands links paired standsFor netOf terms nets
  · exact independent_cloned w whole d sound dense library name stands links paired standsFor netOf
  · exact whole.withDesign w _ _ (Nat.le_add_left _ _)
      (sound_cloned w whole d sound dense library name stands links paired standsFor netOf)

/-- The design of the run can be cloned. -/
theorem connectedRun_clones : ∃ w w' d new, (World.start [⟨"work", false⟩]).run connectedRun = some w ∧
    w.designs[1]? = some d ∧ w.cloneToLibrary 1 0 "copy" = .done w' ∧ w'.designs = w.designs ++ [new] ∧
    Isomorphic w d new ∧ Independent w new := by
  obtain ⟨w, ran⟩ := connectedRun_admissible
  have whole := run_sound _ w (sound_start _) connectedRun ran
  have state := ran.run_eq
  have checked : ((World.start [⟨"work", false⟩]).run connectedRun).all (fun w =>
      (w.designs[1]?).any (fun d => d.isPrimitive == false && (w.libraries[0]?).any Library.isPrimitives == false &&
        (w.getSNLDesign 0 "copy").isNone && d.terms.set.all (fun e => e.data.removed.isEmpty) &&
        d.nets.set.all (fun e => e.data.removed.isEmpty) && decide (ModelsDense w d))) = true := by
    decide +kernel
  rw [state, Option.all_some, Option.any_eq_true] at checked
  obtain ⟨d, found, holds⟩ := checked
  simp only [Bool.and_eq_true, beq_iff_eq, Option.isNone_iff_eq_none, List.all_eq_true, List.isEmpty_iff,
    decide_eq_true_eq] at holds
  obtain ⟨⟨⟨⟨⟨standard, library⟩, free⟩, terms⟩, nets⟩, dense⟩ := holds
  obtain ⟨w', new, cloned, designs, -, -, -, -, isomorphic, independent, -⟩ :=
    cloneToLibrary_isomorphic w whole 1 0 "copy" d found standard library (Or.inr free) terms nets dense
  exact ⟨w, w', d, new, state, found, cloned, designs, isomorphic, independent⟩

theorem cloneToLibrary_primitive (w : World) (k library : Nat) (name : String) (d : Design)
    (found : w.designs[k]? = some d) (primitive : d.isPrimitive = true) (free : w.getSNLDesign library name = none) :
    w.cloneToLibrary k library name = .thrown .primitiveClone w := by
  have available : ¬ (¬ name.isEmpty ∧ (w.getSNLDesign library name).isSome) := by
    rw [free]
    exact fun taken => Bool.false_ne_true taken.2
  have refused : w.cloneInterfaceToLibrary d library name = .error .primitiveClone := if_pos primitive
  unfold World.cloneToLibrary
  rw [found]
  simp only
  rw [if_neg available, refused]

/-- The clone of a primitive is refused. -/
theorem primitive_not_cloned : ∃ w d,
    (World.start [⟨"primitives", true⟩, ⟨"work", false⟩]).run [.createDesign 0 .Primitive "cell"] = some w ∧
    w.designs[0]? = some d ∧ d.type = .Primitive ∧
    ∀ library name, w.getSNLDesign library name = none → w.cloneToLibrary 0 library name = .thrown .primitiveClone w := by
  refine ⟨_, _, rfl, rfl, rfl, ?_⟩
  intro library name free
  exact cloneToLibrary_primitive _ 0 library name _ rfl rfl free

end Naja.Netlist
