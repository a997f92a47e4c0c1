import Naja.Dnl.Isos

/-! The terminals of the view are the pins of the flattened netlist, and the nets of a
terminal in the view are those its pin stands on. -/

namespace Naja.Dnl

/-- The pin of a terminal. -/
def pinOf (dnl : DNL) (fid : Nat) : Pin :=
  match dnl.terms[fid]? with
  | some terminal => ⟨dnl.path terminal.owner, terminal.bitTerm⟩
  | none => ⟨[], 0⟩

def flatOf (dnl : DNL) (entry : Nat × Nat) : FlatNet := ⟨dnl.path entry.1, entry.2⟩

/-- The terminal `fid` is the one of the instance `id` for a bit terminal of its model. -/
structure Site (dnl : DNL) (fid id design bitTerm : Nat) (node : Node) : Prop where
  here : dnl.instances[id]? = some node
  model : node.model dnl.toHierarchy = some design
  inside : bitTerm < (dnl.design design).bitTerms
  terminal : dnl.terms[fid]? = some ⟨id, node.object.map (fun object => ⟨object, bitTerm⟩), bitTerm, fid⟩
  place : ∃ first, node.terms = rangeOf first (dnl.design design).bitTerms ∧
    fid = first + dnl.orders.ofBitTerm design bitTerm

section Sites
variable {dnl : DNL}

namespace Site
variable {fid id design bitTerm : Nat} {node : Node} (site : Site dnl fid id design bitTerm node)
include site

theorem pin : pinOf dnl fid = ⟨dnl.path id, bitTerm⟩ := by
  unfold pinOf
  rw [site.terminal]

theorem modelOf : modelOf dnl id = some design := by
  unfold Dnl.modelOf
  rw [site.here, Option.bind_some, site.model]

theorem bitTermNet : bitTermNet dnl fid = ((dnl.wiring design).netOfBitTerm bitTerm).map fun net => (id, net) := by
  unfold Dnl.bitTermNet
  rw [site.terminal, Option.bind_some, site.modelOf, Option.bind_some]

theorem outerNet : outerNet dnl fid = node.object.bind fun object => node.parent.bind fun parent =>
    ((dnl.wiring object.design).netOfInstTerm (object.position, bitTerm)).map fun net => (parent, net) := by
  unfold Dnl.outerNet
  rw [site.terminal, Option.bind_some, site.here]
  cases node.object with
  | none => rfl
  | some object => rfl

theorem role : role dnl fid =
    if id = 0 then if (dnl.wiring design).direction bitTerm = .Output then .reader else .driver
    else if (dnl.design design).instances.isEmpty then
      if (dnl.wiring design).direction bitTerm = .Input then .reader else .driver
    else .hierTerm := by
  unfold Dnl.role
  rw [site.terminal, Option.bind_some, site.modelOf]
  rfl

theorem direction : directionOf dnl fid = (dnl.wiring design).direction bitTerm := by
  unfold directionOf
  rw [site.terminal, Option.bind_some, site.modelOf]
  rfl

theorem lt : fid < dnl.terms.length := (List.getElem?_eq_some_iff.mp site.terminal).1

end Site


/-- The design a path leads to is the model of its instance. -/
theorem at_path (id : Nat) (node : Node) (here : dnl.instances[id]? = some node) :
    dnl.at (dnl.path id) = node.model dnl.toHierarchy :=
  walk_path dnl.toHierarchy dnl.orders dnl.toNetwork dnl.built id node here

theorem exists_site_of (id design bitTerm : Nat) (node : Node) (here : dnl.instances[id]? = some node)
    (model : node.model dnl.toHierarchy = some design) (inside : bitTerm < (dnl.design design).bitTerms) :
    ∃ fid, Site dnl fid id design bitTerm node := by
  obtain ⟨design', model', -, first, range, each⟩ := dnl.built.models id node here
  obtain rfl := Option.some.inj (model.symm.trans model')
  refine ⟨first + dnl.orders.ofBitTerm design bitTerm, here, model, inside, ?_, first, range, rfl⟩
  rw [each bitTerm inside, dnl.built.ids id node here]

/-- Every terminal has its place at an instance. -/
theorem exists_site (fid : Nat) (bound : fid < dnl.terms.length) :
    ∃ id design bitTerm node, Site dnl fid id design bitTerm node := by
  obtain ⟨id, node, here, member⟩ := dnl.built.covered fid bound
  obtain ⟨design, model, reached, first, range, each⟩ := dnl.built.models id node here
  rw [range, mem_identifiers_rangeOf] at member
  obtain ⟨position, rfl⟩ := Nat.exists_eq_add_of_le member.1
  obtain ⟨bitTerm, inside, same⟩ := (dnl.ready design reached).2.onto dnl.toHierarchy dnl.orders design position (by omega)
  refine ⟨id, design, bitTerm, node, here, model, inside, ?_, first, range, by rw [same]⟩
  rw [← same, each bitTerm inside, dnl.built.ids id node here]

/-- An instance has one terminal for each bit terminal. -/
theorem Site.unique {fid fid' id design design' bitTerm : Nat} {node node' : Node}
    (site : Site dnl fid id design bitTerm node) (site' : Site dnl fid' id design' bitTerm node') :
    fid = fid' := by
  obtain rfl := Option.some.inj (site.here.symm.trans site'.here)
  obtain rfl := Option.some.inj (site.model.symm.trans site'.model)
  obtain ⟨first, range, same⟩ := site.place
  obtain ⟨first', range', same'⟩ := site'.place
  have inside := site.inside
  rw [range, rangeOf_of_pos _ _ (by omega), rangeOf_of_pos _ _ (by omega), Option.some.injEq, Prod.mk.injEq] at range'
  rw [same, same', range'.1]

/-- Two terminals have different pins. -/
theorem pin_injective (fid fid' : Nat) (bound : fid < dnl.terms.length) (bound' : fid' < dnl.terms.length)
    (same : pinOf dnl fid = pinOf dnl fid') : fid = fid' := by
  obtain ⟨id, design, bitTerm, node, site⟩ := exists_site fid bound
  obtain ⟨id', design', bitTerm', node', site'⟩ := exists_site fid' bound'
  rw [site.pin, site'.pin, Pin.mk.injEq] at same
  obtain ⟨path, rfl⟩ := same
  obtain rfl := path_injective dnl.toHierarchy dnl.orders dnl.toNetwork dnl.built id id'
    (List.getElem?_eq_some_iff.mp site.here).1 (List.getElem?_eq_some_iff.mp site'.here).1 path
  exact site.unique site'

/-! ### The nets of a terminal -/

/-- A net of the terminal in the view. -/
def StandsAt (dnl : DNL) (fid : Nat) (entry : Nat × Nat) : Prop :=
  innerNet dnl fid = some entry ∨ outerNet dnl fid = some entry

theorem innerNet_iff (fid : Nat) (entry : Nat × Nat) : innerNet dnl fid = some entry ↔
    bitTermNet dnl fid = some entry ∧
      ∀ design, modelOf dnl entry.1 = some design → (dnl.wiring design).isAssign = false := by
  unfold innerNet
  rw [Option.filter_eq_some_iff]
  apply and_congr_right
  intro _
  cases modelOf dnl entry.1 with
  | none => simp
  | some design => simp

/-- Where the net inside of a terminal is. -/
theorem bitTermNet_iff {fid id design bitTerm : Nat} {node : Node} (site : Site dnl fid id design bitTerm node)
    (entry : Nat × Nat) : bitTermNet dnl fid = some entry ↔
      entry.1 = id ∧ ∃ net, (dnl.wiring design).nets[entry.2]? = some net ∧ bitTerm ∈ net.bitTerms := by
  rw [site.bitTermNet, Option.map_eq_some_iff]
  constructor
  · intro found
    obtain ⟨n, there, rfl⟩ := found
    exact ⟨rfl, (dnl.netOfBitTerm_iff design bitTerm n).mp there⟩
  · intro given
    obtain ⟨rfl, net⟩ := given
    exact ⟨entry.2, (dnl.netOfBitTerm_iff design bitTerm entry.2).mpr net, rfl⟩

/-- Where the net outside of a terminal is: in the instance above its own. -/
theorem outerNet_iff {fid id design bitTerm : Nat} {node : Node} (site : Site dnl fid id design bitTerm node)
    (entry : Nat × Nat) : outerNet dnl fid = some entry ↔
      ∃ first above position inst upper net, Placed dnl.toHierarchy dnl.toNetwork id entry.1 first above position inst
        node upper ∧ (dnl.wiring above).nets[entry.2]? = some net ∧ (position, bitTerm) ∈ net.instTerms := by
  rw [site.outerNet]
  obtain rfl | ⟨up, first, above, position, inst, node', upper, placed⟩ := placed_cases dnl.toHierarchy dnl.orders
    dnl.toNetwork dnl.built id (List.getElem?_eq_some_iff.mp site.here).1
  · obtain ⟨root, start, object, -⟩ := dnl.built.root
    obtain rfl := Option.some.inj (site.here.symm.trans start)
    rw [object, Option.bind_none]
    refine iff_of_false (Option.some_ne_none entry).symm ?_
    intro found
    obtain ⟨first, above, position, inst, upper, net, placed, -⟩ := found
    have later := placed.later
    omega
  · obtain rfl := Option.some.inj (site.here.symm.trans placed.here)
    rw [placed.object, Option.bind_some, placed.parent, Option.bind_some, Option.map_eq_some_iff]
    constructor
    · intro found
      obtain ⟨n, there, rfl⟩ := found
      obtain ⟨net, listed, member⟩ := (dnl.netOfInstTerm_iff above n (position, bitTerm)).mp there
      exact ⟨first, above, position, inst, upper, net, placed, listed, member⟩
    · intro found
      obtain ⟨first', above', position', inst', upper', net, placed', listed, member⟩ := found
      have object := placed.object.symm.trans placed'.object
      rw [Option.some.injEq, Object.mk.injEq] at object
      obtain ⟨rfl, rfl⟩ := object
      refine ⟨entry.2, (dnl.netOfInstTerm_iff above entry.2 (position, bitTerm)).mpr ⟨net, listed, member⟩, ?_⟩
      rw [Option.some.inj (placed.parent.symm.trans placed'.parent)]

/-- The pin of a terminal stands on its nets. -/
theorem stands_of_standsAt (fid : Nat) (bound : fid < dnl.terms.length) (entry : Nat × Nat)
    (stands : StandsAt dnl fid entry) : Stands dnl.toCircuit (pinOf dnl fid) (flatOf dnl entry) := by
  obtain ⟨id, design, bitTerm, node, site⟩ := exists_site fid bound
  rw [site.pin]
  rcases stands with inner | outer
  · obtain ⟨bit, cell⟩ := (innerNet_iff fid entry).mp inner
    obtain ⟨same, net, there, member⟩ := (bitTermNet_iff site entry).mp bit
    rw [← same] at site
    have leads : dnl.at (flatOf dnl entry).path = some design :=
      (at_path entry.1 node site.here).trans site.model
    exact .inside design net leads there (congrArg dnl.path same.symm) member (cell design site.modelOf)
  · obtain ⟨first, above, position, inst, upper, net, placed, there, member⟩ := (outerNet_iff site entry).mp outer
    have leads : dnl.at (flatOf dnl entry).path = some above :=
      (at_path entry.1 upper placed.upper).trans placed.model
    exact .outside above position net leads there
      (placed.path dnl.toHierarchy dnl.orders dnl.toNetwork dnl.built) member

/-- What stands on a net of the flattened netlist is in the view, and so is the net. -/
theorem exists_standsAt (pin : Pin) (flat : FlatNet) (stands : Stands dnl.toCircuit pin flat) : ∃ fid entry,
    pinOf dnl fid = pin ∧ flatOf dnl entry = flat ∧ StandsAt dnl fid entry ∧ entry.1 < dnl.instances.length := by
  obtain ⟨path, bitTerm⟩ := pin
  obtain ⟨above, net⟩ := flat
  have upper (design : Nat) (leads : dnl.at above = some design) : ∃ id node, dnl.instances[id]? = some node ∧
      node.model dnl.toHierarchy = some design ∧ dnl.path id = above := by
    obtain ⟨id, bound, rfl⟩ := exists_path dnl.toHierarchy dnl.orders dnl.toNetwork dnl.built above design leads
    have here : dnl.instances[id]? = some _ := List.getElem?_eq_getElem bound
    exact ⟨id, _, here, (at_path id _ here).symm.trans leads, rfl⟩
  cases stands with
  | inside design found leads there same member cell =>
      obtain ⟨id, node, here, model, rfl⟩ := upper design leads
      obtain ⟨fid, site⟩ := exists_site_of id design bitTerm node here model
        (dnl.bitTerm_lt design net bitTerm found there member)
      refine ⟨fid, (id, net), ?_, rfl, Or.inl ((innerNet_iff fid _).mpr ⟨?_, fun other modelled => ?_⟩),
        (List.getElem?_eq_some_iff.mp here).1⟩
      · exact site.pin.trans (congrArg (Pin.mk · bitTerm) same.symm)
      · exact (bitTermNet_iff site _).mpr ⟨rfl, found, there, member⟩
      · rw [← Option.some.inj (site.modelOf.symm.trans modelled)]
        exact cell
  | outside design position found leads there same member =>
      obtain ⟨id, node, here, model, rfl⟩ := upper design leads
      obtain ⟨inst, listed, inside⟩ := dnl.instTerm_inside design net found (position, bitTerm) there member
      obtain ⟨first, child, placed⟩ := exists_placed dnl.toHierarchy dnl.orders dnl.toNetwork dnl.built id design position
        inst node here model listed
      obtain ⟨fid, site⟩ := exists_site_of (first + position) inst.model bitTerm child placed.here
        (placed.own dnl.toHierarchy dnl.toNetwork) inside
      have path := placed.path dnl.toHierarchy dnl.orders dnl.toNetwork dnl.built
      refine ⟨fid, (id, net), site.pin.trans (congrArg (Pin.mk · bitTerm) (path.trans same.symm)), rfl, Or.inr ?_,
        (List.getElem?_eq_some_iff.mp here).1⟩
      exact (outerNet_iff site _).mpr ⟨first, design, position, inst, node, found, placed, there, member⟩

end Sites

end Naja.Dnl
