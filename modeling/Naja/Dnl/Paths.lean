import Naja.Dnl.Intervals

/-! The paths of the instances: the numbers of a finished numbering stand for the paths of
the hierarchy, one for each, and an instance is above another one exactly when its path
comes first in the path of the other. -/

namespace Naja.Dnl

section Interval
variable (interval : Option (Nat × Nat)) (node : Node)

@[simp] theorem Node.setInterval_object : (node.setInterval interval).object = node.object := rfl
@[simp] theorem Node.setInterval_id : (node.setInterval interval).id = node.id := rfl
@[simp] theorem Node.setInterval_parent : (node.setInterval interval).parent = node.parent := rfl
@[simp] theorem Node.setInterval_terms : (node.setInterval interval).terms = node.terms := rfl
@[simp] theorem Node.setInterval_model (hierarchy : Hierarchy) :
    (node.setInterval interval).model hierarchy = node.model hierarchy := rfl

end Interval

theorem visit_length (fuel : Nat) (state : List Node × Nat) (id : Nat) :
    (visit fuel state id).1.length = state.1.length := by
  induction fuel generalizing state id with
  | zero => rfl
  | succ fuel ih =>
      have loop (ids : List Nat) (state : List Node × Nat) :
          (ids.foldl (visit fuel) state).1.length = state.1.length := by
        induction ids generalizing state with
        | nil => rfl
        | cons first rest ihRest => rw [List.foldl_cons, ihRest, ih]
      dsimp only [visit]
      rw [List.length_modify, loop]

section Finished
variable (hierarchy : Hierarchy) (orders : Orders) (network : Network) (built : Built hierarchy orders network [])
include built

/-- The visit changes the intervals only. -/
theorem initDFSIntervals_instances : (initDFSIntervals network).instances.length = network.instances.length ∧
    ∀ (k : Nat) (node : Node), network.instances[k]? = some node →
      ∃ interval, (initDFSIntervals network).instances[k]? = some (node.setInterval interval) := by
  obtain ⟨root, start, -⟩ := built.root
  have stamped := visit_spec (forest hierarchy orders network built) network.instances.length 0
    (List.getElem?_eq_some_iff.mp start).1 (Nat.sub_le _ _) network.instances 0 (fun _ => rfl)
  have each (k : Nat) (node : Node) (found : network.instances[k]? = some node) :
      ∃ interval, (initDFSIntervals network).instances[k]? = some (node.setInterval interval) := by
    by_cases member : k ∈ (forest hierarchy orders network built).preorder 0
    · obtain ⟨front, back, -, same⟩ := stamped.inside k member
      exact ⟨_, by rw [found] at same; exact same⟩
    · exact ⟨node.interval, (stamped.outside k member).trans found⟩
  exact ⟨visit_length _ (network.instances, 0) 0, each⟩

theorem Built.initDFSIntervals : Built hierarchy orders (initDFSIntervals network) [] := by
  obtain ⟨length, each⟩ := initDFSIntervals_instances hierarchy orders network built
  have back (k : Nat) (found : Node) (place : (Dnl.initDFSIntervals network).instances[k]? = some found) :
      ∃ node interval, network.instances[k]? = some node ∧ found = node.setInterval interval := by
    have bound := (List.getElem?_eq_some_iff.mp place).1
    have known : network.instances[k]? = some _ := List.getElem?_eq_getElem (by omega)
    obtain ⟨interval, same⟩ := each k _ known
    exact ⟨_, interval, known, Option.some.inj (place.symm.trans same)⟩
  constructor
  · obtain ⟨root, found, object, parent⟩ := built.root
    obtain ⟨interval, same⟩ := each 0 root found
    exact ⟨_, same, object, parent⟩
  · intro k found place
    obtain ⟨node, interval, known, rfl⟩ := back k found place
    exact built.ids k node known
  · intro k found positive place
    obtain ⟨node, interval, known, rfl⟩ := back k found place
    obtain ⟨up, above, design, position, inst, first, parent, object, foundUp, rest⟩ :=
      built.entered k node positive known
    obtain ⟨interval', same⟩ := each up above foundUp
    exact ⟨up, _, design, position, inst, first, parent, object, same, rest⟩
  · intro k found design place outside model
    obtain ⟨node, interval, known, rfl⟩ := back k found place
    obtain ⟨first, children, later, fits, below⟩ := built.expanded k node design known outside model
    refine ⟨first, children, later, by omega, fun position bound => ?_⟩
    obtain ⟨child, foundChild, parent⟩ := below position bound
    obtain ⟨interval', same⟩ := each _ child foundChild
    exact ⟨_, same, parent⟩
  · intro k found place
    obtain ⟨node, interval, known, rfl⟩ := back k found place
    exact built.models k node known
  · exact built.distinct
  · nofun
  · intro k found design place model
    obtain ⟨node, interval, known, rfl⟩ := back k found place
    exact built.leaves k node design known model
  · intro k member
    have bound := built.leavesBound k member
    omega
  · intro place bound
    obtain ⟨k, node, known, inside⟩ := built.covered place bound
    obtain ⟨interval, same⟩ := each k node known
    exact ⟨k, _, same, inside⟩

end Finished

/-- The instance `id` stands at a position under the instance `up`. -/
structure Placed (hierarchy : Hierarchy) (network : Network) (id up first design position : Nat) (inst : Instance)
    (node above : Node) : Prop where
  here : network.instances[id]? = some node
  upper : network.instances[up]? = some above
  parent : node.parent = some up
  object : node.object = some ⟨design, position⟩
  later : up < id
  model : above.model hierarchy = some design
  listed : (hierarchy.design design).instances[position]? = some inst
  children : above.children = rangeOf first (hierarchy.design design).instances.length
  same : id = first + position

section Paths
variable (hierarchy : Hierarchy) (orders : Orders) (network : Network) (built : Built hierarchy orders network [])
include built

theorem placed_cases (id : Nat) (bound : id < network.instances.length) : id = 0 ∨
    ∃ up first design position inst node above, Placed hierarchy network id up first design position inst node above := by
  by_cases positive : 0 < id
  · right
    have here : network.instances[id]? = some _ := List.getElem?_eq_getElem bound
    obtain ⟨up, above, design, position, inst, first, parent, object, foundUp, model, listed, children, same, -⟩ :=
      built.entered id _ positive here
    have edge := (mem_childrenOf hierarchy orders network built up id).mpr ⟨positive, _, here, parent⟩
    have later := ((forest hierarchy orders network built).later up id edge).1
    exact ⟨up, first, design, position, inst, _, above, here, foundUp, parent, object, later, model, listed, children, same⟩
  · left
    omega

/-- Every position of the model has its child. -/
theorem exists_placed (id design position : Nat) (inst : Instance) (node : Node)
    (here : network.instances[id]? = some node) (model : node.model hierarchy = some design)
    (listed : (hierarchy.design design).instances[position]? = some inst) :
    ∃ first child, Placed hierarchy network (first + position) id first design position inst child node := by
  have bound := (List.getElem?_eq_some_iff.mp listed).1
  obtain ⟨first, children, later, fits, each⟩ := built.expanded id node design here List.not_mem_nil model
  obtain ⟨child, place, parent⟩ := each position bound
  obtain ⟨up, above, design', position', inst', first', parent', object, foundUp, model', -, children', same, -⟩ :=
    built.entered (first + position) child (by omega) place
  obtain rfl := Option.some.inj (parent'.symm.trans parent)
  rw [here, Option.some.injEq] at foundUp
  subst foundUp
  rw [model, Option.some.injEq] at model'
  subst model'
  rw [children, rangeOf_of_pos _ _ (by omega), rangeOf_of_pos _ _ (by omega), Option.some.injEq, Prod.mk.injEq]
    at children'
  obtain rfl : position = position' := by omega
  exact ⟨first, child, place, here, parent, object, by omega, model, listed, children, rfl⟩

omit built in
theorem Placed.getPath (id up first design position : Nat) (inst : Instance) (node above : Node)
    (placed : Placed hierarchy network id up first design position inst node above) (fuel : Nat) :
    getPath network.instances (fuel + 1) id = getPath network.instances fuel up ++ [position] := by
  have later := placed.later
  rw [Dnl.getPath, if_neg (by omega), placed.here]
  have object := placed.object
  have parent := placed.parent
  obtain ⟨object', id', parent', children, terms, interval⟩ := node
  dsimp only at object parent
  subst object parent
  rfl

omit built in
theorem Placed.own (id up first design position : Nat) (inst : Instance) (node above : Node)
    (placed : Placed hierarchy network id up first design position inst node above) :
    node.model hierarchy = some inst.model :=
  Node.model_of_object hierarchy node design position inst placed.object placed.listed

/-- The path of an instance; the fuel is the number of instances. -/
theorem getPath_fuel (id : Nat) (bound : id < network.instances.length) (fuel : Nat) (enough : id < fuel) :
    getPath network.instances fuel id = getPath network.instances network.instances.length id := by
  induction id using Nat.strongRecOn generalizing fuel with
  | ind id ih =>
      obtain ⟨fuel, rfl⟩ := Nat.exists_eq_add_of_lt enough
      obtain ⟨more, full⟩ := Nat.exists_eq_add_of_lt bound
      rcases placed_cases hierarchy orders network built id bound with rfl | ⟨up, first, design, position, inst, node, above, placed⟩
      · rw [full]
        rfl
      · have later := placed.later
        calc getPath network.instances (id + fuel + 1) id
            = getPath network.instances (id + fuel) up ++ [position] := placed.getPath hierarchy network _ _ _ _ _ _ _ _ _
          _ = getPath network.instances network.instances.length up ++ [position] := by
              rw [ih up later (by omega) _ (by omega)]
          _ = getPath network.instances (id + more) up ++ [position] := by
              rw [ih up later (by omega) (id + more) (by omega)]
          _ = getPath network.instances network.instances.length id := by
              rw [full, placed.getPath hierarchy network]

/-- The path of an instance goes on from the path of its parent. -/
theorem Placed.path (id up first design position : Nat) (inst : Instance) (node above : Node)
    (placed : Placed hierarchy network id up first design position inst node above) :
    Dnl.getPath network.instances network.instances.length id =
      Dnl.getPath network.instances network.instances.length up ++ [position] := by
  have later := placed.later
  have bound := (List.getElem?_eq_some_iff.mp placed.here).1
  obtain ⟨more, full⟩ := Nat.exists_eq_add_of_lt bound
  calc Dnl.getPath network.instances network.instances.length id
      = Dnl.getPath network.instances (id + more + 1) id := by rw [full]
    _ = Dnl.getPath network.instances (id + more) up ++ [position] := placed.getPath hierarchy network _ _ _ _ _ _ _ _ _
    _ = Dnl.getPath network.instances network.instances.length up ++ [position] := by
        rw [getPath_fuel hierarchy orders network built up (by omega) (id + more) (by omega)]

theorem path_top : getPath network.instances network.instances.length 0 = [] := by
  obtain ⟨root, found, -⟩ := built.root
  obtain ⟨more, full⟩ := Nat.exists_eq_add_of_lt (List.getElem?_eq_some_iff.mp found).1
  rw [full]
  rfl

/-- The path leads to the model of the instance. -/
theorem walk_path (id : Nat) (node : Node) (here : network.instances[id]? = some node) :
    Unfolding.walk hierarchy.child hierarchy.top (getPath network.instances network.instances.length id) =
      node.model hierarchy := by
  induction id using Nat.strongRecOn generalizing node with
  | ind id ih =>
      rcases placed_cases hierarchy orders network built id (List.getElem?_eq_some_iff.mp here).1 with rfl |
        ⟨up, first, design, position, inst, node', above, placed⟩
      · obtain ⟨root, found, object, -⟩ := built.root
        obtain rfl := Option.some.inj (found.symm.trans here)
        rw [path_top hierarchy orders network built]
        unfold Node.model
        rw [object, built.ids 0 root found]
        rfl
      · obtain rfl := Option.some.inj (placed.here.symm.trans here)
        rw [placed.path hierarchy orders network built, Unfolding.walk_concat, ih up placed.later above placed.upper,
          placed.model, Option.bind_some, placed.own hierarchy network]
        exact congrArg (Option.map _) placed.listed

/-- Every path of the hierarchy belongs to an instance. -/
theorem exists_path (path : List Nat) (design : Nat)
    (leads : Unfolding.walk hierarchy.child hierarchy.top path = some design) :
    ∃ id < network.instances.length, getPath network.instances network.instances.length id = path := by
  induction path using List.reverseRecOn generalizing design with
  | nil =>
      obtain ⟨root, found, -⟩ := built.root
      exact ⟨0, (List.getElem?_eq_some_iff.mp found).1, path_top hierarchy orders network built⟩
  | append_singleton path position ih =>
      rw [Unfolding.walk_concat] at leads
      obtain ⟨above, first, last⟩ := Option.bind_eq_some_iff.mp leads
      obtain ⟨id, bound, same⟩ := ih above first
      obtain ⟨inst, listed, -⟩ := (hierarchy.child_eq_some above position design).mp last
      have model := walk_path hierarchy orders network built id _ (List.getElem?_eq_getElem bound)
      rw [same, first] at model
      obtain ⟨start, child, placed⟩ := exists_placed hierarchy orders network built id above position inst _
        (List.getElem?_eq_getElem bound) model.symm listed
      exact ⟨_, (List.getElem?_eq_some_iff.mp placed.here).1, by rw [placed.path hierarchy orders network built, same]⟩

/-- Two instances have different paths. -/
theorem path_injective (a b : Nat) (inA : a < network.instances.length) (inB : b < network.instances.length)
    (same : getPath network.instances network.instances.length a = getPath network.instances network.instances.length b) :
    a = b := by
  induction a using Nat.strongRecOn generalizing b with
  | ind a ih =>
      rcases placed_cases hierarchy orders network built a inA with rfl |
        ⟨upA, firstA, designA, positionA, instA, nodeA, aboveA, placedA⟩ <;>
      rcases placed_cases hierarchy orders network built b inB with rfl |
        ⟨upB, firstB, designB, positionB, instB, nodeB, aboveB, placedB⟩
      · rfl
      · rw [path_top hierarchy orders network built, placedB.path hierarchy orders network built] at same
        simp at same
      · rw [path_top hierarchy orders network built, placedA.path hierarchy orders network built] at same
        simp at same
      · rw [placedA.path hierarchy orders network built, placedB.path hierarchy orders network built] at same
        obtain ⟨front, last⟩ := List.append_inj' same rfl
        have laterA := placedA.later
        have laterB := placedB.later
        obtain rfl := ih upA laterA upB (by omega) (by omega) front
        obtain rfl := List.singleton_inj.mp last
        obtain rfl := Option.some.inj (placedA.upper.symm.trans placedB.upper)
        obtain rfl := Option.some.inj (placedA.model.symm.trans placedB.model)
        have bound := (List.getElem?_eq_some_iff.mp placedA.listed).1
        have children := placedA.children.symm.trans placedB.children
        rw [rangeOf_of_pos _ _ (by omega), rangeOf_of_pos _ _ (by omega), Option.some.injEq, Prod.mk.injEq] at children
        rw [placedA.same, placedB.same, children.1]

/-- An instance is above another one when its path comes first. -/
theorem above_iff_prefix (a b : Nat) (inA : a < network.instances.length) (inB : b < network.instances.length) :
    (forest hierarchy orders network built).Above b a ↔
      getPath network.instances network.instances.length b <+: getPath network.instances network.instances.length a := by
  induction a using Nat.strongRecOn with
  | ind a ih =>
      have edge (up first design position : Nat) (inst : Instance) (node above : Node)
          (placed : Placed hierarchy network a up first design position inst node above) :
          a ∈ (forest hierarchy orders network built).children up := by
        have later := placed.later
        exact (mem_childrenOf hierarchy orders network built up a).mpr ⟨by omega, node, placed.here, placed.parent⟩
      constructor
      · intro above
        cases above with
        | refl => exact List.prefix_refl _
        | tail above last =>
            rcases placed_cases hierarchy orders network built a inA with rfl |
              ⟨up, first, design, position, inst, node, above', placed⟩
            · have later := (forest hierarchy orders network built).later _ _ last
              omega
            · have later := placed.later
              obtain rfl := (forest hierarchy orders network built).single _ _ _ last (edge _ _ _ _ _ _ _ placed)
              rw [placed.path hierarchy orders network built]
              exact ((ih _ later (by omega)).mp above).trans (List.prefix_append _ _)
      · intro front
        rcases placed_cases hierarchy orders network built a inA with rfl |
          ⟨up, first, design, position, inst, node, above', placed⟩
        · rw [path_top hierarchy orders network built, List.prefix_nil, ← path_top hierarchy orders network built] at front
          rw [path_injective hierarchy orders network built b 0 inB inA front]
          exact .refl
        · have later := placed.later
          rw [placed.path hierarchy orders network built, List.prefix_concat_iff] at front
          rcases front with whole | shorter
          · rw [← placed.path hierarchy orders network built] at whole
            rw [path_injective hierarchy orders network built b a inB inA whole]
            exact .refl
          · exact .tail ((ih up later (by omega)).mpr shorter) (edge _ _ _ _ _ _ _ placed)

end Paths
end Naja.Dnl
