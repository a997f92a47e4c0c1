import Naja.Dnl.Paths

/-! The flat view encodes the instance tree: for every hierarchy when the numbering is
defined, but for the two notions of a leaf. -/

namespace Naja.Dnl

/-- The path of an instance of the view, from the top. -/
def View.path (view : View) (id : Nat) : List Nat := getPath view.instances view.instances.length id

/-- The numbers are a correct encoding of the instance tree. -/
structure Encodes (hierarchy : Hierarchy) (view : View) : Prop where
  ids : ∀ (id : Nat) (node : Node), view.instances[id]? = some node → node.id = id
  /-- every path of the tree has one number -/
  occurrences : ∀ path, (Unfolding.walk hierarchy.child hierarchy.top path).isSome ↔
    ∃ id < view.instances.length, view.path id = path
  distinct : ∀ a < view.instances.length, ∀ b < view.instances.length, view.path a = view.path b → a = b
  models : ∀ (id : Nat) (node : Node), view.instances[id]? = some node →
    node.model hierarchy = Unfolding.walk hierarchy.child hierarchy.top (view.path id)
  isUnder : ∀ (a b : Nat) (nodeA nodeB : Node), view.instances[a]? = some nodeA → view.instances[b]? = some nodeB →
    (nodeA.isUnder nodeB = true ↔ view.path b <+: view.path a)
  isInstanceChild : ∀ a < view.instances.length, ∀ b < view.instances.length,
    (Dnl.isInstanceChild view.instances b a = true ↔ view.path b <+: view.path a)
  childRange : ∀ (id : Nat) (node : Node) (first last : Nat), view.instances[id]? = some node →
    node.children = some (first, last) → 0 < first ∧ first ≤ last ∧ last < view.instances.length
  childCover : ∀ id, 0 < id → id < view.instances.length → ∃! owner, id ∈ childrenOf view.instances owner
  termRange : ∀ (id : Nat) (node : Node) (first last : Nat), view.instances[id]? = some node →
    node.terms = some (first, last) → first ≤ last ∧ last < view.terms.length
  termCover : ∀ place < view.terms.length, ∃! owner : Nat, ∃ node : Node, view.instances[owner]? = some node ∧
    place ∈ identifiers node.terms
  getChildInstance : ∀ (id : Nat) (node : Node) (design position : Nat), view.instances[id]? = some node →
    node.model hierarchy = some design → position < (hierarchy.design design).instances.length →
    ∃ child, Dnl.getChildInstance hierarchy view node ⟨design, position⟩ = some child ∧
      child.object = some ⟨design, position⟩ ∧ view.path child.id = view.path id ++ [position]
  getTerminal : ∀ (id : Nat) (node : Node) (object : Object) (design bitTerm : Nat), view.instances[id]? = some node →
    node.object = some object → node.model hierarchy = some design → bitTerm < (hierarchy.design design).bitTerms →
    ∃ terminal, Dnl.getTerminal hierarchy view node ⟨object, bitTerm⟩ = some terminal ∧
      terminal.owner = id ∧ terminal.instTerm = some ⟨object, bitTerm⟩ ∧ terminal.bitTerm = bitTerm
  getTerminalFromBitTerm : ∀ (id : Nat) (node : Node) (design bitTerm : Nat), view.instances[id]? = some node →
    node.model hierarchy = some design → bitTerm < (hierarchy.design design).bitTerms →
    ∃ terminal, Dnl.getTerminalFromBitTerm hierarchy view node design bitTerm = some terminal ∧
      terminal.owner = id ∧ terminal.bitTerm = bitTerm
  /-- an object of another design or instance is not found -/
  foreign : ∀ (node : Node), (∀ object : Object, node.model hierarchy ≠ some object.design →
      Dnl.getChildInstance hierarchy view node object = none) ∧
    ∀ term : InstTerm, node.object ≠ some term.object → Dnl.getTerminal hierarchy view node term = none

/-- Both notions of a leaf mean that the model has no instances. -/
structure LeavesExact (hierarchy : Hierarchy) (view : View) : Prop where
  listed : ∀ (id : Nat) (node : Node) (design : Nat), view.instances[id]? = some node →
    node.model hierarchy = some design → (id ∈ view.leaves ↔ (hierarchy.design design).instances = [])
  isLeaf : ∀ (id : Nat) (node : Node) (design : Nat), view.instances[id]? = some node →
    node.model hierarchy = some design → (node.isLeaf = true ↔ (hierarchy.design design).instances = [])

section Encodes
variable (hierarchy : Hierarchy) (orders : Orders) (ready : Ready hierarchy orders) (network : Network)
  (built : Built hierarchy orders network [])

theorem identifiers_some (first last count start : Nat) (range : some (first, last) = rangeOf start count) :
    0 < count ∧ first = start ∧ last = start + count - 1 := by
  unfold rangeOf at range
  split at range
  · contradiction
  · rw [Option.some.injEq, Prod.mk.injEq] at range
    exact ⟨by omega, range⟩

include built in
/-- The climb to the top passes the instances above. -/
theorem climb_iff (parent : Nat) (positive : 0 < parent) (fuel child : Nat) (bound : child < network.instances.length)
    (enough : child < fuel) :
    climb network.instances parent fuel child = true ↔ (forest hierarchy orders network built).Above parent child := by
  induction fuel generalizing child with
  | zero => omega
  | succ fuel ih =>
      unfold climb
      by_cases top : child = 0
      · rw [if_pos top, top]
        refine iff_of_false nofun (fun above => ?_)
        have le := Unfolding.Forest.Above.le _ parent 0 above
        omega
      · rw [if_neg top]
        by_cases here : parent = child
        · rw [if_pos here, here]
          exact iff_of_true rfl .refl
        · rw [if_neg here]
          obtain zero | ⟨up, first, design, position, inst, node, above, placed⟩ :=
            placed_cases hierarchy orders network built child bound
          · exact absurd zero top
          · have later := placed.later
            have edge : child ∈ (forest hierarchy orders network built).children up :=
              (mem_childrenOf hierarchy orders network built up child).mpr ⟨by omega, node, placed.here, placed.parent⟩
            rw [placed.here, Option.bind_some, placed.parent]
            show climb network.instances parent fuel up = true ↔ _
            rw [ih up (by omega) (by omega)]
            constructor
            · intro above
              exact .tail above edge
            · intro above
              cases above with
              | refl => exact absurd rfl here
              | tail above last =>
                  rw [← (forest hierarchy orders network built).single _ _ _ last edge]
                  exact above

include built in
theorem isInstanceChild_iff (a b : Nat) (inA : a < network.instances.length) :
    isInstanceChild network.instances b a = true ↔ (forest hierarchy orders network built).Above b a := by
  unfold isInstanceChild
  by_cases top : b = 0
  · rw [if_pos top, top]
    exact iff_of_true rfl (above_top hierarchy orders network built a inA)
  · rw [if_neg top]
    exact climb_iff hierarchy orders network built b (by omega) _ a inA inA

include built in
/-- The visit does not change the tree. -/
theorem above_initDFSIntervals (a b : Nat) :
    (forest hierarchy orders (initDFSIntervals network) (built.initDFSIntervals hierarchy orders network)).Above b a ↔
      (forest hierarchy orders network built).Above b a := by
  obtain ⟨root, start, -⟩ := built.root
  have stamped := visit_spec (forest hierarchy orders network built) network.instances.length 0
    (List.getElem?_eq_some_iff.mp start).1 (Nat.sub_le _ _) network.instances 0 (fun _ => rfl)
  have same (v : Nat) : childrenOf (initDFSIntervals network).instances v = childrenOf network.instances v :=
    stamped.childrenOf _ _ _ _ _ v
  show Relation.ReflTransGen (fun v c => c ∈ childrenOf (initDFSIntervals network).instances v) b a ↔
    Relation.ReflTransGen (fun v c => c ∈ childrenOf network.instances v) b a
  simp only [same]

/-- The terminals of an instance are found at their order IDs. -/
theorem terms_lookup (node : Node) (design : Nat) (at_ : TermsAt hierarchy orders network.terms node design) (bitTerm : Nat)
    (inside : bitTerm < (hierarchy.design design).bitTerms) :
    ∃ first last terminal, node.terms = some (first, last) ∧
      network.terms[first + orders.ofBitTerm design bitTerm]? = some terminal ∧ terminal.owner = node.id ∧
      terminal.instTerm = node.object.map (fun object => ⟨object, bitTerm⟩) ∧ terminal.bitTerm = bitTerm := by
  obtain ⟨first, range, each⟩ := at_
  rw [rangeOf_of_pos _ _ (by omega)] at range
  exact ⟨first, _, _, range, each bitTerm inside, rfl, rfl, rfl⟩

include ready in
/-- A terminal in the range of an instance belongs to it. -/
theorem owner_of_mem (node : Node) (design place : Nat) (reached : hierarchy.Reached design)
    (at_ : TermsAt hierarchy orders network.terms node design) (member : place ∈ identifiers node.terms) :
    ∃ terminal, network.terms[place]? = some terminal ∧ terminal.owner = node.id := by
  obtain ⟨first, range, each⟩ := at_
  rw [range, mem_identifiers_rangeOf] at member
  obtain ⟨position, rfl⟩ := Nat.exists_eq_add_of_le member.1
  obtain ⟨bitTerm, inside, same⟩ := (ready design reached).2.onto hierarchy orders design position (by omega)
  have found := each bitTerm inside
  rw [same] at found
  exact ⟨_, found, rfl⟩

include ready built in
/-- A finished numbering encodes the instance tree. -/
theorem encodes_of_built : Encodes hierarchy ⟨initDFSIntervals network, orders⟩ := by
  have done := built.initDFSIntervals hierarchy orders network
  have under (done : Built hierarchy orders (initDFSIntervals network) []) (a b : Nat) (nodeA nodeB : Node)
      (foundA : (initDFSIntervals network).instances[a]? = some nodeA)
      (foundB : (initDFSIntervals network).instances[b]? = some nodeB) :
      nodeA.isUnder nodeB = true ↔ (forest hierarchy orders (initDFSIntervals network) done).Above b a :=
    (isUnder_iff hierarchy orders network built a b nodeA nodeB foundA foundB).trans
      (above_initDFSIntervals hierarchy orders network built a b).symm
  generalize initDFSIntervals network = final at done under
  clear built
  have above := above_iff_prefix hierarchy orders final done
  constructor
  · exact done.ids
  · intro path
    constructor
    · intro leads
      obtain ⟨design, leads⟩ := Option.isSome_iff_exists.mp leads
      exact exists_path hierarchy orders final done path design leads
    · intro found
      obtain ⟨id, bound, rfl⟩ := found
      have here : final.instances[id]? = some _ := List.getElem?_eq_getElem bound
      obtain ⟨design, model, -⟩ := done.models id _ here
      show (Unfolding.walk hierarchy.child hierarchy.top (getPath _ _ id)).isSome
      rw [walk_path hierarchy orders final done id _ here, model]
      rfl
  · exact fun a inA b inB same => path_injective hierarchy orders final done a b inA inB same
  · exact fun id node here => (walk_path hierarchy orders final done id node here).symm
  · intro a b nodeA nodeB foundA foundB
    exact (under done a b nodeA nodeB foundA foundB).trans
      (above a b (List.getElem?_eq_some_iff.mp foundA).1 (List.getElem?_eq_some_iff.mp foundB).1)
  · intro a inA b inB
    exact (isInstanceChild_iff hierarchy orders final done a b inA).trans (above a b inA inB)
  · intro id node first last here children
    obtain ⟨design, model, -⟩ := done.models id node here
    obtain ⟨start, range, later, fits, -⟩ := done.expanded id node design here List.not_mem_nil model
    obtain ⟨positive, rfl, rfl⟩ := identifiers_some first last _ start (children.symm.trans range)
    show 0 < first ∧ first ≤ _ ∧ _ < final.instances.length
    omega
  · intro id positive bound
    obtain zero | ⟨up, first, design, position, inst, node, above', placed⟩ :=
      placed_cases hierarchy orders final done id bound
    · omega
    · refine ⟨up, (mem_childrenOf hierarchy orders final done up id).mpr ⟨positive, node, placed.here, placed.parent⟩, ?_⟩
      intro other member
      obtain ⟨-, node', here, parent⟩ := (mem_childrenOf hierarchy orders final done other id).mp member
      obtain rfl := Option.some.inj (here.symm.trans placed.here)
      exact Option.some.inj (parent.symm.trans placed.parent)
  · intro id node first last here terms
    obtain ⟨design, model, reached, start, range, each⟩ := done.models id node here
    obtain ⟨positive, rfl, rfl⟩ := identifiers_some first last _ start (terms.symm.trans range)
    obtain ⟨bitTerm, inside, same⟩ := (ready design reached).2.onto hierarchy orders design
      ((hierarchy.design design).bitTerms - 1) (by omega)
    have bound := (List.getElem?_eq_some_iff.mp (each bitTerm inside)).1
    show first ≤ _ ∧ _ < final.terms.length
    omega
  · intro place bound
    obtain ⟨owner, node, here, member⟩ := done.covered place bound
    refine ⟨owner, ⟨node, here, member⟩, ?_⟩
    intro other found
    obtain ⟨node', here', member'⟩ := found
    obtain ⟨design, -, reached, at_⟩ := done.models owner node here
    obtain ⟨design', -, reached', at'⟩ := done.models other node' here'
    obtain ⟨terminal, found, own⟩ := owner_of_mem hierarchy orders ready final node design place reached at_ member
    obtain ⟨terminal', found', own'⟩ := owner_of_mem hierarchy orders ready final node' design' place reached' at' member'
    obtain rfl := Option.some.inj (found.symm.trans found')
    rw [← done.ids other node' here', ← own', own, done.ids owner node here]
  · intro id node design position here model bound
    obtain ⟨design', model', reached, -⟩ := done.models id node here
    obtain rfl := Option.some.inj (model.symm.trans model')
    obtain ⟨first, child, placed⟩ := exists_placed hierarchy orders final done id design position _ node here model
      (List.getElem?_eq_getElem bound)
    refine ⟨child, ?_, placed.object, ?_⟩
    · unfold getChildInstance
      rw [if_neg (not_not_intro model), placed.children, rangeOf_of_pos _ _ (by omega), Option.bind_some]
      show final.instances[first + orders.ofInstance ⟨design, position⟩]? = _
      rw [(ready design reached).1 position bound, placed.here]
    · rw [done.ids _ child placed.here]
      exact placed.path hierarchy orders final done
  · intro id node object design bitTerm here own model inside
    obtain ⟨design', model', reached, at_⟩ := done.models id node here
    obtain rfl := Option.some.inj (model.symm.trans model')
    obtain ⟨first, last, terminal, range, found, owner, instTerm, same⟩ :=
      terms_lookup hierarchy orders final node design at_ bitTerm inside
    refine ⟨terminal, ?_, by rw [owner, done.ids id node here], by rw [instTerm, own]; rfl, same⟩
    unfold getTerminal
    rw [if_neg (not_not_intro own), model, Option.bind_some, range, Option.bind_some]
    exact found
  · intro id node design bitTerm here model inside
    obtain ⟨design', model', reached, at_⟩ := done.models id node here
    obtain rfl := Option.some.inj (model.symm.trans model')
    obtain ⟨first, last, terminal, range, found, owner, -, same⟩ :=
      terms_lookup hierarchy orders final node design at_ bitTerm inside
    refine ⟨terminal, ?_, by rw [owner, done.ids id node here], same⟩
    unfold getTerminalFromBitTerm
    rw [if_neg (not_not_intro model), range, Option.bind_some]
    exact found
  · intro node
    exact ⟨fun object other => if_pos other, fun term other => if_pos other⟩

end Encodes

/-- No model of the tree has one single instance, the top has instances, and a terminal is
there before the loop over the stack reads the last one. -/
def LeavesTold (hierarchy : Hierarchy) : Prop :=
  NoneMissed hierarchy ∧ (hierarchy.design hierarchy.top).instances ≠ [] ∧
    ∀ design, hierarchy.Reached design → (hierarchy.design design).instances.length ≠ 1

section Leaves
variable (hierarchy : Hierarchy) (orders : Orders) (network : Network) (built : Built hierarchy orders network [])
include built

/-- An instance whose model has one single instance passes for a leaf. -/
theorem isLeaf_iff (id : Nat) (node : Node) (design : Nat) (here : network.instances[id]? = some node)
    (model : node.model hierarchy = some design) :
    node.isLeaf = true ↔ (hierarchy.design design).instances.length ≤ 1 := by
  obtain ⟨first, children, -⟩ := built.expanded id node design here List.not_mem_nil model
  unfold Node.isLeaf
  rw [children]
  by_cases empty : (hierarchy.design design).instances.length = 0
  · rw [rangeOf, if_pos empty]
    exact iff_of_true rfl (by omega)
  · rw [rangeOf_of_pos _ _ (by omega)]
    show (first == _) = true ↔ _
    rw [beq_iff_eq]
    omega

theorem leaves_iff : LeavesExact hierarchy ⟨initDFSIntervals network, orders⟩ ↔
    (hierarchy.design hierarchy.top).instances ≠ [] ∧
      ∀ design, hierarchy.Reached design → (hierarchy.design design).instances.length ≠ 1 := by
  have done := built.initDFSIntervals hierarchy orders network
  generalize initDFSIntervals network = final at done
  clear built
  obtain ⟨root, start, object, -⟩ := done.root
  have topModel : root.model hierarchy = some hierarchy.top := by
    unfold Node.model
    rw [object, done.ids 0 root start]
    rfl
  constructor
  · intro exact_
    constructor
    · intro empty
      have listed := (exact_.listed 0 root hierarchy.top start topModel).mpr empty
      exact Nat.lt_irrefl 0 ((done.leaves 0 root hierarchy.top start topModel).mp listed).1
    · intro design reached one
      obtain ⟨path, leads⟩ := reached
      obtain ⟨id, bound, rfl⟩ := exists_path hierarchy orders final done path design leads
      have here : final.instances[id]? = some _ := List.getElem?_eq_getElem bound
      rw [walk_path hierarchy orders final done id _ here] at leads
      have empty := (exact_.isLeaf id _ design here leads).mp
        ((isLeaf_iff hierarchy orders final done id _ design here leads).mpr (by omega))
      rw [empty] at one
      contradiction
  · intro told
    constructor
    · intro id node design here model
      show id ∈ final.leaves ↔ _
      rw [done.leaves id node design here model, and_iff_right_iff_imp]
      intro empty
      by_contra zero
      obtain rfl : id = 0 := by omega
      obtain rfl := Option.some.inj (here.symm.trans start)
      obtain rfl := Option.some.inj (model.symm.trans topModel)
      exact told.1 empty
    · intro id node design here model
      obtain ⟨design', model', reached, -⟩ := done.models id node here
      obtain rfl := Option.some.inj (model.symm.trans model')
      have several := told.2 design reached
      rw [isLeaf_iff hierarchy orders final done id node design here model, ← List.length_eq_zero_iff]
      omega

end Leaves

/-- The numbering is defined when a terminal is there in time, and then it encodes the tree. -/
theorem process_spec (hierarchy : Hierarchy) (before : Orders) :
    (NoneMissed hierarchy ↔ process hierarchy before ≠ none) ∧
      ∀ view, process hierarchy before = some view → ∃ orders network, Ready hierarchy orders ∧
        Built hierarchy orders network [] ∧ view = ⟨initDFSIntervals network, orders⟩ := by
  obtain ⟨orders, ordered, ready⟩ := orderIDs_spec hierarchy before
  obtain ⟨state, ended, defined, built⟩ := loop_spec hierarchy orders ready
  have result : process hierarchy before = state.map (fun network => ⟨initDFSIntervals network, orders⟩) := by
    unfold process
    rw [ordered, Option.bind_some, ended]
    rfl
  rw [result]
  constructor
  · rw [← defined, Ne, Ne, Option.map_eq_none_iff]
  · intro view same
    obtain ⟨network, rfl, rfl⟩ := Option.map_eq_some_iff.mp same
    exact ⟨orders, network, ready, built network rfl, rfl⟩

/-- The flat view of every hierarchy encodes its instance tree; leaves are told from the
other instances exactly when no model has a single instance and the top has some. -/
theorem process_encodes (hierarchy : Hierarchy) (before : Orders) :
    (∃ view, process hierarchy before = some view ∧ Encodes hierarchy view ∧ LeavesExact hierarchy view) ↔
      LeavesTold hierarchy := by
  obtain ⟨defined, each⟩ := process_spec hierarchy before
  unfold LeavesTold
  rw [defined]
  constructor
  · intro found
    obtain ⟨view, made, -, exact_⟩ := found
    obtain ⟨orders, network, -, built, rfl⟩ := each view made
    refine ⟨?_, (leaves_iff hierarchy orders network built).mp exact_⟩
    rw [made]
    nofun
  · intro told
    obtain ⟨view, made⟩ := Option.ne_none_iff_exists'.mp told.1
    obtain ⟨orders, network, ready, built, rfl⟩ := each view made
    exact ⟨_, made, encodes_of_built hierarchy orders ready network built,
      (leaves_iff hierarchy orders network built).mpr told.2⟩

/-- A top design that wraps one instance. -/
def wrapper : Hierarchy where
  netlist := [⟨1, [⟨1, [0]⟩]⟩, ⟨1, []⟩]
  top := 0
  rank number := 1 - number
  descends := by decide
  complete := by decide

/-- The wrapper passes for a leaf. -/
theorem wrapper_leaf : ¬ ∃ view, process wrapper ⟨fun _ => 0, fun _ _ => 0⟩ = some view ∧
    Encodes wrapper view ∧ LeavesExact wrapper view := by
  intro found
  obtain ⟨view, made, -, exact_⟩ := found
  have top : (process wrapper ⟨fun _ => 0, fun _ _ => 0⟩).map
      (fun view => view.instances[0]?.map (fun node => (node.model wrapper, node.isLeaf))) = some (some (some 0, true)) := by
    decide
  rw [made, Option.map_some, Option.some.injEq, Option.map_eq_some_iff] at top
  obtain ⟨node, here, both⟩ := top
  rw [Prod.mk.injEq] at both
  have empty := (exact_.isLeaf 0 node 0 here both.1).mp both.2
  exact absurd empty (by decide)

end Naja.Dnl
