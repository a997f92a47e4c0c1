import Naja.Dnl.Loop
import Naja.Unfolding.Preorder

/-! The depth-first visit gives every instance the interval of its subtree in the preorder
of the instance tree. -/

namespace Naja.Dnl

@[simp] theorem Node.setInterval_children (interval : Option (Nat × Nat)) (node : Node) :
    (node.setInterval interval).children = node.children := rfl

section Visit
variable (forest : Unfolding.Forest)

/-- The nodes of a part of the preorder have their intervals, starting at `next`. -/
structure Stamped (nodes : List Node) (next : Nat) (order : List Nat) (after : List Node × Nat) : Prop where
  count : after.2 = next + order.length
  outside : ∀ k, k ∉ order → after.1[k]? = nodes[k]?
  inside : ∀ k ∈ order, ∃ front back, order = front ++ forest.preorder k ++ back ∧
    after.1[k]? = nodes[k]?.map
      (Node.setInterval (some (next + front.length, next + front.length + (forest.preorder k).length)))

namespace Stamped
variable (nodes : List Node) (next : Nat)

theorem childrenOf (order : List Nat) (after : List Node × Nat) (stamped : Stamped forest nodes next order after)
    (v : Nat) : Dnl.childrenOf after.1 v = Dnl.childrenOf nodes v := by
  unfold Dnl.childrenOf
  congr 1
  by_cases member : v ∈ order
  · obtain ⟨front, back, -, found⟩ := stamped.inside v member
    rw [found, Option.bind_map]
    rfl
  · rw [stamped.outside v member]

theorem append (order order' : List Nat) (middle after : List Node × Nat) (first : Stamped forest nodes next order middle)
    (second : Stamped forest middle.1 middle.2 order' after) (apart : ∀ k ∈ order, k ∉ order') :
    Stamped forest nodes next (order ++ order') after := by
  constructor
  · rw [second.count, first.count, List.length_append, Nat.add_assoc]
  · intro k member
    rw [List.mem_append, not_or] at member
    rw [second.outside k member.2, first.outside k member.1]
  · intro k member
    by_cases early : k ∈ order
    · obtain ⟨front, back, split, found⟩ := first.inside k early
      refine ⟨front, back ++ order', by rw [split]; simp only [List.append_assoc], ?_⟩
      rw [second.outside k (apart k early), found]
    · obtain ⟨front, back, split, found⟩ := second.inside k ((List.mem_append.mp member).resolve_left early)
      refine ⟨order ++ front, back, by rw [split]; simp only [List.append_assoc], ?_⟩
      rw [found, first.outside k early, first.count, List.length_append, Nat.add_assoc]

/-- A node is stamped after the nodes below it. -/
theorem node (v : Nat) (below : List Node × Nat) (children : List Nat)
    (order : forest.preorder v = v :: children) (fresh : v ∉ children)
    (stamped : Stamped forest nodes (next + 1) children below) :
    Stamped forest nodes next (forest.preorder v)
      (below.1.modify v (Node.setInterval (some (next, below.2))), below.2) := by
  have total : below.2 = next + (forest.preorder v).length := by
    rw [stamped.count, order, List.length_cons]
    omega
  have other (k : Nat) (different : k ≠ v) :
      (below.1.modify v (Node.setInterval (some (next, below.2))))[k]? = below.1[k]? := by
    rw [List.getElem?_modify]
    cases below.1[k]? with
    | none => rfl
    | some found => exact congrArg some (if_neg (Ne.symm different))
  constructor
  · exact total
  · intro k member
    rw [order, List.mem_cons, not_or] at member
    show (below.1.modify v _)[k]? = _
    rw [other k member.1, stamped.outside k member.2]
  · intro k member
    show ∃ front back, _ ∧ (below.1.modify v _)[k]? = _
    by_cases here : k = v
    · subst here
      refine ⟨[], [], by rw [List.nil_append, List.append_nil], ?_⟩
      rw [List.getElem?_modify, stamped.outside k fresh, total]
      cases nodes[k]? with
      | none => rfl
      | some found => exact congrArg some (if_pos rfl)
    · have inside : k ∈ children := by
        rw [order] at member
        exact (List.mem_cons.mp member).resolve_left here
      obtain ⟨front, back, split, found⟩ := stamped.inside k inside
      refine ⟨v :: front, back, by rw [order, split]; rfl, ?_⟩
      rw [other k here, found, List.length_cons, Nat.add_right_comm next 1, Nat.add_assoc next]

end Stamped

/-- The visits of some nodes with disjoint subtrees, one after the other. -/
theorem foldl_visit (fuel : Nat) (children : List Nat)
    (each : ∀ v ∈ children, ∀ nodes next, (∀ w, childrenOf nodes w = forest.children w) →
      Stamped forest nodes next (forest.preorder v) (visit fuel (nodes, next) v))
    (nodup : (children.flatMap forest.preorder).Nodup) (nodes : List Node) (next : Nat)
    (same : ∀ w, childrenOf nodes w = forest.children w) :
    Stamped forest nodes next (children.flatMap forest.preorder) (children.foldl (visit fuel) (nodes, next)) := by
  induction children generalizing nodes next with
  | nil => exact ⟨rfl, fun _ _ => rfl, nofun⟩
  | cons v rest ih =>
      have first := each v List.mem_cons_self nodes next same
      rw [List.flatMap_cons] at nodup ⊢
      obtain ⟨-, later, apart⟩ := List.nodup_append.mp nodup
      rw [List.foldl_cons]
      apply first.append forest nodes next _ _ _ _ _ (fun k here there => apart k here k there rfl)
      apply ih (fun w member => each w (List.mem_cons_of_mem _ member)) later
      intro w
      rw [first.childrenOf forest nodes next _ _ w, same w]

/-- The visit of a node stamps its subtree. -/
theorem visit_spec (fuel v : Nat) (bound : v < forest.size) (enough : forest.size - v ≤ fuel) (nodes : List Node)
    (next : Nat) (same : ∀ w, childrenOf nodes w = forest.children w) :
    Stamped forest nodes next (forest.preorder v) (visit fuel (nodes, next) v) := by
  induction fuel generalizing v nodes next with
  | zero => omega
  | succ fuel ih =>
      have nodup := forest.nodup_preorder v
      rw [forest.preorder_eq] at nodup
      obtain ⟨fresh, below⟩ := List.nodup_cons.mp nodup
      dsimp only [visit]
      rw [same v]
      apply Stamped.node forest nodes next v _ _ (forest.preorder_eq v) fresh
      apply foldl_visit forest fuel _ _ below nodes (next + 1) same
      intro w member nodes next same
      have after := forest.later v w member
      exact ih w after.2 (by omega) nodes next same

end Visit

section Tree
variable (hierarchy : Hierarchy) (orders : Orders) (network : Network) (built : Built hierarchy orders network [])
include built

/-- The children of an instance are those whose parent it is. -/
theorem mem_childrenOf (v c : Nat) : c ∈ childrenOf network.instances v ↔
    0 < c ∧ ∃ node, network.instances[c]? = some node ∧ node.parent = some v := by
  constructor
  · intro member
    unfold childrenOf at member
    cases found : network.instances[v]? with
    | none =>
        rw [found] at member
        contradiction
    | some node =>
        obtain ⟨design, model, -⟩ := built.models v node found
        obtain ⟨first, range, later, -, each⟩ := built.expanded v node design found List.not_mem_nil model
        rw [found, Option.bind_some, range, mem_identifiers_rangeOf] at member
        obtain ⟨position, rfl⟩ := Nat.exists_eq_add_of_le member.1
        exact ⟨by omega, each position (by omega)⟩
  · intro entered
    obtain ⟨positive, node, found, parent⟩ := entered
    obtain ⟨up, above, design, position, inst, first, parent', -, foundUp, -, listed, children, same, -⟩ :=
      built.entered c node positive found
    obtain rfl := Option.some.inj (parent'.symm.trans parent)
    have bound := (List.getElem?_eq_some_iff.mp listed).1
    unfold childrenOf
    rw [foundUp, Option.bind_some, children, mem_identifiers_rangeOf]
    omega

/-- The instance tree on the numbers of the instances. -/
def forest : Unfolding.Forest where
  size := network.instances.length
  children := childrenOf network.instances
  later := by
    intro v c member
    obtain ⟨positive, node, found, parent⟩ := (mem_childrenOf hierarchy orders network built v c).mp member
    obtain ⟨up, above, design, position, inst, first, parent', -, foundUp, model, listed, children, same, -⟩ :=
      built.entered c node positive found
    obtain rfl := Option.some.inj (parent'.symm.trans parent)
    obtain ⟨first', children', later, -⟩ := built.expanded up above design foundUp List.not_mem_nil model
    have bound := (List.getElem?_eq_some_iff.mp listed).1
    rw [children, rangeOf_of_pos _ _ (by omega), rangeOf_of_pos _ _ (by omega), Option.some.injEq, Prod.mk.injEq]
      at children'
    exact ⟨by omega, (List.getElem?_eq_some_iff.mp found).1⟩
  single := by
    intro v w c inV inW
    obtain ⟨-, node, found, parent⟩ := (mem_childrenOf hierarchy orders network built v c).mp inV
    obtain ⟨-, node', found', parent'⟩ := (mem_childrenOf hierarchy orders network built w c).mp inW
    rw [found, Option.some.injEq] at found'
    subst found'
    exact Option.some.inj (parent.symm.trans parent')
  distinct := by
    intro v
    unfold childrenOf
    cases network.instances[v]?.bind Node.children with
    | none => exact List.nodup_nil
    | some range => exact List.nodup_range'

/-- Every instance is below the top. -/
theorem above_top (id : Nat) (bound : id < network.instances.length) :
    (forest hierarchy orders network built).Above 0 id := by
  induction id using Nat.strongRecOn with
  | ind id ih =>
      by_cases positive : 0 < id
      · obtain ⟨up, above, design, position, inst, first, parent, -⟩ :=
          built.entered id _ positive (List.getElem?_eq_getElem bound)
        have edge : id ∈ (forest hierarchy orders network built).children up :=
          (mem_childrenOf hierarchy orders network built up id).mpr
            ⟨positive, _, List.getElem?_eq_getElem bound, parent⟩
        have later := (forest hierarchy orders network built).later up id edge
        exact .tail (ih up later.1 (by omega)) edge
      · obtain rfl : id = 0 := by omega
        exact .refl

/-- After the visit, being below is read off the intervals. -/
theorem isUnder_iff (a b : Nat) (nodeA nodeB : Node) (foundA : (initDFSIntervals network).instances[a]? = some nodeA)
    (foundB : (initDFSIntervals network).instances[b]? = some nodeB) :
    nodeA.isUnder nodeB = true ↔ (forest hierarchy orders network built).Above b a := by
  obtain ⟨root, start, -⟩ := built.root
  have positive := (List.getElem?_eq_some_iff.mp start).1
  have stamped := visit_spec (forest hierarchy orders network built) network.instances.length 0 positive (Nat.sub_le _ _)
    network.instances 0 (fun _ => rfl)
  have interval (k : Nat) (node : Node) (found : (initDFSIntervals network).instances[k]? = some node) :
      ∃ front back, (forest hierarchy orders network built).preorder 0 =
        front ++ (forest hierarchy orders network built).preorder k ++ back ∧
      node.interval = some (front.length, front.length + ((forest hierarchy orders network built).preorder k).length) := by
    have member : k ∈ (forest hierarchy orders network built).preorder 0 := by
      by_contra outside
      have known := (stamped.outside k outside).symm.trans found
      exact outside (((forest hierarchy orders network built).mem_preorder 0 k).mpr
        (above_top hierarchy orders network built k (List.getElem?_eq_some_iff.mp known).1))
    obtain ⟨front, back, split, found'⟩ := stamped.inside k member
    refine ⟨front, back, split, ?_⟩
    obtain ⟨before, -, rfl⟩ := Option.map_eq_some_iff.mp (found'.symm.trans found)
    show some _ = _
    rw [Nat.zero_add]
  obtain ⟨front, back, splitA, intervalA⟩ := interval a nodeA foundA
  obtain ⟨front', back', splitB, intervalB⟩ := interval b nodeB foundB
  unfold Node.isUnder
  rw [intervalA, intervalB, (forest hierarchy orders network built).above_iff_between 0 b a front' back' front back splitB splitA,
    Bool.and_eq_true, decide_eq_true_iff, decide_eq_true_iff]

end Tree
end Naja.Dnl
