import Naja.Dnl.Numbering

/-! What every round of the loop keeps: an instance off the stack has the instances of
its model as children, in one range after itself, and every instance but the top is
in the range of its parent. -/

namespace Naja.Dnl

/-- The children of the instance `id` are set, those of every other one are kept. -/
def Node.expandAt (id : Nat) (range : Option (Nat × Nat)) (k : Nat) (node : Node) : Node :=
  if id = k then node.setChildren range else node

section ExpandAt
variable (id : Nat) (range : Option (Nat × Nat)) (k : Nat) (node : Node)

@[simp] theorem Node.expandAt_object : (node.expandAt id range k).object = node.object := by
  unfold expandAt
  split <;> rfl

@[simp] theorem Node.expandAt_id : (node.expandAt id range k).id = node.id := by
  unfold expandAt
  split <;> rfl

@[simp] theorem Node.expandAt_parent : (node.expandAt id range k).parent = node.parent := by
  unfold expandAt
  split <;> rfl

@[simp] theorem Node.expandAt_terms : (node.expandAt id range k).terms = node.terms := by
  unfold expandAt
  split <;> rfl

@[simp] theorem Node.expandAt_model (hierarchy : Hierarchy) :
    (node.expandAt id range k).model hierarchy = node.model hierarchy := by
  unfold model
  rw [expandAt_object, expandAt_id]

theorem Node.expandAt_self : (node.expandAt id range id).children = range := by
  rw [expandAt, if_pos rfl]
  rfl

theorem Node.expandAt_of_ne (other : id ≠ k) : node.expandAt id range k = node := if_neg other

end ExpandAt

section Invariant
variable (hierarchy : Hierarchy) (orders : Orders)

theorem Node.model_of_object (node : Node) (design position : Nat) (inst : Instance)
    (object : node.object = some ⟨design, position⟩)
    (found : (hierarchy.design design).instances[position]? = some inst) : node.model hierarchy = some inst.model := by
  unfold Node.model
  rw [object]
  exact congrArg (Option.map _) found

structure Built (network : Network) (pending : List Nat) : Prop where
  root : ∃ node : Node, network.instances[0]? = some node ∧ node.object = none ∧ node.parent = none
  ids : ∀ (id : Nat) (node : Node), network.instances[id]? = some node → node.id = id
  entered : ∀ (id : Nat) (node : Node), 0 < id → network.instances[id]? = some node →
    ∃ up : Nat, ∃ above : Node, ∃ design position inst first, node.parent = some up ∧ node.object = some ⟨design, position⟩ ∧
      network.instances[up]? = some above ∧ above.model hierarchy = some design ∧
      (hierarchy.design design).instances[position]? = some inst ∧
      above.children = rangeOf first (hierarchy.design design).instances.length ∧ id = first + position ∧ up ∉ pending
  expanded : ∀ (id : Nat) (node : Node) design, network.instances[id]? = some node → id ∉ pending →
    node.model hierarchy = some design → ∃ first, node.children = rangeOf first (hierarchy.design design).instances.length ∧
      id < first ∧ first + (hierarchy.design design).instances.length ≤ network.instances.length ∧
      ∀ position < (hierarchy.design design).instances.length,
        ∃ child : Node, network.instances[first + position]? = some child ∧ child.parent = some id
  models : ∀ (id : Nat) (node : Node), network.instances[id]? = some node → ∃ design, node.model hierarchy = some design ∧
    hierarchy.Reached design ∧ TermsAt hierarchy orders network.terms node design
  distinct : pending.Nodup
  bound : ∀ id ∈ pending, id < network.instances.length
  leaves : ∀ (id : Nat) (node : Node) design, network.instances[id]? = some node → node.model hierarchy = some design →
    (id ∈ network.leaves ↔ 0 < id ∧ (hierarchy.design design).instances = [])
  leavesBound : ∀ id ∈ network.leaves, id < network.instances.length
  covered : ∀ place < network.terms.length,
    ∃ id : Nat, ∃ node : Node, network.instances[id]? = some node ∧ place ∈ identifiers node.terms

/-- All designs of the tree have their order IDs. -/
def Ready : Prop := ∀ design, hierarchy.Reached design → InstancesOrdered hierarchy orders design ∧
  TermsOrdered hierarchy orders design

theorem Hierarchy.Reached.model (design position : Nat) (inst : Instance) (reached : hierarchy.Reached design)
    (found : (hierarchy.design design).instances[position]? = some inst) : hierarchy.Reached inst.model := by
  obtain ⟨path, leads⟩ := reached
  refine ⟨path ++ [position], ?_⟩
  rw [Unfolding.walk_concat, leads, Option.bind_some]
  exact congrArg (Option.map _) found

variable (ready : Ready hierarchy orders)
include ready

/-- The numbering of the top instance alone. -/
theorem Built.topNetwork : Built hierarchy orders (topNetwork hierarchy orders) [0] := by
  have reached : hierarchy.Reached hierarchy.top := ⟨[], rfl⟩
  have ordered := (ready hierarchy.top reached).2
  obtain ⟨count, -⟩ := sortedTerms_spec hierarchy orders hierarchy.top ordered _ (List.Perm.refl _)
  have range : termIndexes 0 (addTerms 0 none [] (sortedTerms (orders.ofBitTerm hierarchy.top)
      (List.range (hierarchy.design hierarchy.top).bitTerms))) = rangeOf 0 (hierarchy.design hierarchy.top).bitTerms := by
    have read := termIndexes_addTerms 0 none []
      (sortedTerms (orders.ofBitTerm hierarchy.top) (List.range (hierarchy.design hierarchy.top).bitTerms))
    rw [count] at read
    exact read
  dsimp only [Dnl.topNetwork]
  rw [range]
  have only (id : Nat) (node : Node)
      (found : [(⟨none, 0, none, some (0, 0), rangeOf 0 (hierarchy.design hierarchy.top).bitTerms, none⟩ : Node)][id]? = some node) :
      id = 0 ∧ node = ⟨none, 0, none, some (0, 0), rangeOf 0 (hierarchy.design hierarchy.top).bitTerms, none⟩ := by
    cases id with
    | zero => exact ⟨rfl, (Option.some.inj found).symm⟩
    | succ id => nomatch found
  constructor
  · exact ⟨_, rfl, rfl, rfl⟩
  · intro id node found
    obtain ⟨rfl, rfl⟩ := only id node found
    rfl
  · intro id node positive found
    obtain ⟨rfl, -⟩ := only id node found
    omega
  · intro id node design found outside
    obtain ⟨rfl, -⟩ := only id node found
    exact absurd List.mem_cons_self outside
  · intro id node found
    obtain ⟨rfl, rfl⟩ := only id node found
    exact ⟨hierarchy.top, rfl, reached,
      TermsAt.added hierarchy orders [] _ hierarchy.top _ ordered (List.Perm.refl _) rfl⟩
  · exact List.nodup_singleton 0
  · intro id member
    rw [List.mem_singleton.mp member]
    exact Nat.one_pos
  · intro id node design found _
    obtain ⟨rfl, -⟩ := only id node found
    exact iff_of_false nofun (fun both => Nat.lt_irrefl 0 both.1)
  · nofun
  · intro place bound
    refine ⟨0, _, rfl, (mem_identifiers_rangeOf 0 _ place).mpr ⟨Nat.zero_le _, ?_⟩⟩
    rw [addTerms_length, count] at bound
    exact bound

variable (indexes : Nat → List Terminal → Option (Option (Nat × Nat)))
  (faithful : ∀ first terms range, indexes first terms = some range → range = termIndexes first terms)
include faithful

/-- The instances of one model are added, and the parent gets their range. -/
theorem addChildren_spec (design parent : Nat) (network after : Network) (reached : hierarchy.Reached design)
    (made : addChildren hierarchy orders indexes design parent network = some after) :
    ∃ middle, Added hierarchy orders design parent network (hierarchy.design design).instances middle ∧
      after.terms = middle.terms ∧ after.leaves = middle.leaves ∧ after.stack = middle.stack ∧
      after.instances.length = middle.instances.length ∧
      ∀ k, after.instances[k]? = middle.instances[k]?.map (fun node : Node => node.expandAt parent
        (rangeOf network.instances.length (hierarchy.design design).instances.length) k) := by
  obtain ⟨middle, looped, rfl⟩ := Option.map_eq_some_iff.mp made
  have all : Added hierarchy orders design parent network (hierarchy.design design).instances middle := by
    apply Added.loop hierarchy orders indexes faithful design parent network _ _ (hierarchy.instTerms_perm design)
      middle looped
    intro inst member
    obtain ⟨position, found⟩ := List.mem_iff_getElem?.mp member
    exact (ready inst.model (Hierarchy.Reached.model hierarchy design position inst reached found)).2
  have range : childrenIndexes network.instances.length middle.instances =
      rangeOf network.instances.length (hierarchy.design design).instances.length := by
    unfold childrenIndexes rangeOf
    rw [all.length]
    cases count : (hierarchy.design design).instances.length with
    | zero => rw [if_pos (Nat.add_zero _).symm, if_pos rfl]
    | succ below =>
        obtain ⟨node, last, -, id, -⟩ := all.fresh below _ (List.getElem?_eq_getElem (by omega))
        rw [if_neg (by omega), if_neg (by omega), List.getLast?_eq_getElem?, all.length, count,
          show network.instances.length + (below + 1) - 1 = network.instances.length + below by omega, last,
          Option.map_some, id]
  rw [range]
  refine ⟨middle, all, rfl, rfl, rfl, List.length_modify _ _ _, fun k => ?_⟩
  rw [List.getElem?_modify]
  cases middle.instances[k]? with
  | none => rfl
  | some node =>
      apply congrArg some
      unfold Node.expandAt
      split <;> rfl

/-- The instance on top of the stack is expanded. -/
theorem Built.addChildren (network after : Network) (id : Nat) (rest : List Nat) (node : Node) (design : Nat)
    (inv : Built hierarchy orders network (id :: rest)) (here : network.instances[id]? = some node)
    (model : node.model hierarchy = some design)
    (made : addChildren hierarchy orders indexes design id network = some after) :
    Built hierarchy orders after
      ((List.range' network.instances.length (hierarchy.design design).instances.length).reverse ++ rest) := by
  have reached : hierarchy.Reached design := by
    obtain ⟨design', model', reached, -⟩ := inv.models id node here
    rw [model, Option.some.injEq] at model'
    exact model' ▸ reached
  obtain ⟨middle, all, terms, leaves, -, length, each⟩ :=
    addChildren_spec hierarchy orders ready indexes faithful design id network after reached made
  have inside := (List.getElem?_eq_some_iff.mp here).1
  have lengths := all.length
  generalize sameRange : rangeOf network.instances.length (hierarchy.design design).instances.length = range at each
  have old (k : Nat) (before : Node) (found : network.instances[k]? = some before) :
      after.instances[k]? = some (before.expandAt id range k) := by
    rw [each k, all.kept k (List.getElem?_eq_some_iff.mp found).1, found]
    rfl
  have new (k : Nat) (beyond : network.instances.length ≤ k) : after.instances[k]? = middle.instances[k]? := by
    rw [each k]
    cases middle.instances[k]? with
    | none => rfl
    | some found => exact congrArg some (found.expandAt_of_ne id range k (by omega))
  -- the instances are those from before and one for each instance of the model
  have kinds (k : Nat) (found : Node) (place : after.instances[k]? = some found) :
      (∃ before, network.instances[k]? = some before ∧ found = before.expandAt id range k) ∨
      (∃ position inst, k = network.instances.length + position ∧
        (hierarchy.design design).instances[position]? = some inst ∧ found.object = some ⟨design, position⟩ ∧
        found.id = k ∧ found.parent = some id ∧ TermsAt hierarchy orders middle.terms found inst.model) := by
    by_cases before : k < network.instances.length
    · have known : network.instances[k]? = some _ := List.getElem?_eq_getElem before
      rw [old k _ known, Option.some.injEq] at place
      exact Or.inl ⟨_, known, place.symm⟩
    · right
      rw [new k (by omega)] at place
      have bound := (List.getElem?_eq_some_iff.mp place).1
      obtain ⟨position, rfl⟩ := Nat.exists_eq_add_of_le (Nat.le_of_not_lt before)
      have model' : (hierarchy.design design).instances[position]? = some _ := List.getElem?_eq_getElem (by omega)
      obtain ⟨fresh, found', object, number, up, at_⟩ := all.fresh position _ model'
      rw [place, Option.some.injEq] at found'
      subst found'
      exact ⟨position, _, rfl, model', object, number, up, at_⟩
  have mem_pending (k : Nat) : k ∈ (List.range' network.instances.length
      (hierarchy.design design).instances.length).reverse ++ rest ↔
      (network.instances.length ≤ k ∧ k < network.instances.length + (hierarchy.design design).instances.length) ∨
        k ∈ rest := by
    rw [List.mem_append, List.mem_reverse, List.mem_range'_1]
  obtain ⟨apart, distinct⟩ := List.nodup_cons.mp inv.distinct
  obtain ⟨more, grown⟩ := all.terms
  constructor
  · obtain ⟨root, found, object, parent⟩ := inv.root
    exact ⟨_, old 0 root found, by rw [Node.expandAt_object, object], by rw [Node.expandAt_parent, parent]⟩
  · intro k found place
    rcases kinds k found place with ⟨before, known, rfl⟩ | ⟨position, inst, -, -, -, number, -⟩
    · rw [Node.expandAt_id, inv.ids k before known]
    · exact number
  · intro k found positive place
    rcases kinds k found place with ⟨before, known, rfl⟩ | ⟨position, inst, same, listed, object, -, parent, -⟩
    · obtain ⟨up, above, design', position, inst, first, parent, object, foundUp, modelUp, listed, children, same, outside⟩ :=
        inv.entered k before positive known
      rw [List.mem_cons, not_or] at outside
      have bound := (List.getElem?_eq_some_iff.mp foundUp).1
      refine ⟨up, above, design', position, inst, first, by rw [Node.expandAt_parent, parent],
        by rw [Node.expandAt_object, object], ?_, modelUp, listed, children, same, ?_⟩
      · rw [old up above foundUp, Node.expandAt_of_ne id range up above (Ne.symm outside.1)]
      · rw [mem_pending, not_or]
        exact ⟨by omega, outside.2⟩
    · refine ⟨id, _, design, position, inst, network.instances.length, parent, object, old id node here,
        by rw [Node.expandAt_model, model], listed, by rw [Node.expandAt_self, sameRange], same, ?_⟩
      rw [mem_pending, not_or]
      exact ⟨by omega, apart⟩
  · intro k found design' place outside modelK
    rw [mem_pending, not_or] at outside
    rcases kinds k found place with ⟨before, known, rfl⟩ | ⟨position, inst, same, listed, -⟩
    · rw [Node.expandAt_model] at modelK
      by_cases here' : id = k
      · subst here'
        rw [here, Option.some.injEq] at known
        subst known
        rw [model, Option.some.injEq] at modelK
        subst modelK
        refine ⟨network.instances.length, by rw [Node.expandAt_self, sameRange], inside, by omega, ?_⟩
        intro position bound
        obtain ⟨child, foundChild, -, -, parent, -⟩ := all.fresh position _ (List.getElem?_eq_getElem bound)
        exact ⟨child, by rw [new _ (by omega), foundChild], parent⟩
      · have waiting : k ∉ id :: rest := by
          rw [List.mem_cons, not_or]
          exact ⟨Ne.symm here', outside.2⟩
        obtain ⟨first, children, later, fits, each'⟩ := inv.expanded k before design' known waiting modelK
        rw [Node.expandAt_of_ne id range k before here']
        refine ⟨first, children, later, by omega, ?_⟩
        intro position bound
        obtain ⟨child, foundChild, parent⟩ := each' position bound
        exact ⟨_, old _ child foundChild, by rw [Node.expandAt_parent, parent]⟩
    · have bound := (List.getElem?_eq_some_iff.mp listed).1
      omega
  · intro k found place
    rw [terms]
    rcases kinds k found place with ⟨before, known, rfl⟩ | ⟨position, inst, -, listed, object, -, -, at_⟩
    · obtain ⟨design', modelK, reachedK, first, rangeK, each'⟩ := inv.models k before known
      refine ⟨design', by rw [Node.expandAt_model, modelK], reachedK, ?_⟩
      rw [grown]
      apply TermsAt.append hierarchy orders network.terms more
      refine ⟨first, by rw [Node.expandAt_terms, rangeK], ?_⟩
      rw [Node.expandAt_id, Node.expandAt_object]
      exact each'
    · exact ⟨inst.model, Node.model_of_object hierarchy found design position inst object listed,
        Hierarchy.Reached.model hierarchy design position inst reached listed, at_⟩
  · apply List.nodup_append.mpr ⟨List.nodup_reverse.mpr List.nodup_range', distinct, _⟩
    intro k fresh k' waiting same
    rw [List.mem_reverse, List.mem_range'_1] at fresh
    have bound := inv.bound k' (List.mem_cons_of_mem _ waiting)
    omega
  · intro k member
    rcases (mem_pending k).mp member with fresh | waiting
    · omega
    · have bound := inv.bound k (List.mem_cons_of_mem _ waiting)
      omega
  · intro k found design' place modelK
    rw [leaves, all.leaves k]
    rcases kinds k found place with ⟨before, known, rfl⟩ | ⟨position, inst, same, listed, object, -⟩
    · rw [Node.expandAt_model] at modelK
      rw [inv.leaves k before design' known modelK, or_iff_left]
      intro fresh
      obtain ⟨position, inst, -, same, -⟩ := fresh
      have bound := (List.getElem?_eq_some_iff.mp known).1
      omega
    · rw [Node.model_of_object hierarchy found design position inst object listed, Option.some.injEq] at modelK
      subst modelK
      constructor
      · intro either
        rcases either with before | ⟨position', inst', listed', same', empty⟩
        · have bound := inv.leavesBound k before
          omega
        · obtain rfl : position = position' := by omega
          rw [listed, Option.some.injEq] at listed'
          subst listed'
          exact ⟨by omega, empty⟩
      · intro both
        exact Or.inr ⟨position, inst, listed, same, both.2⟩
  · intro k member
    rw [leaves, all.leaves k] at member
    rcases member with before | ⟨position, inst, listed, same, -⟩
    · have bound := inv.leavesBound k before
      omega
    · have bound := (List.getElem?_eq_some_iff.mp listed).1
      omega
  · intro place bound
    rw [terms] at bound
    by_cases earlier : place < network.terms.length
    · obtain ⟨k, owner, found, covers⟩ := inv.covered place earlier
      exact ⟨k, _, old k owner found, by rw [Node.expandAt_terms]; exact covers⟩
    · obtain ⟨k, owner, found, beyond, covers⟩ := all.covered place (by omega) bound
      exact ⟨k, owner, by rw [new k beyond, found], covers⟩

end Invariant
end Naja.Dnl
