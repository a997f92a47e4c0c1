import Naja.Dnl.Invariant

/-! The loop over the stack ends. It is undefined exactly when the first instance below the
first level has no terminals and nothing before it has any. -/

namespace Naja.Dnl

section Loop
variable (hierarchy : Hierarchy) (orders : Orders)

/-- The models of the instances on the stack, the top of the stack first. -/
def models (network : Network) : List Nat :=
  network.stack.filterMap (fun id => network.instances[id]?.bind (Node.model hierarchy))

/-- A terminal is there before the loop first reads the last one. -/
def Anchored (network : Network) : Prop :=
  network.terms ≠ [] ∨ ∀ first ∈ ((models hierarchy network).flatMap (fun design => (hierarchy.design design).instances)).head?,
    (hierarchy.design first.model).bitTerms ≠ 0

theorem models_cons (network : Network) (id : Nat) (rest : List Nat) (node : Node) (design : Nat)
    (stack : network.stack = id :: rest) (here : network.instances[id]? = some node)
    (model : node.model hierarchy = some design) :
    models hierarchy network = design :: models hierarchy { network with stack := rest } := by
  unfold models
  rw [stack]
  apply List.filterMap_cons_some
  rw [here, Option.bind_some, model]

theorem stack_of_stuck (network : Network) (stuck : expand hierarchy orders (some network) = none) :
    network.stack = [] := by
  cases stack : network.stack with
  | nil => rfl
  | cons id rest =>
      dsimp only [expand] at stuck
      rw [stack] at stuck
      contradiction

theorem Built.withStack (network : Network) (pending stack : List Nat) (built : Built hierarchy orders network pending) :
    Built hierarchy orders { network with stack := stack } pending :=
  ⟨built.root, built.ids, built.entered, built.expanded, built.models, built.distinct, built.bound, built.leaves,
    built.leavesBound, built.covered⟩

theorem foldlM_some {α β : Type} (f : α → β → Option α) (P : α → Prop) (entries : List β)
    (each : ∀ s, P s → ∀ entry ∈ entries, ∃ s', f s entry = some s' ∧ P s') (s : α) (start : P s) :
    ∃ s', entries.foldlM f s = some s' ∧ P s' := by
  induction entries generalizing s with
  | nil => exact ⟨s, rfl, start⟩
  | cons entry rest ih =>
      obtain ⟨middle, first, kept⟩ := each s start entry List.mem_cons_self
      obtain ⟨s', later, kept'⟩ := ih (fun s held x member => each s held x (List.mem_cons_of_mem _ member)) middle kept
      exact ⟨s', by rw [List.foldlM_cons, first]; exact later, kept'⟩

theorem filterMap_range' {α : Type} (f : Nat → Option α) (start : Nat) (xs : List α)
    (each : ∀ k x, xs[k]? = some x → f (start + k) = some x) : (List.range' start xs.length).filterMap f = xs := by
  induction xs generalizing start with
  | nil => rfl
  | cons x rest ih =>
      rw [List.length_cons, List.range'_succ, List.filterMap_cons_some (show f start = some x from each 0 x rfl), ih (start + 1)]
      intro k y found
      rw [Nat.add_assoc, Nat.add_comm 1 k]
      exact each (k + 1) y found

variable (ready : Ready hierarchy orders)
include ready

theorem sortedTerms_length (design : Nat) (inst : Instance) (reached : hierarchy.Reached design)
    (member : inst ∈ (hierarchy.design design).instances) :
    (sortedTerms (orders.ofBitTerm inst.model) inst.instTerms).length = (hierarchy.design inst.model).bitTerms := by
  obtain ⟨position, found⟩ := List.mem_iff_getElem?.mp member
  have ordered := (ready inst.model (Hierarchy.Reached.model hierarchy design position inst reached found)).2
  exact (sortedTerms_spec hierarchy orders inst.model ordered inst.instTerms (hierarchy.instTerms_perm design inst member)).1

/-- Below the first level one more instance is defined when a terminal is there after it. -/
theorem addInstance_nested (design parent : Nat) (network : Network) (entry : Instance × Nat)
    (reached : hierarchy.Reached design) (member : entry.1 ∈ (hierarchy.design design).instances)
    (some_ : network.terms ≠ [] ∨ (hierarchy.design entry.1.model).bitTerms ≠ 0) :
    ∃ after, addInstance hierarchy orders nestedTermIndexes design parent network entry = some after ∧
      after.terms ≠ [] := by
  have count := sortedTerms_length hierarchy orders ready design entry.1 reached member
  have filled : addTerms network.instances.length (some ⟨design, entry.2⟩) network.terms
      (sortedTerms (orders.ofBitTerm entry.1.model) entry.1.instTerms) ≠ [] := by
    rw [← List.length_pos_iff, addTerms_length, count]
    rcases some_ with before | own
    · have positive := List.length_pos_iff.mpr before
      omega
    · omega
  dsimp only [addInstance, nestedTermIndexes]
  rw [List.getLast?_eq_some_getLast filled]
  exact ⟨_, rfl, filled⟩

theorem addInstance_undefined (design parent : Nat) (network : Network) (entry : Instance × Nat)
    (reached : hierarchy.Reached design) (member : entry.1 ∈ (hierarchy.design design).instances)
    (before : network.terms = []) (own : (hierarchy.design entry.1.model).bitTerms = 0) :
    addInstance hierarchy orders nestedTermIndexes design parent network entry = none := by
  have count := sortedTerms_length hierarchy orders ready design entry.1 reached member
  have empty : addTerms network.instances.length (some ⟨design, entry.2⟩) network.terms
      (sortedTerms (orders.ofBitTerm entry.1.model) entry.1.instTerms) = [] := by
    rw [← List.length_eq_zero_iff, addTerms_length, count, own, before]
    rfl
  dsimp only [addInstance, nestedTermIndexes]
  rw [empty]
  rfl

theorem addChildren_nested (design parent : Nat) (network : Network) (reached : hierarchy.Reached design)
    (before : network.terms ≠ []) :
    ∃ after, addChildren hierarchy orders nestedTermIndexes design parent network = some after ∧ after.terms ≠ [] := by
  obtain ⟨after, made, filled⟩ := foldlM_some (addInstance hierarchy orders nestedTermIndexes design parent)
    (fun network => network.terms ≠ []) (hierarchy.design design).instances.zipIdx
    (fun s filled entry member => addInstance_nested hierarchy orders ready design parent s entry reached
      (List.fst_mem_of_mem_zipIdx member) (Or.inl filled)) network before
  unfold addChildren
  rw [made]
  exact ⟨_, rfl, filled⟩

/-- The models on the stack after an expansion. -/
theorem models_addChildren (network after : Network) (id : Nat) (rest : List Nat) (node : Node) (design : Nat)
    (indexes : Nat → List Terminal → Option (Option (Nat × Nat)))
    (faithful : ∀ first terms range, indexes first terms = some range → range = termIndexes first terms)
    (inv : Built hierarchy orders network (id :: rest)) (stack : network.stack = rest)
    (here : network.instances[id]? = some node) (model : node.model hierarchy = some design)
    (made : addChildren hierarchy orders indexes design id network = some after) :
    after.stack = (List.range' network.instances.length (hierarchy.design design).instances.length).reverse ++ rest ∧
      models hierarchy after = ((hierarchy.design design).instances.map (·.model)).reverse ++ models hierarchy network := by
  have reached : hierarchy.Reached design := by
    obtain ⟨design', model', reached, -⟩ := inv.models id node here
    rw [model, Option.some.injEq] at model'
    exact model' ▸ reached
  obtain ⟨middle, all, -, -, stacked, -, each⟩ :=
    addChildren_spec hierarchy orders ready indexes faithful design id network after reached made
  rw [all.stack, stack] at stacked
  refine ⟨stacked, ?_⟩
  have sameModel (k : Nat) : after.instances[k]?.bind (Node.model hierarchy) =
      middle.instances[k]?.bind (Node.model hierarchy) := by
    rw [each k]
    cases middle.instances[k]? with
    | none => rfl
    | some found => exact Node.expandAt_model id _ k found hierarchy
  unfold models
  simp only [sameModel]
  rw [stacked, List.filterMap_append, stack]
  congr 1
  · rw [List.filterMap_reverse]
    congr 1
    have found := filterMap_range' (fun k => middle.instances[k]?.bind (Node.model hierarchy)) network.instances.length
      ((hierarchy.design design).instances.map (·.model))
    rw [List.length_map] at found
    apply found
    intro position model'
    rw [List.getElem?_map, Option.map_eq_some_iff]
    rintro ⟨inst, listed, rfl⟩
    obtain ⟨fresh, place, object, -⟩ := all.fresh position inst listed
    rw [place, Option.bind_some, Node.model_of_object hierarchy fresh design position inst object listed]
  · apply List.filterMap_congr
    intro k member
    rw [all.kept k (inv.bound k (List.mem_cons_of_mem _ member))]

/-- The expansion of the instance on top of the stack. -/
theorem anchored_addChildren (network : Network) (id : Nat) (rest : List Nat) (node : Node) (design : Nat)
    (inv : Built hierarchy orders network (id :: rest)) (stack : network.stack = id :: rest)
    (here : network.instances[id]? = some node) (model : node.model hierarchy = some design) :
    Anchored hierarchy network ↔ ∃ after, addChildren hierarchy orders nestedTermIndexes design id
      { network with stack := rest } = some after ∧ Anchored hierarchy after := by
  have reached : hierarchy.Reached design := by
    obtain ⟨design', model', reached, -⟩ := inv.models id node here
    rw [model, Option.some.injEq] at model'
    exact model' ▸ reached
  have below := models_cons hierarchy network id rest node design stack here model
  by_cases filled : network.terms = []
  · cases instances : (hierarchy.design design).instances with
    | nil =>
        have made : addChildren hierarchy orders nestedTermIndexes design id { network with stack := rest } =
            some { network with stack := rest, instances := network.instances.modify id (Node.setChildren
              (childrenIndexes network.instances.length network.instances)) } := by
          unfold addChildren
          rw [instances]
          rfl
        obtain ⟨-, same⟩ := models_addChildren hierarchy orders ready { network with stack := rest } _ id rest node design
          nestedTermIndexes nestedTermIndexes_eq (inv.withStack hierarchy orders network _ rest) rfl here model made
        rw [instances] at same
        have equal : Anchored hierarchy network ↔ Anchored hierarchy { network with
            stack := rest, instances := network.instances.modify id (Node.setChildren
              (childrenIndexes network.instances.length network.instances)) } := by
          unfold Anchored
          rw [below, same, List.flatMap_cons, instances]
          rfl
        rw [equal, made]
        exact ⟨fun anchored => ⟨_, rfl, anchored⟩, fun found => by obtain ⟨after, same, anchored⟩ := found; cases same; exact anchored⟩
    | cons first others =>
        have member : first ∈ (hierarchy.design design).instances := by
          rw [instances]
          exact List.mem_cons_self
        have head : Anchored hierarchy network ↔ (hierarchy.design first.model).bitTerms ≠ 0 := by
          unfold Anchored
          rw [below, List.flatMap_cons, instances, or_iff_right (not_not_intro filled), List.cons_append,
            List.head?_cons]
          exact ⟨fun each => each first rfl, fun own other same => Option.some.inj same ▸ own⟩
        rw [head]
        unfold addChildren
        rw [instances, List.zipIdx_cons, List.foldlM_cons]
        by_cases own : (hierarchy.design first.model).bitTerms = 0
        · rw [addInstance_undefined hierarchy orders ready design id { network with stack := rest } (first, 0) reached
            member filled own]
          exact iff_of_false (fun some_ => some_ own) (fun found => by obtain ⟨after, same, -⟩ := found; nomatch same)
        · obtain ⟨middle, made, kept⟩ := addInstance_nested hierarchy orders ready design id
            { network with stack := rest } (first, 0) reached member (Or.inr own)
          obtain ⟨after, made', kept'⟩ := foldlM_some (addInstance hierarchy orders nestedTermIndexes design id)
            (fun network => network.terms ≠ []) (others.zipIdx (0 + 1))
            (fun s filled entry inside => addInstance_nested hierarchy orders ready design id s entry reached
              (by rw [instances]; exact List.mem_cons_of_mem _ (List.fst_mem_of_mem_zipIdx inside)) (Or.inl filled))
            middle kept
          rw [made, Option.bind_eq_bind, Option.bind_some, made']
          exact iff_of_true own ⟨_, rfl, Or.inl kept'⟩
  · obtain ⟨after, made, kept⟩ := addChildren_nested hierarchy orders ready design id { network with stack := rest }
      reached filled
    exact iff_of_true (Or.inl filled) ⟨after, made, Or.inl kept⟩

theorem addInstance_terms (indexes : Nat → List Terminal → Option (Option (Nat × Nat))) (design parent : Nat)
    (network after : Network) (entry : Instance × Nat) (reached : hierarchy.Reached design)
    (member : entry.1 ∈ (hierarchy.design design).instances)
    (made : addInstance hierarchy orders indexes design parent network entry = some after) :
    after.terms = [] ↔ network.terms = [] ∧ (hierarchy.design entry.1.model).bitTerms = 0 := by
  have count := sortedTerms_length hierarchy orders ready design entry.1 reached member
  obtain ⟨range, -, rfl⟩ := Option.map_eq_some_iff.mp made
  rw [← List.length_eq_zero_iff, addTerms_length, count, Nat.add_eq_zero_iff, List.length_eq_zero_iff]

theorem foldlM_terms (indexes : Nat → List Terminal → Option (Option (Nat × Nat))) (design parent : Nat)
    (reached : hierarchy.Reached design) (entries : List (Instance × Nat))
    (members : ∀ entry ∈ entries, entry.1 ∈ (hierarchy.design design).instances) (network after : Network)
    (made : entries.foldlM (addInstance hierarchy orders indexes design parent) network = some after) :
    after.terms = [] ↔ network.terms = [] ∧ ∀ entry ∈ entries, (hierarchy.design entry.1.model).bitTerms = 0 := by
  induction entries generalizing network with
  | nil =>
      obtain rfl := Option.some.inj made
      exact (and_iff_left nofun).symm
  | cons entry rest ih =>
      rw [List.foldlM_cons, Option.bind_eq_bind, Option.bind_eq_some_iff] at made
      obtain ⟨middle, first, later⟩ := made
      rw [ih (fun e member => members e (List.mem_cons_of_mem _ member)) middle later,
        addInstance_terms hierarchy orders ready indexes design parent network middle entry reached
          (members entry List.mem_cons_self) first, List.forall_mem_cons, and_assoc]

/-- The first level has no terminal at all. -/
def Bare : Prop := (hierarchy.design hierarchy.top).bitTerms = 0 ∧
  ∀ inst ∈ (hierarchy.design hierarchy.top).instances, (hierarchy.design inst.model).bitTerms = 0

theorem firstLevel_spec : ∃ network, firstLevel hierarchy orders = some network ∧
    Built hierarchy orders network network.stack ∧ (network.terms = [] ↔ Bare hierarchy) ∧
    models hierarchy network = ((hierarchy.design hierarchy.top).instances.map (·.model)).reverse := by
  have reached : hierarchy.Reached hierarchy.top := ⟨[], rfl⟩
  have faithful : ∀ first terms range, some (termIndexes first terms) = some range → range = termIndexes first terms :=
    fun first terms range same => (Option.some.inj same).symm
  have start := Built.topNetwork hierarchy orders ready
  obtain ⟨looped, run, -⟩ := foldlM_some (addInstance hierarchy orders
    (fun first terms => some (termIndexes first terms)) hierarchy.top 0) (fun _ => True)
    (hierarchy.design hierarchy.top).instances.zipIdx (fun s _ entry _ => ⟨_, rfl, trivial⟩)
    (topNetwork hierarchy orders) trivial
  have made : firstLevel hierarchy orders = some { looped with instances := looped.instances.modify 0 (Node.setChildren
      (childrenIndexes (topNetwork hierarchy orders).instances.length looped.instances)) } := by
    unfold firstLevel addChildren
    rw [run]
    rfl
  obtain ⟨stack, listed⟩ := models_addChildren hierarchy orders ready (topNetwork hierarchy orders) _ 0 []
    _ hierarchy.top _ faithful start rfl rfl rfl made
  have built := Built.addChildren hierarchy orders ready _ faithful (topNetwork hierarchy orders) _ 0 [] _
    hierarchy.top start rfl rfl made
  refine ⟨_, made, ?_, ?_, ?_⟩
  · exact stack ▸ built
  · show looped.terms = [] ↔ _
    have own : (topNetwork hierarchy orders).terms = [] ↔ (hierarchy.design hierarchy.top).bitTerms = 0 := by
      obtain ⟨count, -⟩ := sortedTerms_spec hierarchy orders hierarchy.top (ready hierarchy.top reached).2 _
        (List.Perm.refl _)
      show addTerms _ _ _ _ = [] ↔ _
      rw [← List.length_eq_zero_iff, addTerms_length, count, List.length_nil, Nat.zero_add]
    rw [foldlM_terms hierarchy orders ready _ hierarchy.top 0 reached _
      (fun entry member => List.fst_mem_of_mem_zipIdx member) _ looped run, own]
    apply and_congr_right
    intro _
    constructor
    · intro each inst member
      obtain ⟨position, found⟩ := List.mem_iff_getElem?.mp member
      exact each (inst, position) (List.mem_zipIdx_iff_getElem?.mpr found)
    · intro each entry member
      exact each entry.1 (List.fst_mem_of_mem_zipIdx member)
  · rw [listed]
    exact List.append_nil _

/-- The instances that the loop adds have terminals, or some are there before. -/
def NoneMissed : Prop := ¬ Bare hierarchy ∨
  ∀ first ∈ (((hierarchy.design hierarchy.top).instances.map (·.model)).reverse.flatMap
      (fun design => (hierarchy.design design).instances)).head?, (hierarchy.design first.model).bitTerms ≠ 0

def AnchoredState : Option Network → Prop
  | none => False
  | some network => Anchored hierarchy network

/-- What is left to number. -/
def pendingWeight : Option Network → Nat
  | none => 0
  | some network => 1 + weights hierarchy (models hierarchy network)

/-- One round of the loop. -/
theorem expand_step (state after : Option Network) (anchored : AnchoredState hierarchy state ↔ NoneMissed hierarchy)
    (kept : ∀ network, state = some network → Built hierarchy orders network network.stack)
    (taken : expand hierarchy orders state = some after) :
    ((AnchoredState hierarchy after ↔ NoneMissed hierarchy) ∧
      ∀ network, after = some network → Built hierarchy orders network network.stack) ∧
    pendingWeight hierarchy after < pendingWeight hierarchy state := by
  cases state with
  | none => nomatch taken
  | some network =>
      have built := kept network rfl
      dsimp only [expand] at taken
      cases stack : network.stack with
      | nil =>
          rw [stack] at taken
          contradiction
      | cons id rest =>
          rw [stack] at taken built
          dsimp only at taken
          have here : network.instances[id]? = some _ := List.getElem?_eq_getElem (built.bound id List.mem_cons_self)
          obtain ⟨design, model, -⟩ := built.models id _ here
          rw [here, Option.bind_some, model, Option.bind_some, Option.some.injEq] at taken
          have restacked := built.withStack hierarchy orders network (id :: rest) rest
          have below := models_cons hierarchy network id rest _ design stack here model
          have rounded := anchored_addChildren hierarchy orders ready network id rest _ design built stack here model
          rw [taken] at rounded
          refine ⟨⟨?_, ?_⟩, ?_⟩
          · rw [← anchored]
            show _ ↔ Anchored hierarchy network
            rw [rounded]
            cases after with
            | none => exact iff_of_false (fun held => held) (fun found => by obtain ⟨r, same, -⟩ := found; nomatch same)
            | some r => exact ⟨fun held => ⟨r, rfl, held⟩, fun found => by obtain ⟨r', same, held⟩ := found; cases same; exact held⟩
          · rintro r rfl
            obtain ⟨stacked, -⟩ := models_addChildren hierarchy orders ready { network with stack := rest } r id rest _ design
              nestedTermIndexes nestedTermIndexes_eq restacked rfl here model taken
            rw [stacked]
            exact Built.addChildren hierarchy orders ready nestedTermIndexes nestedTermIndexes_eq
              { network with stack := rest } r id rest _ design restacked here model taken
          · cases after with
            | none =>
                show 0 < 1 + _
                omega
            | some r =>
                obtain ⟨-, listed⟩ := models_addChildren hierarchy orders ready { network with stack := rest } r id rest _
                  design nestedTermIndexes nestedTermIndexes_eq restacked rfl here model taken
                have less := weights_models hierarchy design
                show 1 + weights hierarchy (models hierarchy r) < 1 + weights hierarchy (models hierarchy network)
                rw [listed, below, weights_append, weights_reverse, ← List.singleton_append, weights_append]
                omega

/-- The loop ends, and the numbering it ends with is complete. -/
theorem loop_spec : ∃ state, Worklist.whileSome (expand hierarchy orders) (rounds hierarchy + 1)
      (firstLevel hierarchy orders) = some state ∧
    (state ≠ none ↔ NoneMissed hierarchy) ∧ ∀ network, state = some network → Built hierarchy orders network [] := by
  obtain ⟨first, made, built, bare, listed⟩ := firstLevel_spec hierarchy orders ready
  have initially : AnchoredState hierarchy (firstLevel hierarchy orders) ↔ NoneMissed hierarchy := by
    rw [made]
    show Anchored hierarchy first ↔ _
    unfold Anchored NoneMissed
    rw [Ne, bare, listed]
  obtain ⟨state, ended, ⟨anchored, kept⟩, stuck⟩ := Worklist.whileSome_ends (expand hierarchy orders)
    (fun state => (AnchoredState hierarchy state ↔ NoneMissed hierarchy) ∧
      ∀ network, state = some network → Built hierarchy orders network network.stack)
    (pendingWeight hierarchy)
    (fun state after held taken => expand_step hierarchy orders ready state after held.1 held.2 taken)
    (rounds hierarchy + 1) (firstLevel hierarchy orders)
    ⟨initially, fun network same => Option.some.inj (made.symm.trans same) ▸ built⟩
    (by
      rw [made]
      show 1 + weights hierarchy (models hierarchy first) < _
      have less := weights_models hierarchy hierarchy.top
      rw [listed, weights_reverse]
      show _ < weight hierarchy (hierarchy.rank hierarchy.top) hierarchy.top + 1 + 1
      change _ < weight hierarchy (hierarchy.rank hierarchy.top) hierarchy.top + 0 at less
      omega)
  refine ⟨state, ended, ?_, ?_⟩
  · rw [← anchored]
    cases state with
    | none => exact iff_of_false (fun some_ => some_ rfl) id
    | some network =>
        refine iff_of_true nofun (Or.inr ?_)
        unfold models
        rw [stack_of_stuck hierarchy orders network stuck]
        nofun
  · intro network same
    have done := kept network same
    rw [same] at stuck
    rw [stack_of_stuck hierarchy orders network stuck] at done
    exact done

end Loop
end Naja.Dnl
