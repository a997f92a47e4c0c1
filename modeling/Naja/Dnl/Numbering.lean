import Naja.Dnl.Terminals
import Mathlib.Data.List.Basic

/-! The numbering while it is built: the instances that are still on the stack have no
children yet, every other one has those of its model, in order and without a gap. -/

namespace Naja.Dnl

/-- The terminals of an instance of `design` are in its range, each at its order ID. -/
def TermsAt (hierarchy : Hierarchy) (orders : Orders) (terms : List Terminal) (node : Node) (design : Nat) : Prop :=
  ∃ first, node.terms = rangeOf first (hierarchy.design design).bitTerms ∧
    ∀ t < (hierarchy.design design).bitTerms, terms[first + orders.ofBitTerm design t]? =
      some ⟨node.id, node.object.map (fun object => ⟨object, t⟩), t, first + orders.ofBitTerm design t⟩

section Added
variable (hierarchy : Hierarchy) (orders : Orders)

theorem TermsAt.append (terms more : List Terminal) (node : Node) (design : Nat)
    (at_ : TermsAt hierarchy orders terms node design) : TermsAt hierarchy orders (terms ++ more) node design := by
  obtain ⟨first, range, each⟩ := at_
  refine ⟨first, range, fun t inside => ?_⟩
  have found := each t inside
  rw [List.getElem?_append_left (List.getElem?_eq_some_iff.mp found).1, found]

/-- Terminals added in the order of their order IDs. -/
theorem TermsAt.added (terms : List Terminal) (node : Node) (design : Nat) (bitTerms : List Nat)
    (ordered : TermsOrdered hierarchy orders design)
    (perm : bitTerms.Perm (List.range (hierarchy.design design).bitTerms))
    (range : node.terms = rangeOf terms.length (hierarchy.design design).bitTerms) :
    TermsAt hierarchy orders
      (addTerms node.id node.object terms (sortedTerms (orders.ofBitTerm design) bitTerms)) node design := by
  obtain ⟨-, each⟩ := sortedTerms_spec hierarchy orders design ordered bitTerms perm
  refine ⟨terms.length, range, fun t inside => ?_⟩
  rw [addTerms_getElem?, each t inside]
  rfl

/-- What the loop over `instances` has added to `before`. -/
structure Added (design parent : Nat) (before : Network) (instances : List Instance) (after : Network) : Prop where
  length : after.instances.length = before.instances.length + instances.length
  kept : ∀ id < before.instances.length, after.instances[id]? = before.instances[id]?
  fresh : ∀ position inst, instances[position]? = some inst →
    ∃ node, after.instances[before.instances.length + position]? = some node ∧
      node.object = some ⟨design, position⟩ ∧ node.id = before.instances.length + position ∧
      node.parent = some parent ∧ TermsAt hierarchy orders after.terms node inst.model
  terms : ∃ more, after.terms = before.terms ++ more
  covered : ∀ place, before.terms.length ≤ place → place < after.terms.length →
    ∃ id node, after.instances[id]? = some node ∧ before.instances.length ≤ id ∧ place ∈ identifiers node.terms
  leaves : ∀ id, id ∈ after.leaves ↔ id ∈ before.leaves ∨
    ∃ position inst, instances[position]? = some inst ∧ id = before.instances.length + position ∧
      (hierarchy.design inst.model).instances = []
  stack : after.stack = (List.range' before.instances.length instances.length).reverse ++ before.stack

variable (indexes : Nat → List Terminal → Option (Option (Nat × Nat)))
  (faithful : ∀ first terms range, indexes first terms = some range → range = termIndexes first terms)
include faithful

/-- One more instance of the loop. -/
theorem Added.step (design parent : Nat) (before middle after : Network) (instances : List Instance) (inst : Instance)
    (added : Added hierarchy orders design parent before instances middle)
    (ordered : TermsOrdered hierarchy orders inst.model)
    (perm : inst.instTerms.Perm (List.range (hierarchy.design inst.model).bitTerms))
    (made : addInstance hierarchy orders indexes design parent middle (inst, instances.length) = some after) :
    Added hierarchy orders design parent before (instances ++ [inst]) after := by
  obtain ⟨range, read, same⟩ := Option.map_eq_some_iff.mp made
  obtain ⟨count, -⟩ := sortedTerms_spec hierarchy orders inst.model ordered inst.instTerms perm
  have indexed := faithful _ _ range read
  rw [termIndexes_addTerms, count] at indexed
  have terms : after.terms = addTerms middle.instances.length (some ⟨design, instances.length⟩) middle.terms
      (sortedTerms (orders.ofBitTerm inst.model) inst.instTerms) := by rw [← same]
  have nodes : after.instances = middle.instances ++ 
      [⟨some ⟨design, instances.length⟩, middle.instances.length, some parent, some (0, 0), range, none⟩] := by rw [← same]
  have last : after.instances[middle.instances.length]? = some
      ⟨some ⟨design, instances.length⟩, middle.instances.length, some parent, some (0, 0), range, none⟩ := by
    rw [nodes, List.getElem?_concat_length]
  have old (id : Nat) (bound : id < middle.instances.length) : after.instances[id]? = middle.instances[id]? := by
    rw [nodes, List.getElem?_append_left bound]
  have grown : ∃ more, after.terms = middle.terms ++ more := ⟨_, by rw [terms, addTerms_eq]⟩
  have lengths := added.length
  refine ⟨?_, ?_, ?_, ?_, ?_, ?_, ?_⟩
  · rw [nodes, List.length_append, added.length, List.length_append, List.length_singleton, List.length_singleton]
    omega
  · intro id bound
    rw [old id (by omega), added.kept id bound]
  · intro position inst' found
    rcases Nat.lt_trichotomy position instances.length with earlier | here | beyond
    · rw [List.getElem?_append_left earlier] at found
      obtain ⟨node, place, object, id, up, at_⟩ := added.fresh position inst' found
      obtain ⟨more, append⟩ := grown
      refine ⟨node, by rw [old _ (by omega), place], object, id, up, ?_⟩
      rw [append]
      exact TermsAt.append hierarchy orders middle.terms more node inst'.model at_
    · subst here
      rw [List.getElem?_concat_length, Option.some.injEq] at found
      subst found
      refine ⟨_, by rw [← lengths]; exact last, rfl, lengths, rfl, ?_⟩
      rw [terms]
      exact TermsAt.added hierarchy orders middle.terms _ inst.model inst.instTerms ordered perm indexed
    · rw [List.getElem?_eq_none (by rw [List.length_append, List.length_singleton]; omega)] at found
      contradiction
  · obtain ⟨more, first⟩ := added.terms
    obtain ⟨more', second⟩ := grown
    exact ⟨more ++ more', by rw [second, first, List.append_assoc]⟩
  · intro place lower upper
    by_cases earlier : place < middle.terms.length
    · obtain ⟨id, node, found, bound, inside⟩ := added.covered place lower earlier
      have small := (List.getElem?_eq_some_iff.mp found).1
      exact ⟨id, node, by rw [old id small, found], bound, inside⟩
    · refine ⟨_, _, last, by omega, ?_⟩
      show place ∈ identifiers range
      rw [terms, addTerms_length, count] at upper
      rw [indexed, mem_identifiers_rangeOf]
      omega
  · intro id
    have listed : after.leaves = if (hierarchy.design inst.model).instances.isEmpty then
        middle.leaves ++ [middle.instances.length] else middle.leaves := by rw [← same]
    have split : id ∈ after.leaves ↔ id ∈ middle.leaves ∨
        (id = middle.instances.length ∧ (hierarchy.design inst.model).instances = []) := by
      rw [listed]
      split
      · next empty =>
          rw [List.mem_append, List.mem_singleton, and_iff_left (List.isEmpty_iff.mp empty)]
      · next full =>
          rw [or_iff_left]
          intro both
          exact full (List.isEmpty_iff.mpr both.2)
    rw [split, added.leaves id, or_assoc, lengths]
    apply or_congr_right
    constructor
    · intro either
      rcases either with ⟨position, inst', found, place, empty⟩ | ⟨place, empty⟩
      · refine ⟨position, inst', ?_, place, empty⟩
        rw [List.getElem?_append_left (List.getElem?_eq_some_iff.mp found).1, found]
      · exact ⟨instances.length, inst, List.getElem?_concat_length, place, empty⟩
    · intro found
      obtain ⟨position, inst', found, place, empty⟩ := found
      by_cases earlier : position < instances.length
      · rw [List.getElem?_append_left earlier] at found
        exact Or.inl ⟨position, inst', found, place, empty⟩
      · have bound := (List.getElem?_eq_some_iff.mp found).1
        rw [List.length_append, List.length_singleton] at bound
        obtain rfl : position = instances.length := by omega
        rw [List.getElem?_concat_length, Option.some.injEq] at found
        subst found
        exact Or.inr ⟨place, empty⟩
  · have stacked : after.stack = middle.instances.length :: middle.stack := by rw [← same]
    rw [stacked, added.stack, lengths, List.length_append, List.length_singleton, List.range'_concat,
      List.reverse_append, Nat.one_mul]
    rfl

/-- The whole loop. -/
theorem Added.loop (design parent : Nat) (before : Network) (instances : List Instance)
    (ordered : ∀ inst ∈ instances, TermsOrdered hierarchy orders inst.model)
    (perms : ∀ inst ∈ instances, inst.instTerms.Perm (List.range (hierarchy.design inst.model).bitTerms))
    (after : Network)
    (made : instances.zipIdx.foldlM (addInstance hierarchy orders indexes design parent) before = some after) :
    Added hierarchy orders design parent before instances after := by
  induction instances using List.reverseRecOn generalizing after with
  | nil =>
      obtain rfl := Option.some.inj made
      refine ⟨rfl, fun _ _ => rfl, nofun, ⟨[], (List.append_nil _).symm⟩, ?_, ?_, rfl⟩
      · intro place lower upper
        omega
      · intro id
        rw [or_iff_left]
        intro found
        obtain ⟨position, inst, found, -⟩ := found
        contradiction
  | append_singleton instances inst ih =>
      rw [List.zipIdx_append, List.foldlM_append, Option.bind_eq_bind, Option.bind_eq_some_iff] at made
      obtain ⟨middle, first, last⟩ := made
      rw [Nat.zero_add, List.zipIdx_singleton, List.foldlM_cons, Option.bind_eq_bind, Option.bind_eq_some_iff] at last
      obtain ⟨after', made, same⟩ := last
      obtain rfl := Option.some.inj same
      have added := ih (fun i member => ordered i (List.mem_append_left _ member))
        (fun i member => perms i (List.mem_append_left _ member)) middle first
      exact added.step hierarchy orders indexes faithful design parent before middle after' instances inst
        (ordered inst (List.mem_append_right _ List.mem_cons_self))
        (perms inst (List.mem_append_right _ List.mem_cons_self)) made

end Added
end Naja.Dnl
