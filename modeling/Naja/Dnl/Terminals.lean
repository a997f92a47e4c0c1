import Naja.Dnl.Orders
import Mathlib.Data.List.Range
import Mathlib.Data.List.Sort

/-! The terminals of one instance stand in the numbering in the order of their order IDs. -/

namespace Naja.Dnl

/-- The inclusive range of `count` identifiers from `first` on. -/
def rangeOf (first count : Nat) : Option (Nat × Nat) := if count = 0 then none else some (first, first + count - 1)

theorem identifiers_rangeOf (first count : Nat) : identifiers (rangeOf first count) = List.range' first count := by
  unfold rangeOf
  split
  · next zero =>
      rw [zero]
      rfl
  · next positive =>
      show List.range' first (first + count - 1 + 1 - first) = _
      rw [show first + count - 1 + 1 - first = count by omega]

theorem mem_identifiers_rangeOf (first count id : Nat) :
    id ∈ identifiers (rangeOf first count) ↔ first ≤ id ∧ id < first + count := by
  rw [identifiers_rangeOf, List.mem_range'_1]

theorem rangeOf_of_pos (first count : Nat) (positive : 0 < count) :
    rangeOf first count = some (first, first + count - 1) := if_neg (by omega)

section Sorted
variable (hierarchy : Hierarchy) (orders : Orders) (design : Nat) (ordered : TermsOrdered hierarchy orders design)
include ordered

/-- The order IDs of the terminals of a design are the numbers below their count. -/
theorem TermsOrdered.map_eq : ∃ terms : List Nat, terms.Perm (List.range (hierarchy.design design).bitTerms) ∧
    terms.map (orders.ofBitTerm design) = List.range (hierarchy.design design).bitTerms := by
  obtain ⟨terms, perm, each⟩ := ordered
  refine ⟨terms, perm, List.ext_getElem? (fun place => ?_)⟩
  have length : terms.length = (hierarchy.design design).bitTerms := by rw [perm.length_eq, List.length_range]
  rw [List.getElem?_map]
  by_cases bound : place < terms.length
  · rw [List.getElem?_eq_getElem bound, Option.map_some, List.getElem?_range (length ▸ bound),
      each place _ (List.getElem?_eq_getElem bound)]
  · rw [List.getElem?_eq_none (by omega), List.getElem?_eq_none (by rw [List.length_range]; omega)]
    rfl

theorem TermsOrdered.inj (s t : Nat) (inS : s < (hierarchy.design design).bitTerms)
    (inT : t < (hierarchy.design design).bitTerms)
    (same : orders.ofBitTerm design s = orders.ofBitTerm design t) : s = t := by
  obtain ⟨terms, perm, mapped⟩ := ordered.map_eq
  have nodup : (terms.map (orders.ofBitTerm design)).Nodup := mapped ▸ List.nodup_range
  exact List.inj_on_of_nodup_map nodup (perm.mem_iff.mpr (List.mem_range.mpr inS))
    (perm.mem_iff.mpr (List.mem_range.mpr inT)) same

theorem TermsOrdered.lt (t : Nat) (inT : t < (hierarchy.design design).bitTerms) :
    orders.ofBitTerm design t < (hierarchy.design design).bitTerms := by
  obtain ⟨terms, perm, mapped⟩ := ordered.map_eq
  rw [← List.mem_range, ← mapped]
  exact List.mem_map_of_mem (perm.mem_iff.mpr (List.mem_range.mpr inT))

theorem TermsOrdered.onto (place : Nat) (bound : place < (hierarchy.design design).bitTerms) :
    ∃ t < (hierarchy.design design).bitTerms, orders.ofBitTerm design t = place := by
  obtain ⟨terms, perm, mapped⟩ := ordered.map_eq
  rw [← List.mem_range, ← mapped] at bound
  obtain ⟨t, member, same⟩ := List.mem_map.mp bound
  exact ⟨t, List.mem_range.mp (perm.mem_iff.mp member), same⟩

/-- A set filled in any order holds the terminals in the order of their order IDs. -/
theorem sortedTerms_perm (terms : List Nat) (perm : terms.Perm (List.range (hierarchy.design design).bitTerms)) :
    (sortedTerms (orders.ofBitTerm design) terms).Perm terms ∧
      Registry.OrderedBy (orders.ofBitTerm design) (sortedTerms (orders.ofBitTerm design) terms) := by
  have inside (t : Nat) (member : t ∈ terms) : t < (hierarchy.design design).bitTerms :=
    List.mem_range.mp (perm.mem_iff.mp member)
  have nodup := perm.nodup_iff.mpr List.nodup_range
  clear perm
  unfold sortedTerms
  induction terms using List.reverseRecOn with
  | nil => exact ⟨List.Perm.refl _, List.Pairwise.nil⟩
  | append_singleton terms t ih =>
      obtain ⟨earlier, -, apart⟩ := List.nodup_append.mp nodup
      obtain ⟨perm, sorted⟩ := ih (fun s member => inside s (List.mem_append_left _ member)) earlier
      rw [List.foldl_append, List.foldl_cons, List.foldl_nil]
      refine ⟨?_, Registry.insertByKey_ordered t _ sorted⟩
      have fresh : orders.ofBitTerm design t ∉ (terms.foldl (fun sorted term =>
          Registry.insertByKey (orders.ofBitTerm design) term sorted) []).map (orders.ofBitTerm design) := by
        intro member
        obtain ⟨s, inS, same⟩ := List.mem_map.mp member
        have old := perm.mem_iff.mp inS
        have equal := ordered.inj hierarchy orders design s t (inside s (List.mem_append_left _ old))
          (inside t (List.mem_append_right _ List.mem_cons_self)) same
        exact apart s old t List.mem_cons_self equal
      exact (Registry.insertByKey_perm t _ fresh).trans ((perm.cons t).trans (List.perm_append_singleton t terms).symm)

theorem sortedTerms_spec (terms : List Nat) (perm : terms.Perm (List.range (hierarchy.design design).bitTerms)) :
    (sortedTerms (orders.ofBitTerm design) terms).length = (hierarchy.design design).bitTerms ∧
      ∀ t < (hierarchy.design design).bitTerms,
        (sortedTerms (orders.ofBitTerm design) terms)[orders.ofBitTerm design t]? = some t := by
  obtain ⟨same, sorted⟩ := sortedTerms_perm hierarchy orders design ordered terms perm
  have all := same.trans perm
  have length : (sortedTerms (orders.ofBitTerm design) terms).length = (hierarchy.design design).bitTerms := by
    rw [all.length_eq, List.length_range]
  refine ⟨length, fun t inT => ?_⟩
  obtain ⟨listed, permListed, mapped⟩ := ordered.map_eq
  have keys : (sortedTerms (orders.ofBitTerm design) terms).map (orders.ofBitTerm design) =
      List.range (hierarchy.design design).bitTerms := by
    have permKeys := ((all.trans permListed.symm).map (orders.ofBitTerm design)).trans (List.Perm.of_eq mapped)
    apply List.Perm.eq_of_pairwise (fun (a b : Nat) _ _ (less : a < b) (more : b < a) => absurd less (by omega)) _ _ permKeys
    · exact List.pairwise_map.mpr sorted
    · exact List.pairwise_lt_range
  have bound := ordered.lt hierarchy orders design t inT
  have key : ((sortedTerms (orders.ofBitTerm design) terms).map (orders.ofBitTerm design))[orders.ofBitTerm design t]? =
      some (orders.ofBitTerm design t) := by
    rw [keys, List.getElem?_range bound]
  rw [List.getElem?_map, Option.map_eq_some_iff] at key
  obtain ⟨s, found, equal⟩ := key
  have inS := List.mem_range.mp (all.mem_iff.mp (List.mem_of_getElem? found))
  rw [found, ordered.inj hierarchy orders design s t inS inT equal]

end Sorted

theorem addTerms_eq (owner : Nat) (object : Option Object) (terms : List Terminal) (bitTerms : List Nat) :
    addTerms owner object terms bitTerms = terms ++ (bitTerms.zipIdx terms.length).map (fun entry =>
      ⟨owner, object.map (fun object => ⟨object, entry.1⟩), entry.1, entry.2⟩) := by
  unfold addTerms
  induction bitTerms generalizing terms with
  | nil => exact (List.append_nil terms).symm
  | cons bitTerm rest ih =>
      rw [List.foldl_cons, ih, List.append_assoc, List.length_append, List.length_singleton]
      rfl

theorem addTerms_getElem? (owner : Nat) (object : Option Object) (terms : List Terminal) (bitTerms : List Nat)
    (place : Nat) : (addTerms owner object terms bitTerms)[terms.length + place]? = bitTerms[place]?.map
      (fun bitTerm => ⟨owner, object.map (fun object => ⟨object, bitTerm⟩), bitTerm, terms.length + place⟩) := by
  rw [addTerms_eq, List.getElem?_append_right (by omega), Nat.add_sub_cancel_left, List.getElem?_map,
    List.getElem?_zipIdx, Option.map_map]
  rfl

theorem addTerms_length (owner : Nat) (object : Option Object) (terms : List Terminal) (bitTerms : List Nat) :
    (addTerms owner object terms bitTerms).length = terms.length + bitTerms.length := by
  rw [addTerms_eq, List.length_append, List.length_map, List.length_zipIdx]

/-- The range read off the vector of terminals after those of one instance. -/
theorem termIndexes_addTerms (owner : Nat) (object : Option Object) (terms : List Terminal) (bitTerms : List Nat) :
    termIndexes terms.length (addTerms owner object terms bitTerms) = rangeOf terms.length bitTerms.length := by
  unfold termIndexes rangeOf
  rw [addTerms_length]
  cases count : bitTerms.length with
  | zero => rw [if_pos (Nat.add_zero _).symm, if_pos rfl]
  | succ below =>
      rw [if_neg (by omega), if_neg (by omega), List.getLast?_eq_getElem?, addTerms_length, count,
        show terms.length + (below + 1) - 1 = terms.length + below by omega, addTerms_getElem?,
        List.getElem?_eq_getElem (by omega)]
      rfl

theorem nestedTermIndexes_eq (first : Nat) (terms : List Terminal) (range : Option (Nat × Nat))
    (read : nestedTermIndexes first terms = some range) : range = termIndexes first terms := by
  obtain ⟨last, found, rfl⟩ := Option.map_eq_some_iff.mp read
  unfold termIndexes
  rw [found]
  rfl

end Naja.Dnl
