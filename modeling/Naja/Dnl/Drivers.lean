import Naja.Dnl.Rounds

/-! The tasks of the first round: the terminals that drive a net of their own, each once. -/

namespace Naja.Dnl

section Leaves
variable (hierarchy : Hierarchy) (orders : Orders)

/-- The leaves are listed in the order of their numbers. -/
def LeavesSorted (network : Network) : Prop := network.leaves.Sublist (List.range network.instances.length)

theorem addInstance_leaves (indexes : Nat → List Terminal → Option (Option (Nat × Nat))) (design parent : Nat)
    (network after : Network) (entry : Instance × Nat)
    (made : addInstance hierarchy orders indexes design parent network entry = some after) (sorted : LeavesSorted network) :
    LeavesSorted after := by
  obtain ⟨range, -, rfl⟩ := Option.map_eq_some_iff.mp made
  unfold LeavesSorted
  dsimp only
  rw [List.length_append, List.length_singleton, List.range_succ]
  split
  · exact sorted.append (List.Sublist.refl _)
  · exact sorted.trans (List.sublist_append_left _ _)

theorem addChildren_leaves (indexes : Nat → List Terminal → Option (Option (Nat × Nat))) (design parent : Nat)
    (network after : Network) (made : addChildren hierarchy orders indexes design parent network = some after)
    (sorted : LeavesSorted network) : LeavesSorted after := by
  obtain ⟨middle, looped, rfl⟩ := Option.map_eq_some_iff.mp made
  have kept : LeavesSorted middle := by
    generalize (hierarchy.design design).instances.zipIdx = entries at looped
    clear made
    induction entries generalizing network with
    | nil =>
        obtain rfl := Option.some.inj looped
        exact sorted
    | cons entry rest ih =>
        rw [List.foldlM_cons] at looped
        obtain ⟨next, first, later⟩ := Option.bind_eq_some_iff.mp looped
        exact ih next (addInstance_leaves hierarchy orders indexes design parent network next entry first sorted) later
  unfold LeavesSorted
  dsimp only
  rw [List.length_modify]
  exact kept

/-- No leaf is listed twice. -/
theorem process_leaves (before : Orders) (view : View) (numbered : process hierarchy before = some view) :
    view.leaves.Nodup := by
  obtain ⟨orders, -, numbered⟩ := Option.bind_eq_some_iff.mp numbered
  obtain ⟨network, joined, rfl⟩ := Option.map_eq_some_iff.mp numbered
  have ended := Option.join_eq_some_iff.mp joined
  have sorted : ∀ final ∈ (some network : Option Network), LeavesSorted final := by
    refine Worklist.whileSome_keeps (expand hierarchy orders) (fun state => ∀ final ∈ state, LeavesSorted final) ?_ _
      (firstLevel hierarchy orders) _ ?_ ended
    · intro state next inv taken after made
      cases state with
      | none => cases taken
      | some current =>
          unfold expand at taken
          dsimp only at taken
          cases stack : current.stack with
          | nil =>
              rw [stack] at taken
              cases taken
          | cons id rest =>
              rw [stack] at taken
              obtain rfl := Option.some.inj taken
              obtain ⟨design, -, added⟩ := Option.bind_eq_some_iff.mp made
              exact addChildren_leaves hierarchy orders _ design id _ after added (inv current rfl)
    · intro final made
      exact addChildren_leaves hierarchy orders _ _ _ _ final made (List.nil_sublist _)
  exact (sorted network rfl).nodup List.nodup_range

end Leaves

theorem process_ready (circuit : Circuit) (before : Orders) (view : View)
    (numbered : process circuit.toHierarchy before = some view) :
    Ready circuit.toHierarchy view.orders ∧ Built circuit.toHierarchy view.orders view.toNetwork [] := by
  obtain ⟨orders, network, ready, built, rfl⟩ := (process_spec circuit.toHierarchy before).2 view numbered
  exact ⟨ready, built.initDFSIntervals circuit.toHierarchy orders network⟩

/-- What `process` makes of a circuit. -/
def DNL.of (circuit : Circuit) (before : Orders) (view : View) (numbered : process circuit.toHierarchy before = some view) :
    DNL where
  toCircuit := circuit
  toView := view
  ready := (process_ready circuit before view numbered).1
  built := (process_ready circuit before view numbered).2
  leavesOnce := process_leaves circuit.toHierarchy before view numbered

section Drivers
variable {dnl : DNL}

/-- A terminal is in the range of its own instance. -/
theorem mem_termsOf {fid id design bitTerm : Nat} {node : Node} (site : Site dnl fid id design bitTerm node)
    (owner : Nat) : fid ∈ termsOf dnl owner ↔ owner = id := by
  have own : fid ∈ termsOf dnl id := by
    obtain ⟨first, range, same⟩ := site.place
    obtain ⟨design', model, reached, -⟩ := dnl.built.models id node site.here
    obtain rfl := Option.some.inj (site.model.symm.trans model)
    have below := (dnl.ready design reached).2.lt dnl.toHierarchy dnl.orders design bitTerm site.inside
    unfold termsOf
    rw [site.here, Option.bind_some, range, mem_identifiers_rangeOf]
    show first ≤ fid ∧ fid < first + (dnl.toHierarchy.design design).bitTerms
    omega
  constructor
  · intro member
    unfold termsOf at member
    cases here : dnl.instances[owner]? with
    | none =>
        rw [here] at member
        exact absurd member List.not_mem_nil
    | some other =>
        rw [here] at member
        obtain ⟨design', model, reached, at_⟩ := dnl.built.models owner other here
        obtain ⟨terminal, found, owned⟩ := owner_of_mem dnl.toHierarchy dnl.orders dnl.ready dnl.toNetwork other design' fid
          reached at_ member
        rw [site.terminal, Option.some.injEq] at found
        rw [← dnl.built.ids owner other here, ← owned, ← found]
  · rintro rfl
    exact own

/-- The net the terminal itself is on: for the top the one of the bit terminal, else the one of
the instance terminal. -/
def Attached (dnl : DNL) (fid : Nat) : Prop :=
  if fid ∈ termsOf dnl 0 then (bitTermNet dnl fid).isSome = true else (outerNet dnl fid).isSome = true

theorem role_of_mem_drivers (fid : Nat) (member : fid ∈ drivers dnl) :
    fid < dnl.terms.length ∧ role dnl fid = .driver := by
  unfold drivers at member
  rcases List.mem_append.mp member with leaf | top
  · obtain ⟨owner, listed, member⟩ := List.mem_flatMap.mp leaf
    obtain ⟨inside, holds⟩ := List.mem_filter.mp member
    rw [Bool.and_eq_true, bne_iff_ne, Option.isSome_iff_exists] at holds
    obtain ⟨direction, entry, found⟩ := holds
    have bound := lt_of_outerNet fid entry found
    obtain ⟨id, design, bitTerm, node, site⟩ := exists_site fid bound
    obtain rfl := (mem_termsOf site owner).mp inside
    obtain ⟨positive, cell⟩ := (dnl.built.leaves owner node design site.here site.model).mp listed
    rw [site.direction] at direction
    rw [site.role, if_neg (Nat.ne_of_gt positive), if_pos (List.isEmpty_iff.mpr cell), if_neg direction]
    exact ⟨bound, rfl⟩
  · obtain ⟨inside, holds⟩ := List.mem_filter.mp top
    rw [Bool.and_eq_true, bne_iff_ne, Option.isSome_iff_exists] at holds
    obtain ⟨direction, entry, found⟩ := holds
    have bound := lt_of_bitTermNet fid entry found
    obtain ⟨id, design, bitTerm, node, site⟩ := exists_site fid bound
    rw [site.direction] at direction
    rw [site.role, if_pos ((mem_termsOf site 0).mp inside).symm, if_neg direction]
    exact ⟨bound, rfl⟩

theorem drivers_nodup (dnl : DNL) : (drivers dnl).Nodup := by
  have ranges (id : Nat) : (termsOf dnl id).Nodup := by
    unfold termsOf identifiers
    split
    · exact List.nodup_nil
    · exact List.nodup_range'
  -- two instances share no terminal
  have apart (a b fid : Nat) (inA : fid ∈ termsOf dnl a) (inB : fid ∈ termsOf dnl b)
      (net : (outerNet dnl fid).isSome = true ∨ (bitTermNet dnl fid).isSome = true) : a = b := by
    have bound : fid < dnl.terms.length := by
      rcases net with outer | bit
      · obtain ⟨entry, found⟩ := Option.isSome_iff_exists.mp outer
        exact lt_of_outerNet fid entry found
      · obtain ⟨entry, found⟩ := Option.isSome_iff_exists.mp bit
        exact lt_of_bitTermNet fid entry found
    obtain ⟨id, design, bitTerm, node, site⟩ := exists_site fid bound
    rw [(mem_termsOf site a).mp inA, (mem_termsOf site b).mp inB]
  unfold drivers
  refine List.nodup_append.mpr ⟨List.nodup_flatMap.mpr ⟨fun leaf _ => (ranges leaf).filter _, ?_⟩, (ranges 0).filter _, ?_⟩
  · refine dnl.leavesOnce.imp ?_
    intro a b different
    refine List.disjoint_left.mpr fun fid inA inB => different ?_
    obtain ⟨inA, holds⟩ := List.mem_filter.mp inA
    rw [Bool.and_eq_true] at holds
    exact apart a b fid inA (List.mem_filter.mp inB).1 (Or.inl holds.2)
  · intro fid left other right same
    subst same
    obtain ⟨leaf, listed, member⟩ := List.mem_flatMap.mp left
    obtain ⟨inLeaf, holds⟩ := List.mem_filter.mp member
    rw [Bool.and_eq_true] at holds
    obtain rfl := apart leaf 0 fid inLeaf (List.mem_filter.mp right).1 (Or.inl holds.2)
    obtain ⟨root, start, -⟩ := dnl.built.root
    obtain ⟨design, model, -⟩ := dnl.built.models 0 root start
    exact Nat.lt_irrefl 0 ((dnl.built.leaves 0 root design start model).mp listed).1

end Drivers

end Naja.Dnl
