import Naja.Dnl.Pins
import Mathlib.Data.List.TakeWhile

/-! The traversal from a terminal visits what the nets of the view connect to it, each
terminal once. -/

namespace Naja.Dnl

/-! ### The loops over one net -/

theorem pushTerminals_eq (visited : List Nat) (skip : Option Nat) (fids stack : List Nat) :
    pushTerminals visited skip fids stack = (fids.any (· ∈ visited),
      ((fids.takeWhile (· ∉ visited)).filter (skip ≠ some ·)).reverse ++ stack) := by
  induction fids generalizing stack with
  | nil => rfl
  | cons first rest ih =>
      unfold pushTerminals
      by_cases known : first ∈ visited
      · simp [known]
      · by_cases own : skip = some first
        · rw [if_neg known, if_pos own, ih]
          simp [known, own]
        · simp [known, own, ih]

theorem pushTerminals_spec (Edge : Nat → Nat → Prop) (visited : List Nat) (skip : Option Nat) (fid : Nat)
    (skipped : ∀ u, skip = some u → u = fid) (fids stack : List Nat) (joined : ∀ u ∈ fids, ∀ v ∈ fids, Edge u v) :
    Worklist.Pushes Edge (· ∈ fids) fids.length visited fid stack (pushTerminals visited skip fids stack).2 := by
  rw [pushTerminals_eq]
  refine ⟨⟨_, rfl, ?_, fun u member => ?_⟩, fun u inside => ?_⟩
  · rw [List.length_reverse]
    exact (List.length_filter_le _ _).trans (List.takeWhile_sublist _).length_le
  · exact (List.takeWhile_sublist _).subset (List.mem_of_mem_filter (List.mem_reverse.mp member))
  · by_cases met : ∃ u ∈ fids, u ∈ visited
    · obtain ⟨v, inside', seen⟩ := met
      exact Or.inl ⟨v, seen, joined v inside' u inside⟩
    · have whole : fids.takeWhile (· ∉ visited) = fids := by
        apply List.takeWhile_eq_self_iff.mpr
        intro v inside'
        exact decide_eq_true fun seen => met ⟨v, inside', seen⟩
      refine Or.inr (or_iff_not_imp_left.mpr fun other => List.mem_append_left _ (List.mem_reverse.mpr ?_))
      rw [whole]
      exact List.mem_filter.mpr ⟨inside, decide_eq_true fun own => other (skipped u own)⟩

section Members
variable {dnl : DNL}

/-! ### What stands on a net -/

section Lookups
variable {fid id design bitTerm : Nat} {node : Node} (site : Site dnl fid id design bitTerm node)
include site

/-- The bit terminal of an instance is found. -/
theorem Site.getID_bitTerm : getID (getTerminalFromBitTerm dnl.toHierarchy dnl.toView node design bitTerm) = fid := by
  obtain ⟨first, range, same⟩ := site.place
  have inside := site.inside
  unfold getTerminalFromBitTerm
  rw [if_neg (not_not_intro site.model), range, rangeOf_of_pos _ _ (by omega), Option.bind_some]
  dsimp only
  rw [← same, site.terminal]
  rfl

theorem Site.getID_instTerm (object : Object) (own : node.object = some object) :
    getID (getTerminal dnl.toHierarchy dnl.toView node ⟨object, bitTerm⟩) = fid := by
  obtain ⟨first, range, same⟩ := site.place
  have inside := site.inside
  unfold getTerminal
  rw [if_neg (not_not_intro own), site.model, Option.bind_some, range, rangeOf_of_pos _ _ (by omega), Option.bind_some]
  dsimp only
  rw [← same, site.terminal]
  rfl

end Lookups


theorem netAt_iff (entry : Nat × Nat) (node : Node) (design : Nat) (net : Net) :
    netAt dnl entry = some (node, design, net) ↔ dnl.instances[entry.1]? = some node ∧
      node.model dnl.toHierarchy = some design ∧ (dnl.wiring design).nets[entry.2]? = some net := by
  unfold netAt
  simp only [Option.bind_eq_some_iff, Option.map_eq_some_iff, Prod.mk.injEq]
  constructor
  · intro found
    obtain ⟨_, here, _, model, _, there, rfl, rfl, rfl⟩ := found
    exact ⟨here, model, there⟩
  · intro given
    exact ⟨node, given.1, design, given.2.1, net, given.2.2, rfl, rfl, rfl⟩

theorem mem_bitTermIDs (u : Nat) (entry : Nat × Nat) :
    u ∈ bitTermIDs dnl entry ↔ u < dnl.terms.length ∧ bitTermNet dnl u = some entry := by
  unfold bitTermIDs
  constructor
  · intro member
    cases found : netAt dnl entry with
    | none =>
        rw [found] at member
        exact absurd member List.not_mem_nil
    | some place =>
        obtain ⟨node, design, net⟩ := place
        rw [found] at member
        obtain ⟨here, model, there⟩ := (netAt_iff entry node design net).mp found
        obtain ⟨bitTerm, inside, rfl⟩ := List.mem_map.mp member
        obtain ⟨fid, site⟩ := exists_site_of entry.1 design bitTerm node here model
          (dnl.bitTerm_lt design entry.2 bitTerm net there inside)
        rw [site.getID_bitTerm]
        exact ⟨site.lt, (bitTermNet_iff site entry).mpr ⟨rfl, net, there, inside⟩⟩
  · intro given
    obtain ⟨bound, found⟩ := given
    obtain ⟨id, design, bitTerm, node, site⟩ := exists_site u bound
    obtain ⟨rfl, net, there, inside⟩ := (bitTermNet_iff site entry).mp found
    rw [(netAt_iff entry node design net).mpr ⟨site.here, site.model, there⟩]
    exact List.mem_map.mpr ⟨bitTerm, inside, site.getID_bitTerm⟩

theorem getChildInstance_placed (up first design position id : Nat) (inst : Instance) (node above : Node)
    (placed : Placed dnl.toHierarchy dnl.toNetwork id up first design position inst node above) :
    getChildInstance dnl.toHierarchy dnl.toView above ⟨design, position⟩ = some node := by
  have bound := (List.getElem?_eq_some_iff.mp placed.listed).1
  obtain ⟨design', model, reached, -⟩ := dnl.built.models up above placed.upper
  obtain rfl := Option.some.inj (placed.model.symm.trans model)
  unfold getChildInstance
  rw [if_neg (not_not_intro placed.model), placed.children, rangeOf_of_pos _ _ (by omega), Option.bind_some]
  dsimp only
  rw [(dnl.ready design reached).1 position bound, ← placed.same]
  exact placed.here

theorem mem_instTermIDs (u : Nat) (entry : Nat × Nat) :
    u ∈ instTermIDs dnl entry ↔ u < dnl.terms.length ∧ outerNet dnl u = some entry := by
  unfold instTermIDs
  constructor
  · intro member
    cases found : netAt dnl entry with
    | none =>
        rw [found] at member
        exact absurd member List.not_mem_nil
    | some place =>
        obtain ⟨upper, design, net⟩ := place
        rw [found] at member
        obtain ⟨here, model, there⟩ := (netAt_iff entry upper design net).mp found
        obtain ⟨⟨position, bitTerm⟩, listed, rfl⟩ := List.mem_map.mp member
        obtain ⟨inst, found, inside⟩ := dnl.instTerm_inside design entry.2 net (position, bitTerm) there listed
        obtain ⟨first, child, placed⟩ := exists_placed dnl.toHierarchy dnl.orders dnl.toNetwork dnl.built entry.1
          design position inst upper here model found
        obtain ⟨fid, site⟩ := exists_site_of (first + position) inst.model bitTerm child placed.here
          (placed.own dnl.toHierarchy dnl.toNetwork) inside
        dsimp only
        rw [getChildInstance_placed entry.1 first design position _ inst child upper placed, Option.bind_some,
          site.getID_instTerm _ placed.object]
        exact ⟨site.lt, (outerNet_iff site entry).mpr
          ⟨first, design, position, inst, upper, net, placed, there, listed⟩⟩
  · intro given
    obtain ⟨bound, found⟩ := given
    obtain ⟨id, design, bitTerm, node, site⟩ := exists_site u bound
    obtain ⟨first, above, position, inst, upper, net, placed, there, listed⟩ := (outerNet_iff site entry).mp found
    rw [(netAt_iff entry upper above net).mpr ⟨placed.upper, placed.model, there⟩]
    refine List.mem_map.mpr ⟨(position, bitTerm), listed, ?_⟩
    dsimp only
    rw [getChildInstance_placed entry.1 first above position id inst node upper placed, Option.bind_some,
      site.getID_instTerm _ placed.object]

theorem lt_of_bitTermNet (u : Nat) (entry : Nat × Nat) (found : bitTermNet dnl u = some entry) :
    u < dnl.terms.length := by
  obtain ⟨terminal, there, -⟩ := Option.bind_eq_some_iff.mp found
  exact (List.getElem?_eq_some_iff.mp there).1

theorem lt_of_outerNet (u : Nat) (entry : Nat × Nat) (found : outerNet dnl u = some entry) :
    u < dnl.terms.length := by
  obtain ⟨terminal, there, -⟩ := Option.bind_eq_some_iff.mp found
  exact (List.getElem?_eq_some_iff.mp there).1

theorem lt_of_standsAt (u : Nat) (entry : Nat × Nat) (stands : StandsAt dnl u entry) : u < dnl.terms.length := by
  rcases stands with inner | outer
  · exact lt_of_bitTermNet u entry ((innerNet_iff u entry).mp inner).1
  · exact lt_of_outerNet u entry outer

/-- No terminal stands on a net of an assign. -/
theorem cell_of_standsAt (fid : Nat) (entry : Nat × Nat) (stands : StandsAt dnl fid entry) (design : Nat)
    (model : modelOf dnl entry.1 = some design) : (dnl.wiring design).isAssign = false := by
  rcases stands with inner | outer
  · exact ((innerNet_iff fid entry).mp inner).2 design model
  · obtain ⟨id, own, bitTerm, node, site⟩ := exists_site fid (lt_of_outerNet fid entry outer)
    obtain ⟨first, above, position, inst, upper, net, placed, -⟩ := (outerNet_iff site entry).mp outer
    unfold modelOf at model
    rw [placed.upper, Option.bind_some, placed.model] at model
    obtain rfl := Option.some.inj model
    exact dnl.not_assign above position inst placed.listed

/-- The two loops over a net pass everything on it. -/
theorem mem_net (fid : Nat) (entry : Nat × Nat) (stands : StandsAt dnl fid entry) (u : Nat) :
    u ∈ instTermIDs dnl entry ++ bitTermIDs dnl entry ↔ StandsAt dnl u entry := by
  rw [List.mem_append, mem_instTermIDs, mem_bitTermIDs]
  constructor
  · intro either
    rcases either with ⟨-, outer⟩ | ⟨-, bit⟩
    · exact Or.inr outer
    · exact Or.inl ((innerNet_iff u entry).mpr ⟨bit, cell_of_standsAt fid entry stands⟩)
  · intro either
    rcases either with inner | outer
    · have bit := ((innerNet_iff u entry).mp inner).1
      exact Or.inr ⟨lt_of_bitTermNet u entry bit, bit⟩
    · exact Or.inl ⟨lt_of_outerNet u entry outer, outer⟩

/-- All that stands on a net is pushed, unless something on it was visited. -/
theorem pushNet_spec (visited : List Nat) (skipInstTerm skipBitTerm : Option Nat) (fid : Nat)
    (skipped : ∀ u, skipInstTerm = some u ∨ skipBitTerm = some u → u = fid) (entry : Nat × Nat)
    (stands : StandsAt dnl fid entry) (stack : List Nat) :
    Worklist.Pushes (Worklist.Adjacent (StandsAt dnl)) (StandsAt dnl · entry) (netCost dnl (some entry)) visited fid stack
      (pushNet dnl visited skipInstTerm skipBitTerm entry stack) := by
  have on (u : Nat) := List.mem_append.symm.trans (mem_net fid entry stands u)
  have joined (u v : Nat) (inU : u ∈ instTermIDs dnl entry ∨ u ∈ bitTermIDs dnl entry) (inV : StandsAt dnl v entry) :
      Worklist.Adjacent (StandsAt dnl) u v := ⟨entry, (on u).mp inU, inV⟩
  have first := pushTerminals_spec (Worklist.Adjacent (StandsAt dnl)) visited skipInstTerm fid
    (fun u own => skipped u (Or.inl own)) (instTermIDs dnl entry) stack
    (fun u inU v inV => joined u v (Or.inl inU) ((on v).mp (Or.inl inV)))
  show Worklist.Pushes _ _ (instTermIDs dnl entry ++ bitTermIDs dnl entry).length _ _ _ _
  rw [List.length_append, ← funext fun u => propext (on u)]
  unfold pushNet
  dsimp only
  split
  · next ended =>
      rw [pushTerminals_eq] at ended
      obtain ⟨u, inside, seen⟩ := List.any_eq_true.mp ended
      obtain ⟨more, same, bound, listed⟩ := first.added
      refine ⟨⟨more, same, Nat.le_add_right_of_le bound, fun v member => Or.inl (listed v member)⟩, fun v either => ?_⟩
      exact Or.inl ⟨u, of_decide_eq_true seen, joined u v (Or.inl inside) ((on v).mp either)⟩
  · exact first.append (pushTerminals_spec _ visited skipBitTerm fid (fun u own => skipped u (Or.inr own)) _ _
      fun u inU v inV => joined u v (Or.inr inU) ((on v).mp (Or.inr inV)))

theorem pushOn_spec (visited : List Nat) (fid : Nat) (entry : Option (Nat × Nat))
    (stands : ∀ net, entry = some net → StandsAt dnl fid net) (skipInstTerm skipBitTerm : Option Nat)
    (skipped : ∀ u, skipInstTerm = some u ∨ skipBitTerm = some u → u = fid) (stack : List Nat) :
    Worklist.Pushes (Worklist.Adjacent (StandsAt dnl)) (fun u => ∃ net, entry = some net ∧ StandsAt dnl u net)
      (netCost dnl entry) visited fid stack (pushOn dnl visited skipInstTerm skipBitTerm entry stack) := by
  cases entry with
  | none => exact ⟨⟨[], rfl, Nat.zero_le _, by simp⟩, by simp⟩
  | some entry => simpa [pushOn] using pushNet_spec visited skipInstTerm skipBitTerm fid skipped entry (stands entry rfl) stack

theorem pushNets_spec (visited : List Nat) (fid : Nat) (stack : List Nat) :
    Worklist.Pushes (Worklist.Adjacent (StandsAt dnl)) (Worklist.Adjacent (StandsAt dnl) fid) (treatCost dnl fid) visited fid stack
      (pushNets dnl visited fid stack) := by
  have inner := pushOn_spec visited fid (innerNet dnl fid) (fun net => Or.inl) none (some fid) (by simp [eq_comm]) stack
  have outer := pushOn_spec visited fid (outerNet dnl fid) (fun net => Or.inr) (some fid) none (by simp [eq_comm])
    (pushOn dnl visited none (some fid) (innerNet dnl fid) stack)
  convert inner.append outer using 1
  · funext u
    simp [Worklist.Adjacent, StandsAt, or_and_right, exists_or]
  · rfl
  · rfl

/-- `treatDriver` ends, and it records what is connected to its start, each terminal once. -/
theorem treatDriver_eq (updateDriver : Bool) (iso start : Nat) (db : IsoDB) :
    ∃ visited : List Nat, treatDriver dnl updateDriver iso start db =
        some (visited.foldr (treatTerminal dnl updateDriver iso) db) ∧ visited.Nodup ∧
      ∀ u, u ∈ visited ↔ Worklist.Connected (StandsAt dnl) start u := by
  obtain ⟨visited, ended, nodup, exact_⟩ := Worklist.walk_spec (pushNets dnl) (treatTerminal dnl updateDriver iso)
    (Worklist.Adjacent (StandsAt dnl)) (List.range dnl.terms.length) (treatCost dnl)
    (by
      intro a outside
      have absent := List.getElem?_eq_none (Nat.le_of_not_lt (mt List.mem_range.mpr outside))
      simp [treatCost, innerNet, bitTermNet, outerNet, absent, netCost])
    pushNets_spec [] List.nodup_nil (fun a member => absurd member List.not_mem_nil) start db _ (Nat.lt_succ_self _)
  refine ⟨visited, ?_, nodup, fun u => (exact_ u).trans (by simp [Worklist.Connected])⟩
  exact congrArg (Option.map (·.result)) ended

end Members

end Naja.Dnl
