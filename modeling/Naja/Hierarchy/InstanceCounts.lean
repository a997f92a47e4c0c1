import Mathlib.Data.Set.Card
import Naja.Hierarchy.Levels
import Naja.Worklist.Fuelled

/-! The instances below a top, counted once per hierarchical path and once per design. -/

namespace Naja.Hierarchy
open Naja.Unfolding
open Naja.Universe (NLID)
open Naja.Worklist (Gives)

/-- No step of the recursion adds more than one to a count. -/
structure InstanceCount where
  totalInstances : Nat := 0
  leafInstances : Nat := 0
  foldedTotalInstances : Nat := 0
  foldedLeafInstances : Nat := 0
  reachableModels : Nat := 0
deriving DecidableEq, Repr

/-- The two sets of designs and the count that the recursion shares. -/
structure Visit where
  visitedDesigns : List Nat := []
  activeDesigns : List Nat := []
  count : InstanceCount := {}

def Universe.isLeaf (u : Universe) (model : Nat) : Bool := (u.designs[model]?).any Design.isLeaf

def countInstance (leaf firstVisit : Bool) (count : InstanceCount) : InstanceCount :=
  { count with
    totalInstances := count.totalInstances + 1
    leafInstances := if leaf then count.leafInstances + 1 else count.leafInstances
    foldedTotalInstances := if firstVisit then count.foldedTotalInstances + 1 else count.foldedTotalInstances
    foldedLeafInstances := if firstVisit && leaf then count.foldedLeafInstances + 1 else count.foldedLeafInstances }

/-- A design that is not active becomes active, and visited if it was not. -/
def enterDesign (design : Nat) (s : Visit) : Visit :=
  { visitedDesigns := if s.visitedDesigns.contains design then s.visitedDesigns else design :: s.visitedDesigns
    activeDesigns := design :: s.activeDesigns
    count :=
      if s.visitedDesigns.contains design then s.count
      else { s.count with reachableModels := s.count.reachableModels + 1 } }

def collectReachableInstanceCount (u : Universe) : Nat → Nat → Visit → Option Visit
  | 0, _, _ => none
  | fuel + 1, design, s =>
      if s.activeDesigns.contains design then some s
      else
        let firstVisit := !s.visitedDesigns.contains design
        ((u.getInstances design).foldlM (fun s inst =>
          collectReachableInstanceCount u fuel inst.model
            { s with count := countInstance (u.isLeaf inst.model) firstVisit s.count }) (enterDesign design s)).map
          (fun s => { s with activeDesigns := s.activeDesigns.erase design })

def countReachableInstances (u : Universe) (fuel top : Nat) : Option InstanceCount :=
  (collectReachableInstanceCount u fuel top {}).map Visit.count

/-! ### What is counted -/

/-- All instances, or those of leaf models only. -/
def Universe.counted (u : Universe) (leafOnly : Bool) (model : Nat) : Bool := !leafOnly || u.isLeaf model

def InstanceCount.unfolded (count : InstanceCount) (leafOnly : Bool) : Nat :=
  if leafOnly then count.leafInstances else count.totalInstances

def InstanceCount.folded (count : InstanceCount) (leafOnly : Bool) : Nat :=
  if leafOnly then count.foldedLeafInstances else count.foldedTotalInstances

namespace Universe

variable (u : Universe)

/-- The hierarchical paths below a design, or those that end at a leaf. -/
def pathsBelow (leafOnly : Bool) (design : Nat) : Set (List Nat) :=
  {path | path ≠ [] ∧ ∃ model, Unfolding.walk u.child design path = some model ∧ u.counted leafOnly model = true}

/-- Those that go through some instances of the design first. -/
def pathsThrough (leafOnly : Bool) (insts : List Instance) : Set (List Nat) :=
  {path | ∃ inst ∈ insts, ∃ rest, path = inst.id :: rest ∧
    (rest = [] ∧ u.counted leafOnly inst.model = true ∨ rest ∈ u.pathsBelow leafOnly inst.model)}

/-- The number of instances of a design, or of its leaf instances. -/
def instancesOf (leafOnly : Bool) (design : Nat) : Nat :=
  (u.getInstances design).countP (fun inst => u.counted leafOnly inst.model)

theorem pathsBelow_eq (wf : u.WellFormed) (leafOnly : Bool) (design : Nat) :
    u.pathsBelow leafOnly design = u.pathsThrough leafOnly (u.getInstances design) := by
  ext path
  constructor
  · rintro ⟨some_, model, reached, counts⟩
    cases path with
    | nil => exact absurd rfl some_
    | cons id rest =>
        obtain ⟨next, edge, further⟩ := Option.bind_eq_some_iff.mp reached
        obtain ⟨inst, member, rfl, rfl⟩ := (u.child_iff wf design id next).mp edge
        refine ⟨inst, member, rest, rfl, ?_⟩
        by_cases empty : rest = []
        · subst empty
          cases further
          exact Or.inl ⟨rfl, counts⟩
        · exact Or.inr ⟨empty, model, further, counts⟩
  · rintro ⟨inst, member, rest, rfl, last⟩
    have edge := (u.child_iff wf design inst.id inst.model).mpr ⟨inst, member, rfl, rfl⟩
    refine ⟨nofun, ?_⟩
    rcases last with ⟨rfl, counts⟩ | ⟨-, model, further, counts⟩
    · exact ⟨inst.model, Option.bind_eq_some_iff.mpr ⟨inst.model, edge, rfl⟩, counts⟩
    · exact ⟨model, Option.bind_eq_some_iff.mpr ⟨inst.model, edge, further⟩, counts⟩

/-- The paths through the first instance: the instance itself, and those below its model. -/
theorem pathsThrough_cons (leafOnly : Bool) (inst : Instance) (rest : List Instance) :
    u.pathsThrough leafOnly (inst :: rest) =
      {path | path = [inst.id] ∧ u.counted leafOnly inst.model = true} ∪
        (List.cons inst.id '' u.pathsBelow leafOnly inst.model ∪ u.pathsThrough leafOnly rest) := by
  ext path
  constructor
  · rintro ⟨i, member, tail, rfl, last⟩
    rcases List.mem_cons.mp member with rfl | later
    · rcases last with ⟨rfl, counts⟩ | below
      · exact Or.inl ⟨rfl, counts⟩
      · exact Or.inr (Or.inl ⟨tail, below, rfl⟩)
    · exact Or.inr (Or.inr ⟨i, later, tail, rfl, last⟩)
  · rintro (⟨rfl, counts⟩ | ⟨tail, below, rfl⟩ | ⟨i, later, tail, rfl, last⟩)
    · exact ⟨inst, List.mem_cons_self, [], rfl, Or.inl ⟨rfl, counts⟩⟩
    · exact ⟨inst, List.mem_cons_self, tail, rfl, Or.inr below⟩
    · exact ⟨i, List.mem_cons_of_mem _ later, tail, rfl, last⟩

theorem encard_pathsThrough_cons (leafOnly : Bool) (inst : Instance) (rest : List Instance)
    (ids : ((inst :: rest).map Instance.id).Nodup) :
    (u.pathsThrough leafOnly (inst :: rest)).encard =
      ((if u.counted leafOnly inst.model then 1 else 0 : Nat) : ENat) + (u.pathsBelow leafOnly inst.model).encard +
        (u.pathsThrough leafOnly rest).encard := by
  have own : ({path | path = [inst.id] ∧ u.counted leafOnly inst.model = true} : Set (List Nat)).encard =
      ((if u.counted leafOnly inst.model then 1 else 0 : Nat) : ENat) := by
    cases u.counted leafOnly inst.model with
    | false => simp
    | true => simp
  have others (i : Instance) (member : i ∈ rest) : i.id ≠ inst.id := by
    rw [List.map_cons, List.nodup_cons] at ids
    intro same
    exact ids.1 (same ▸ List.mem_map_of_mem member)
  have apart : Disjoint (List.cons inst.id '' u.pathsBelow leafOnly inst.model) (u.pathsThrough leafOnly rest) := by
    rw [Set.disjoint_left]
    rintro _ ⟨tail, -, rfl⟩ ⟨i, member, tail', same, -⟩
    exact others i member (List.cons.inj same).1.symm
  have first : Disjoint {path | path = [inst.id] ∧ u.counted leafOnly inst.model = true}
      (List.cons inst.id '' u.pathsBelow leafOnly inst.model ∪ u.pathsThrough leafOnly rest) := by
    rw [Set.disjoint_left]
    rintro _ ⟨rfl, -⟩ (⟨tail, ⟨some_, -⟩, same⟩ | ⟨i, member, tail', same, -⟩)
    · exact some_ (List.cons.inj same).2
    · exact others i member (List.cons.inj same).1.symm
  rw [pathsThrough_cons, Set.encard_union_eq first, Set.encard_union_eq apart, own,
    (List.cons_injective).encard_image, add_assoc]

end Universe

/-! ### One visit -/

/-- Below a visited design everything is visited, unless the design is active. -/
def Closed (u : Universe) (s : Visit) : Prop :=
  ∀ d ∈ s.visitedDesigns, d ∈ s.activeDesigns ∨ ∀ e, u.Reaches d e → e ∈ s.visitedDesigns

/-- The instances of the visited designs. -/
def foldedSum (u : Universe) (leafOnly : Bool) (visited : List Nat) : Nat := (visited.map (u.instancesOf leafOnly)).sum

theorem foldedSum_cons (u : Universe) (leafOnly : Bool) (design : Nat) (visited : List Nat) :
    foldedSum u leafOnly (design :: visited) = u.instancesOf leafOnly design + foldedSum u leafOnly visited := by
  simp [foldedSum]

/-- What a part of the recursion adds: the designs `below` it to the visited ones, `own` instances
of a design that is being visited, and some `paths`. -/
structure Visits (u : Universe) (s s' : Visit) (below : Nat → Prop) (own : Bool → Nat) (paths : Bool → ENat) : Prop where
  active : s'.activeDesigns = s.activeDesigns
  nodup : s'.visitedDesigns.Nodup
  closed : Closed u s'
  visited : ∀ e, e ∈ s'.visitedDesigns ↔ e ∈ s.visitedDesigns ∨ below e
  models : s'.count.reachableModels + s.visitedDesigns.length = s.count.reachableModels + s'.visitedDesigns.length
  folded : ∀ leafOnly, s'.count.folded leafOnly + foldedSum u leafOnly s.visitedDesigns =
    s.count.folded leafOnly + own leafOnly + foldedSum u leafOnly s'.visitedDesigns
  unfolded : ∀ leafOnly, (s'.count.unfolded leafOnly : ENat) = s.count.unfolded leafOnly + paths leafOnly

/-- A visit of a design that no active design is below of. -/
def VisitSpec (u : Universe) (collect : Visit → Option Visit) (design : Nat) : Prop :=
  ∀ s : Visit, s.visitedDesigns.Nodup → Closed u s → (∀ a ∈ s.activeDesigns, ¬ u.Reaches design a) →
    ∃ s', collect s = some s' ∧
      Visits u s s' (u.Reaches design) (fun _ => 0) (fun leafOnly => (u.pathsBelow leafOnly design).encard)

theorem unfolded_countInstance (leafOnly leaf first : Bool) (count : InstanceCount) :
    (countInstance leaf first count).unfolded leafOnly = count.unfolded leafOnly + if !leafOnly || leaf then 1 else 0 := by
  cases leafOnly <;> cases leaf <;> simp [countInstance, InstanceCount.unfolded]

theorem folded_countInstance (leafOnly leaf first : Bool) (count : InstanceCount) :
    (countInstance leaf first count).folded leafOnly =
      count.folded leafOnly + if first then (if !leafOnly || leaf then 1 else 0) else 0 := by
  cases leafOnly <;> cases leaf <;> cases first <;> simp [countInstance, InstanceCount.folded]

/-- The loop over the instances of a design. -/
theorem visitInstances (u : Universe) (collect : Nat → Visit → Option Visit) (first : Bool) (insts : List Instance)
    (ids : (insts.map Instance.id).Nodup) (call : ∀ inst ∈ insts, VisitSpec u (collect inst.model) inst.model)
    (s : Visit) (nodup : s.visitedDesigns.Nodup) (closed : Closed u s)
    (inactive : ∀ inst ∈ insts, ∀ a ∈ s.activeDesigns, ¬ u.Reaches inst.model a) :
    ∃ s', insts.foldlM (fun s inst =>
          collect inst.model { s with count := countInstance (u.isLeaf inst.model) first s.count }) s = some s' ∧
      Visits u s s' (fun e => ∃ inst ∈ insts, u.Reaches inst.model e)
        (fun leafOnly => if first then insts.countP (fun inst => u.counted leafOnly inst.model) else 0)
        (fun leafOnly => (u.pathsThrough leafOnly insts).encard) := by
  induction insts generalizing s with
  | nil =>
      refine ⟨s, rfl, rfl, nodup, closed, by simp, rfl, fun leafOnly => by simp, fun leafOnly => ?_⟩
      have nothing : u.pathsThrough leafOnly [] = ∅ := by
        ext path
        simp [Universe.pathsThrough]
      simp [nothing]
  | cons inst rest ih =>
      have idsRest := ids
      rw [List.map_cons, List.nodup_cons] at idsRest
      obtain ⟨middle, visited, step⟩ := call inst List.mem_cons_self
        { s with count := countInstance (u.isLeaf inst.model) first s.count } nodup closed
        (inactive inst List.mem_cons_self)
      obtain ⟨s', loop, more⟩ := ih idsRest.2 (fun i member => call i (List.mem_cons_of_mem _ member)) middle
        step.nodup step.closed (fun i member => by
          rw [step.active]
          exact inactive i (List.mem_cons_of_mem _ member))
      refine ⟨s', ?_, more.active.trans step.active, more.nodup, more.closed, ?_, ?_, ?_, ?_⟩
      · rw [List.foldlM_cons, visited]
        exact loop
      · intro e
        rw [more.visited, step.visited]
        simp [or_assoc]
      · have one := step.models
        have others := more.models
        simp only [countInstance] at one
        omega
      · intro leafOnly
        have one := step.folded leafOnly
        have others := more.folded leafOnly
        simp only [folded_countInstance] at one
        rw [List.countP_cons]
        unfold Universe.counted at others ⊢
        cases first
        · simp only [Bool.false_eq_true, if_false] at one others ⊢
          omega
        · simp only [if_true] at one others ⊢
          omega
      · intro leafOnly
        rw [more.unfolded, step.unfolded, unfolded_countInstance, u.encard_pathsThrough_cons leafOnly inst rest ids]
        unfold Universe.counted
        rw [Nat.cast_add, add_assoc, add_assoc, add_assoc]

/-! ### The recursion -/

theorem enterDesign_folded (leafOnly : Bool) (design : Nat) (s : Visit) :
    (enterDesign design s).count.folded leafOnly = s.count.folded leafOnly := by
  unfold enterDesign
  split
  · rfl
  · cases leafOnly <;> rfl

theorem enterDesign_unfolded (leafOnly : Bool) (design : Nat) (s : Visit) :
    (enterDesign design s).count.unfolded leafOnly = s.count.unfolded leafOnly := by
  unfold enterDesign
  split
  · rfl
  · cases leafOnly <;> rfl

theorem mem_enterDesign (design : Nat) (s : Visit) (e : Nat) :
    e ∈ (enterDesign design s).visitedDesigns ↔ e = design ∨ e ∈ s.visitedDesigns := by
  unfold enterDesign
  by_cases old : design ∈ s.visitedDesigns
  · simp only [List.contains_iff_mem.mpr old, if_true]
    constructor
    · exact Or.inr
    · rintro (rfl | member)
      · exact old
      · exact member
  · simp [old]

theorem closed_enterDesign (u : Universe) (design : Nat) (s : Visit) (closed : Closed u s) :
    Closed u (enterDesign design s) := by
  intro d member
  rw [mem_enterDesign] at member
  rcases member with rfl | old
  · exact Or.inl List.mem_cons_self
  · rcases closed d old with active | all
    · exact Or.inl (List.mem_cons_of_mem _ active)
    · exact Or.inr fun e reached => (mem_enterDesign design s e).mpr (Or.inr (all e reached))

theorem nodup_enterDesign (design : Nat) (s : Visit) (nodup : s.visitedDesigns.Nodup) :
    (enterDesign design s).visitedDesigns.Nodup := by
  unfold enterDesign
  by_cases old : design ∈ s.visitedDesigns
  · simpa [old] using nodup
  · simpa [old] using nodup

theorem nodup_ids (u : Universe) (wf : u.WellFormed) (design : Nat) : ((u.getInstances design).map Instance.id).Nodup := by
  unfold Universe.getInstances
  cases found : u.designs[design]? with
  | none => exact List.nodup_nil
  | some d => exact (wf.designs d (List.mem_of_getElem? found)).instanceIds

/-- With fuel above the rank of a design. -/
theorem collect_spec (u : Universe) (wf : u.WellFormed) (rank : Nat → Nat) (descends : Descends u.child rank)
    (fuel design : Nat) (enough : rank design < fuel) : VisitSpec u (collectReachableInstanceCount u fuel design) design := by
  induction fuel generalizing design with
  | zero => omega
  | succ fuel ih =>
      intro s nodup closed inactive
      have fresh : design ∉ s.activeDesigns := fun member => inactive design member (Universe.Reaches.refl u design)
      have lower (inst : Instance) (member : inst ∈ u.getInstances design) : rank inst.model < rank design :=
        descends design inst.id inst.model ((u.child_iff wf design inst.id inst.model).mpr ⟨inst, member, rfl, rfl⟩)
      have call (inst : Instance) (member : inst ∈ u.getInstances design) :
          VisitSpec u (collectReachableInstanceCount u fuel inst.model) inst.model := by
        have below := lower inst member
        exact ih inst.model (by omega)
      have stillInactive (inst : Instance) (member : inst ∈ u.getInstances design) (a : Nat)
          (active : a ∈ (enterDesign design s).activeDesigns) : ¬ u.Reaches inst.model a := by
        intro reached
        rcases List.mem_cons.mp active with rfl | old
        · obtain ⟨path, back⟩ := reached
          have bound := descends.walk u.child rank path inst.model a back
          have below := lower inst member
          omega
        · exact inactive a old ((u.reaches_iff wf design a).mpr (Or.inr ⟨inst, member, reached⟩))
      obtain ⟨s', loop, visits⟩ := visitInstances u (collectReachableInstanceCount u fuel)
        (!s.visitedDesigns.contains design) (u.getInstances design) (nodup_ids u wf design) call (enterDesign design s)
        (nodup_enterDesign design s nodup) (closed_enterDesign u design s closed) stillInactive
      have active : s'.activeDesigns = design :: s.activeDesigns := visits.active
      have erased : s'.activeDesigns.erase design = s.activeDesigns := by rw [active, List.erase_cons_head]
      have visited (e : Nat) : e ∈ s'.visitedDesigns ↔ e ∈ s.visitedDesigns ∨ u.Reaches design e := by
        rw [visits.visited, mem_enterDesign, u.reaches_iff wf design]
        tauto
      refine ⟨{ s' with activeDesigns := s'.activeDesigns.erase design }, ?_, erased, visits.nodup, ?_, visited, ?_, ?_, ?_⟩
      · unfold collectReachableInstanceCount
        rw [if_neg (by simpa using fresh)]
        simp only
        rw [loop, Option.map_some]
      · intro d member
        by_cases same : d = design
        · subst same
          exact Or.inr fun e reached => (visited e).mpr (Or.inr reached)
        · rcases visits.closed d member with before | all
          · rw [active, List.mem_cons] at before
            exact Or.inl (erased ▸ before.resolve_left same)
          · exact Or.inr all
      · have models := visits.models
        by_cases old : design ∈ s.visitedDesigns
        · simpa [enterDesign, old] using models
        · simp [enterDesign, old] at models
          simp only
          omega
      · intro leafOnly
        have folded := visits.folded leafOnly
        rw [enterDesign_folded] at folded
        by_cases old : design ∈ s.visitedDesigns
        · simpa [enterDesign, old] using folded
        · have enter : (enterDesign design s).visitedDesigns = design :: s.visitedDesigns := by simp [enterDesign, old]
          have first : (!s.visitedDesigns.contains design) = true := by simpa using old
          have own : u.instancesOf leafOnly design =
              (u.getInstances design).countP (fun inst => u.counted leafOnly inst.model) := rfl
          rw [enter, foldedSum_cons, own] at folded
          simp only [first, if_true] at folded
          simp only
          omega
      · intro leafOnly
        rw [visits.unfolded leafOnly, enterDesign_unfolded, u.pathsBelow_eq wf]

/-! ### The counts -/

/-- Every count is the number of the things it counts. -/
structure ExactCount (u : Universe) (top : Nat) (count : InstanceCount) : Prop where
  reachableModels : {design | u.Reaches top design}.encard = count.reachableModels
  foldedTotalInstances :
    {place : Nat × Nat | u.Reaches top place.1 ∧ (u.child place.1 place.2).isSome}.encard = count.foldedTotalInstances
  foldedLeafInstances :
    {place : Nat × Nat | u.Reaches top place.1 ∧ ∃ model, u.child place.1 place.2 = some model ∧ u.isLeaf model}.encard =
      count.foldedLeafInstances
  totalInstances :
    {path | path ≠ [] ∧ (Unfolding.walk u.child top path).isSome}.encard = count.totalInstances
  leafInstances :
    {path | path ≠ [] ∧ ∃ model, Unfolding.walk u.child top path = some model ∧ u.isLeaf model}.encard =
      count.leafInstances

theorem encard_list {α : Type} (members : List α) (nodup : members.Nodup) :
    {a | a ∈ members}.encard = members.length := by
  classical
  have finset : {a | a ∈ members} = (members.toFinset : Set α) := by
    ext a
    simp
  rw [finset, Set.encard_coe_eq_coe_finsetCard, List.toFinset_card_of_nodup nodup]

/-- The instances of a design, by their IDs. -/
theorem encard_instances (u : Universe) (wf : u.WellFormed) (leafOnly : Bool) (design : Nat) :
    {id | ∃ model, u.child design id = some model ∧ u.counted leafOnly model = true}.encard =
      u.instancesOf leafOnly design := by
  let chosen := (u.getInstances design).filter (fun inst => u.counted leafOnly inst.model)
  have listed : {id | ∃ model, u.child design id = some model ∧ u.counted leafOnly model = true} =
      {id | id ∈ chosen.map Instance.id} := by
    ext id
    simp only [Set.mem_ofPred_eq, u.child_iff wf, List.mem_map, chosen, List.mem_filter]
    constructor
    · rintro ⟨_, ⟨inst, member, same, rfl⟩, counts⟩
      exact ⟨inst, ⟨member, counts⟩, same⟩
    · rintro ⟨inst, ⟨member, counts⟩, same⟩
      exact ⟨inst.model, ⟨inst, member, same, rfl⟩, counts⟩
  have nodup : (chosen.map Instance.id).Nodup := (nodup_ids u wf design).sublist (List.filter_sublist.map Instance.id)
  rw [listed, encard_list _ nodup, List.length_map, Universe.instancesOf, List.countP_eq_length_filter]

/-- The instances of some designs, each by its design and its ID. -/
theorem encard_places (u : Universe) (wf : u.WellFormed) (leafOnly : Bool) (designs : List Nat) (nodup : designs.Nodup) :
    {place : Nat × Nat | place.1 ∈ designs ∧ ∃ model, u.child place.1 place.2 = some model ∧
      u.counted leafOnly model = true}.encard = foldedSum u leafOnly designs := by
  induction designs with
  | nil => simp [foldedSum]
  | cons d rest ih =>
      rw [List.nodup_cons] at nodup
      let here := {id | ∃ model, u.child d id = some model ∧ u.counted leafOnly model = true}
      let others := {place : Nat × Nat | place.1 ∈ rest ∧ ∃ model, u.child place.1 place.2 = some model ∧
        u.counted leafOnly model = true}
      have parts : {place : Nat × Nat | place.1 ∈ d :: rest ∧ ∃ model, u.child place.1 place.2 = some model ∧
          u.counted leafOnly model = true} = Prod.mk d '' here ∪ others := by
        ext ⟨e, id⟩
        constructor
        · rintro ⟨member, counts⟩
          rcases List.mem_cons.mp member with same | later
          · change e = d at same
            subst same
            exact Or.inl ⟨id, counts, rfl⟩
          · exact Or.inr ⟨later, counts⟩
        · rintro (⟨id', counts, same⟩ | ⟨later, counts⟩)
          · cases same
            exact ⟨List.mem_cons_self, counts⟩
          · exact ⟨List.mem_cons_of_mem _ later, counts⟩
      have apart : Disjoint (Prod.mk d '' here) others := by
        rw [Set.disjoint_left]
        rintro _ ⟨id, -, rfl⟩ ⟨later, -⟩
        exact nodup.1 later
      rw [parts, Set.encard_union_eq apart, (Prod.mk_right_injective d).encard_image, ih nodup.2, foldedSum_cons,
        Nat.cast_add]
      exact congrArg (· + _) (encard_instances u wf leafOnly d)

/-- The counts below a top, once there is fuel for the depth of the hierarchy. -/
theorem instancesBelow (u : Universe) (wf : u.WellFormed) (rank : Nat → Nat) (descends : Descends u.child rank)
    (top fuel : Nat) (enough : rank top < fuel) :
    ∃ count, countReachableInstances u fuel top = some count ∧ ExactCount u top count := by
  obtain ⟨s, collected, visits⟩ := collect_spec u wf rank descends fuel top enough {} List.nodup_nil nofun nofun
  have reached (d : Nat) : d ∈ s.visitedDesigns ↔ u.Reaches top d := by
    rw [visits.visited]
    simp
  have folded (leafOnly : Bool) : {place : Nat × Nat | u.Reaches top place.1 ∧
      ∃ model, u.child place.1 place.2 = some model ∧ u.counted leafOnly model = true}.encard =
      s.count.folded leafOnly := by
    have sums := visits.folded leafOnly
    have none : ({} : Visit).count.folded leafOnly = 0 := by cases leafOnly <;> rfl
    have empty : foldedSum u leafOnly ({} : Visit).visitedDesigns = 0 := rfl
    rw [none, empty] at sums
    simp only [← reached]
    rw [encard_places u wf leafOnly s.visitedDesigns visits.nodup]
    exact congrArg Nat.cast (by omega)
  have unfolded (leafOnly : Bool) : (u.pathsBelow leafOnly top).encard = s.count.unfolded leafOnly := by
    have none : ({} : Visit).count.unfolded leafOnly = 0 := by cases leafOnly <;> rfl
    rw [visits.unfolded leafOnly, none, Nat.cast_zero, zero_add]
  refine ⟨s.count, by rw [countReachableInstances, collected, Option.map_some], ?_, ?_, ?_, ?_, ?_⟩
  · have models := visits.models
    simp only [← reached]
    rw [encard_list _ visits.nodup]
    exact congrArg Nat.cast (by simpa using models.symm)
  · have total := folded false
    simpa [Universe.counted, InstanceCount.folded, Option.isSome_iff_exists] using total
  · have leaves := folded true
    simpa [Universe.counted, InstanceCount.folded] using leaves
  · have total := unfolded false
    simpa [Universe.pathsBelow, Universe.counted, InstanceCount.unfolded, Option.isSome_iff_exists] using total
  · have leaves := unfolded true
    simpa [Universe.pathsBelow, Universe.counted, InstanceCount.unfolded] using leaves

theorem ExactCount.unique (u : Universe) (top : Nat) (a b : InstanceCount) (first : ExactCount u top a)
    (second : ExactCount u top b) : a = b := by
  have same {n m : Nat} {x : ENat} (left : x = n) (right : x = m) : n = m := Nat.cast_injective (left.symm.trans right)
  obtain ⟨⟩ := a
  obtain ⟨⟩ := b
  rw [InstanceCount.mk.injEq]
  exact ⟨same first.totalInstances second.totalInstances, same first.leafInstances second.leafInstances,
    same first.foldedTotalInstances second.foldedTotalInstances,
    same first.foldedLeafInstances second.foldedLeafInstances, same first.reachableModels second.reachableModels⟩

theorem ByLevel.unique (u : Universe) (nlid : Nat → NLID) (top : Nat) (a b : List (Nat × Nat))
    (first : ByLevel u nlid top a) (second : ByLevel u nlid top b) : a = b := by
  have part (x y : List (Nat × Nat)) (left : ByLevel u nlid top x) (right : ByLevel u nlid top y) (d n : Nat)
      (member : (d, n) ∈ x) : (d, n) ∈ y := by
    have reached := (left.reachable d).mp (List.mem_map_of_mem member)
    obtain ⟨⟨d', m⟩, there, same⟩ := List.mem_map.mp ((right.reachable d).mpr reached)
    change d' = d at same
    subst same
    rwa [(Universe.IsLevel.unique u d' n m (left.level d' n member) (right.level d' m there))]
  have perm : a.Perm b := (List.perm_ext_iff_of_nodup first.nodup.of_map second.nodup.of_map).mpr
    fun entry => ⟨part a b first second entry.1 entry.2, part b a second first entry.1 entry.2⟩
  refine perm.eq_of_pairwise ?_ first.ordered second.ordered
  intro x y _ _ below above
  rw [lowerLevel_iff] at below above
  exact absurd below (lt_asymm above)

/-- Levels and counts of the hierarchy below a design, however its models are shared. -/
theorem hierarchy_exact (u : Universe) (wf : u.WellFormed) (nlid : Nat → NLID)
    (distinct : ∀ d e, d < u.designs.length → e < u.designs.length → nlid d = nlid e → d = e)
    (top : Nat) (inside : top < u.designs.length) :
    ∃ sorted count, Gives (fun fuel => getDesignsSortedByHierarchicalLevel u nlid fuel top) sorted ∧
      Gives (fun fuel => countReachableInstances u fuel top) count ∧
      ByLevel u nlid top sorted ∧ ExactCount u top count := by
  obtain ⟨rank, descends⟩ := wf.acyclic
  obtain ⟨sorted, -, byLevel⟩ := designsByLevel u wf nlid distinct rank descends top inside (rank top + 1) (by omega)
  obtain ⟨count, -, counted⟩ := instancesBelow u wf rank descends top (rank top + 1) (by omega)
  refine ⟨sorted, count, ⟨rank top + 1, fun fuel bound => ?_⟩, ⟨rank top + 1, fun fuel bound => ?_⟩, byLevel, counted⟩
  · obtain ⟨sorted', given, byLevel'⟩ := designsByLevel u wf nlid distinct rank descends top inside fuel (by omega)
    simp only
    rw [given, byLevel.unique u nlid top sorted sorted' byLevel']
  · obtain ⟨count', given, counted'⟩ := instancesBelow u wf rank descends top fuel (by omega)
    simp only
    rw [given, counted.unique u top count count' counted']

/-- A module used by the top and by another module, with two cells in it. -/
def diamondUniverse : Universe :=
  { libraries := [⟨"work", false⟩, ⟨"cells", true⟩]
    designs := [
      ⟨0, "top", .Standard, [], [], [⟨0, "a", 1, []⟩, ⟨1, "b", 2, []⟩], []⟩,
      ⟨0, "outer", .Standard, [], [], [⟨0, "c", 2, []⟩], []⟩,
      ⟨0, "inner", .Standard, [], [], [⟨0, "x", 3, []⟩, ⟨1, "y", 3, []⟩], []⟩,
      ⟨1, "cell", .Primitive, [], [], [], []⟩]
    top := 0 }

theorem diamondUniverse_wellFormed : diamondUniverse.WellFormed := by
  refine ⟨?_, by decide, ⟨fun k => 3 - k, ?_⟩⟩
  · intro d member
    simp only [diamondUniverse, List.mem_cons, List.not_mem_nil, or_false] at member
    rcases member with rfl | rfl | rfl | rfl <;> constructor <;> simp [diamondUniverse, Design.isPrimitive]
  · intro a label b edge
    obtain ⟨d, inst, here, found, rfl⟩ := (diamondUniverse.child_eq_some a label b).mp edge
    have member := (d.getInstance_some label inst found).1
    match a with
    | 0 | 1 | 2 =>
        obtain rfl := Option.some.inj here
        simp only [List.mem_cons, List.not_mem_nil, or_false] at member
        rcases member with rfl | rfl <;> decide
    | 3 =>
        obtain rfl := Option.some.inj here
        nomatch member
    | k + 4 => nomatch here

theorem diamondUniverse_exact :
    ∃ sorted count, Gives (fun fuel => getDesignsSortedByHierarchicalLevel diamondUniverse
        (fun d => { type := .Design, designID := d }) fuel 0) sorted ∧
      Gives (fun fuel => countReachableInstances diamondUniverse fuel 0) count ∧
      ByLevel diamondUniverse (fun d => { type := .Design, designID := d }) 0 sorted ∧ ExactCount diamondUniverse 0 count :=
  hierarchy_exact diamondUniverse diamondUniverse_wellFormed _ (fun _ _ _ _ same => congrArg NLID.designID same) 0 (by decide)

/-- The cells are on four paths, and in one module. -/
example : countReachableInstances diamondUniverse 4 0 = some ⟨7, 4, 5, 2, 4⟩ := by decide

end Naja.Hierarchy
