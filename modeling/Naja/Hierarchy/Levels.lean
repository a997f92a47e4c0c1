import Mathlib.Order.Bounds.Basic
import Naja.Hierarchy.Design
import Naja.Universe.NLID

/-! The designs below a top by hierarchical level: a design without instances is at level 0, the
others one above the highest of their models. -/

namespace Naja.Hierarchy
open Naja.Unfolding
open Naja.Universe (NLID)

def Universe.getInstances (u : Universe) (design : Nat) : List Instance :=
  ((u.designs[design]?).map Design.instances).getD []

/-- The map from designs to levels; a design has one entry. -/
abbrev DesignsLevel := List (Nat × Nat)

namespace DesignsLevel

def keys (levels : DesignsLevel) : List Nat := levels.map Prod.fst

def find (levels : DesignsLevel) (design : Nat) : Option Nat := levels.lookup design

def set (levels : DesignsLevel) (design level : Nat) : DesignsLevel :=
  (design, level) :: levels.filter (fun entry => entry.1 != design)

end DesignsLevel

/-- One instance of the loop of `levelize`: the highest level so far, and the map. -/
def levelModel (levelize : Nat → DesignsLevel → Option (Nat × DesignsLevel)) (s : Nat × DesignsLevel) (model : Nat) :
    Option (Nat × DesignsLevel) :=
  match s.2.find model with
  | some level => some (max s.1 level, s.2)
  | none => (levelize model s.2).map (fun r => (max s.1 r.1, r.2.set model r.1))

def levelize (u : Universe) : Nat → Nat → DesignsLevel → Option (Nat × DesignsLevel)
  | 0, _, _ => none
  | fuel + 1, design, levels =>
      if (u.getInstances design).isEmpty then some (0, levels.set design 0)
      else
        ((u.getInstances design).foldlM (fun s inst => levelModel (levelize u fuel) s inst.model) (0, levels)).map
          (fun s => (s.1 + 1, s.2.set design (s.1 + 1)))

/-- The comparison of the sort: by level, then by `NLID`. -/
def lowerLevel (nlid : Nat → NLID) (ldl rdl : Nat × Nat) : Bool :=
  if ldl.2 = rdl.2 then (nlid ldl.1).less (nlid rdl.1) else decide (ldl.2 < rdl.2)

def getDesignsSortedByHierarchicalLevel (u : Universe) (nlid : Nat → NLID) (fuel top : Nat) : Option (List (Nat × Nat)) :=
  (levelize u fuel top []).map (fun r => r.2.mergeSort (fun ldl rdl => !lowerLevel nlid rdl ldl))

/-! ### What is below a design -/

def Universe.Reaches (u : Universe) (design below : Nat) : Prop := ∃ path, Unfolding.walk u.child design path = some below

/-- The length of the longest chain of instances from a design down. -/
def Universe.IsLevel (u : Universe) (design level : Nat) : Prop :=
  IsGreatest {length | ∃ path, (Unfolding.walk u.child design path).isSome ∧ path.length = length} level

namespace Universe

variable (u : Universe)

theorem child_iff (wf : u.WellFormed) (design id model : Nat) :
    u.child design id = some model ↔ ∃ inst ∈ u.getInstances design, inst.id = id ∧ inst.model = model := by
  rw [child_eq_some]
  constructor
  · rintro ⟨d, inst, found, found', same⟩
    obtain ⟨member, sameId⟩ := d.getInstance_some id inst found'
    exact ⟨inst, by simpa [getInstances, found] using member, sameId, same⟩
  · rintro ⟨inst, member, sameId, same⟩
    cases found : u.designs[design]? with
    | none => simp [getInstances, found] at member
    | some d =>
        have inDesign : inst ∈ d.instances := by simpa [getInstances, found] using member
        have ids := (wf.designs d (List.mem_of_getElem? found)).instanceIds
        exact ⟨d, inst, rfl, sameId ▸ d.getInstance_of_mem ids inst inDesign, same⟩

theorem Reaches.refl (design : Nat) : u.Reaches design design := ⟨[], rfl⟩

theorem reaches_iff (wf : u.WellFormed) (design below : Nat) :
    u.Reaches design below ↔ below = design ∨ ∃ inst ∈ u.getInstances design, u.Reaches inst.model below := by
  constructor
  · rintro ⟨path, reached⟩
    cases path with
    | nil => exact Or.inl (Option.some.inj reached).symm
    | cons id rest =>
        obtain ⟨model, edge, further⟩ := Option.bind_eq_some_iff.mp reached
        obtain ⟨inst, member, -, rfl⟩ := (u.child_iff wf design id model).mp edge
        exact Or.inr ⟨inst, member, rest, further⟩
  · rintro (rfl | ⟨inst, member, path, reached⟩)
    · exact Reaches.refl u below
    · have edge := (u.child_iff wf design inst.id inst.model).mpr ⟨inst, member, rfl, rfl⟩
      exact ⟨inst.id :: path, Option.bind_eq_some_iff.mpr ⟨inst.model, edge, reached⟩⟩

theorem Reaches.trans {a b c : Nat} (first : u.Reaches a b) (second : u.Reaches b c) : u.Reaches a c := by
  obtain ⟨path, reached⟩ := first
  obtain ⟨path', reached'⟩ := second
  exact ⟨path ++ path', by rw [walk_append, reached]; exact reached'⟩

theorem IsLevel.unique (design n m : Nat) (first : u.IsLevel design n) (second : u.IsLevel design m) : n = m :=
  IsGreatest.unique first second

theorem isLevel_leaf (wf : u.WellFormed) (design : Nat) (empty : u.getInstances design = []) : u.IsLevel design 0 := by
  constructor
  · exact ⟨[], rfl, rfl⟩
  · rintro length ⟨path, reached, rfl⟩
    cases path with
    | nil => exact Nat.le_refl 0
    | cons id rest =>
        obtain ⟨below, reached⟩ := Option.isSome_iff_exists.mp reached
        obtain ⟨model, edge, -⟩ := Option.bind_eq_some_iff.mp reached
        obtain ⟨inst, member, -⟩ := (u.child_iff wf design id model).mp edge
        rw [empty] at member
        cases member

/-- One above the highest of the models. -/
theorem isLevel_step (wf : u.WellFormed) (design highest : Nat)
    (bound : ∀ inst ∈ u.getInstances design, ∃ n, u.IsLevel inst.model n ∧ n ≤ highest)
    (attained : ∃ inst ∈ u.getInstances design, u.IsLevel inst.model highest) : u.IsLevel design (highest + 1) := by
  constructor
  · obtain ⟨inst, member, ⟨path, reached, length⟩, -⟩ := attained
    have edge := (u.child_iff wf design inst.id inst.model).mpr ⟨inst, member, rfl, rfl⟩
    refine ⟨inst.id :: path, ?_, by rw [List.length_cons, length]⟩
    rw [Unfolding.walk, edge]
    exact reached
  · rintro length ⟨path, reached, rfl⟩
    cases path with
    | nil => exact Nat.zero_le _
    | cons id rest =>
        obtain ⟨below, reached⟩ := Option.isSome_iff_exists.mp reached
        obtain ⟨model, edge, further⟩ := Option.bind_eq_some_iff.mp reached
        obtain ⟨inst, member, -, rfl⟩ := (u.child_iff wf design id model).mp edge
        obtain ⟨n, level, most⟩ := bound inst member
        have below_ : rest.length ≤ n := level.2 ⟨rest, by rw [further]; rfl, rfl⟩
        rw [List.length_cons]
        omega

end Universe

/-! ### The map -/

namespace DesignsLevel

theorem find_some (levels : DesignsLevel) (design level : Nat) (found : levels.find design = some level) :
    (design, level) ∈ levels := by
  unfold find at found
  induction levels with
  | nil => cases found
  | cons entry rest ih =>
      obtain ⟨d, n⟩ := entry
      rw [List.lookup_cons] at found
      split at found
      · next same =>
          cases found
          rw [beq_iff_eq] at same
          exact same ▸ List.mem_cons_self
      · exact List.mem_cons_of_mem _ (ih found)

theorem mem_keys_set (levels : DesignsLevel) (design level d : Nat) :
    d ∈ (levels.set design level).keys ↔ d = design ∨ d ∈ levels.keys := by
  simp only [set, keys, List.map_cons, List.mem_cons, List.mem_map, List.mem_filter, bne_iff_ne]
  constructor
  · rintro (same | ⟨entry, ⟨member, -⟩, same⟩)
    · exact Or.inl same
    · exact Or.inr ⟨entry, member, same⟩
  · rintro (same | ⟨entry, member, rfl⟩)
    · exact Or.inl same
    · by_cases same : entry.1 = design
      · exact Or.inl same
      · exact Or.inr ⟨entry, ⟨member, same⟩, rfl⟩

end DesignsLevel

/-- The levels in the map are right, and with a design all that is below it is in the map. -/
structure Leveled (u : Universe) (levels : DesignsLevel) : Prop where
  nodup : levels.keys.Nodup
  exact_ : ∀ d n, (d, n) ∈ levels → u.IsLevel d n
  closed : ∀ d e, d ∈ levels.keys → u.Reaches d e → e ∈ levels.keys

theorem Leveled.set (u : Universe) (levels : DesignsLevel) (leveled : Leveled u levels) (design level : Nat)
    (right : u.IsLevel design level) (below : ∀ e, u.Reaches design e → e = design ∨ e ∈ levels.keys) :
    Leveled u (levels.set design level) := by
  constructor
  · simp only [DesignsLevel.set, DesignsLevel.keys, List.map_cons, List.nodup_cons]
    constructor
    · simp
    · exact (leveled.nodup.sublist ((List.filter_sublist).map Prod.fst))
  · intro d n member
    rcases List.mem_cons.mp member with same | kept
    · cases same
      exact right
    · exact leveled.exact_ d n (List.mem_of_mem_filter kept)
  · intro d e member reached
    rw [DesignsLevel.mem_keys_set] at member ⊢
    rcases member with rfl | old
    · exact below e reached
    · exact Or.inr (leveled.closed d e old reached)

/-- What a call adds to the map: the design and all that is below it. -/
structure Adds (u : Universe) (levels levels' : DesignsLevel) (designs : List Nat) : Prop where
  leveled : Leveled u levels'
  keys : ∀ e, e ∈ levels'.keys ↔ e ∈ levels.keys ∨ ∃ d ∈ designs, u.Reaches d e

def LevelizeSpec (u : Universe) (levelize : Nat → DesignsLevel → Option (Nat × DesignsLevel)) (model : Nat) : Prop :=
  ∀ levels, Leveled u levels → ∃ n levels', levelize model levels = some (n, levels') ∧ u.IsLevel model n ∧
    Adds u levels levels' [model]

theorem levelModel_spec (u : Universe) (levelize : Nat → DesignsLevel → Option (Nat × DesignsLevel)) (model : Nat)
    (call : LevelizeSpec u levelize model) (highest : Nat) (levels : DesignsLevel) (leveled : Leveled u levels) :
    ∃ n levels', levelModel levelize (highest, levels) model = some (max highest n, levels') ∧ u.IsLevel model n ∧
      Adds u levels levels' [model] := by
  unfold levelModel
  cases found : levels.find model with
  | some level =>
      have member := levels.find_some model level found
      have here : model ∈ levels.keys := List.mem_map.mpr ⟨(model, level), member, rfl⟩
      refine ⟨level, levels, by simp only, leveled.exact_ model level member, leveled, fun e => ?_⟩
      constructor
      · exact Or.inl
      · rintro (old | ⟨d, inList, reached⟩)
        · exact old
        · rw [List.mem_singleton] at inList
          subst inList
          exact leveled.closed d e here reached
  | none =>
      obtain ⟨n, levels', called, level, adds⟩ := call levels leveled
      have here : model ∈ levels'.keys :=
        (adds.keys model).mpr (Or.inr ⟨model, List.mem_singleton_self model, Universe.Reaches.refl u model⟩)
      refine ⟨n, levels'.set model n, by simp only [called, Option.map_some], level, ?_, fun e => ?_⟩
      · exact adds.leveled.set u levels' model n level
          (fun e reached => Or.inr (adds.leveled.closed model e here reached))
      · rw [DesignsLevel.mem_keys_set, ← adds.keys e]
        constructor
        · rintro (rfl | member)
          · exact here
          · exact member
        · exact Or.inr

/-- The loop over the instances of a design. -/
theorem levelModels_spec (u : Universe) (levelize : Nat → DesignsLevel → Option (Nat × DesignsLevel))
    (insts : List Instance) (call : ∀ inst ∈ insts, LevelizeSpec u levelize inst.model) (start : Nat)
    (levels : DesignsLevel) (leveled : Leveled u levels) :
    ∃ highest levels',
      insts.foldlM (fun s inst => levelModel levelize s inst.model) (start, levels) = some (highest, levels') ∧
        start ≤ highest ∧ (∀ inst ∈ insts, ∃ n, u.IsLevel inst.model n ∧ n ≤ highest) ∧
        (highest = start ∨ ∃ inst ∈ insts, u.IsLevel inst.model highest) ∧
        Adds u levels levels' (insts.map Instance.model) := by
  induction insts generalizing start levels with
  | nil => exact ⟨start, levels, rfl, Nat.le_refl _, nofun, Or.inl rfl, leveled, by simp⟩
  | cons inst rest ih =>
      obtain ⟨n, middle, first, level, adds⟩ :=
        levelModel_spec u levelize inst.model (call inst List.mem_cons_self) start levels leveled
      obtain ⟨highest, levels', loop, above, bound, attained, more⟩ :=
        ih (fun i member => call i (List.mem_cons_of_mem _ member)) (max start n) middle adds.leveled
      have startBelow : start ≤ highest := le_trans (le_max_left _ _) above
      have levelBelow : n ≤ highest := le_trans (le_max_right _ _) above
      refine ⟨highest, levels', ?_, startBelow, ?_, ?_, more.leveled, ?_⟩
      · rw [List.foldlM_cons, first]
        exact loop
      · intro i member
        rcases List.mem_cons.mp member with rfl | later
        · exact ⟨n, level, levelBelow⟩
        · exact bound i later
      · rcases attained with same | ⟨i, member, isLevel⟩
        · rcases Nat.le_total start n with below | beyond
          · have same' : highest = n := by rw [same, max_eq_right below]
            exact Or.inr ⟨inst, List.mem_cons_self, same' ▸ level⟩
          · exact Or.inl (by rw [same, max_eq_left beyond])
        · exact Or.inr ⟨i, List.mem_cons_of_mem _ member, isLevel⟩
      · intro e
        rw [more.keys, adds.keys]
        simp [or_assoc]

/-- With fuel above the rank of a design. -/
theorem levelize_spec (u : Universe) (wf : u.WellFormed) (rank : Nat → Nat) (descends : Descends u.child rank)
    (fuel design : Nat) (enough : rank design < fuel) : LevelizeSpec u (levelize u fuel) design := by
  induction fuel generalizing design with
  | zero => omega
  | succ fuel ih =>
      intro levels leveled
      unfold levelize
      by_cases empty : u.getInstances design = []
      · have leaf := u.isLevel_leaf wf design empty
        have only (e : Nat) : u.Reaches design e ↔ e = design := by
          rw [u.reaches_iff wf, empty]
          simp
        refine ⟨0, levels.set design 0, by rw [if_pos (List.isEmpty_iff.mpr empty)], leaf, ?_, fun e => ?_⟩
        · exact leveled.set u levels design 0 leaf (fun e reached => Or.inl ((only e).mp reached))
        · rw [DesignsLevel.mem_keys_set]
          simp [only, or_comm]
      · have call (inst : Instance) (member : inst ∈ u.getInstances design) :
            LevelizeSpec u (levelize u fuel) inst.model := by
          have edge := (u.child_iff wf design inst.id inst.model).mpr ⟨inst, member, rfl, rfl⟩
          have lower := descends design inst.id inst.model edge
          exact ih inst.model (by omega)
        obtain ⟨highest, levels', loop, -, bound, attained, adds⟩ :=
          levelModels_spec u (levelize u fuel) (u.getInstances design) call 0 levels leveled
        have isLevel : u.IsLevel design (highest + 1) := by
          refine u.isLevel_step wf design highest bound ?_
          rcases attained with rfl | given
          · obtain ⟨inst, member⟩ := List.exists_mem_of_ne_nil _ empty
            obtain ⟨n, level, most⟩ := bound inst member
            exact ⟨inst, member, Nat.le_zero.mp most ▸ level⟩
          · exact given
        have below (e : Nat) (reached : u.Reaches design e) : e = design ∨ e ∈ levels'.keys := by
          rcases (u.reaches_iff wf design e).mp reached with same | ⟨inst, member, further⟩
          · exact Or.inl same
          · exact Or.inr ((adds.keys e).mpr (Or.inr ⟨inst.model, List.mem_map_of_mem member, further⟩))
        refine ⟨highest + 1, levels'.set design (highest + 1), ?_, isLevel, ?_, fun e => ?_⟩
        · rw [if_neg (by simpa using empty), loop, Option.map_some]
        · exact adds.leveled.set u levels' design (highest + 1) isLevel below
        · rw [DesignsLevel.mem_keys_set, adds.keys]
          constructor
          · rintro (rfl | old | ⟨d, inList, further⟩)
            · exact Or.inr ⟨e, List.mem_singleton_self e, Universe.Reaches.refl u e⟩
            · exact Or.inl old
            · obtain ⟨inst, member, rfl⟩ := List.mem_map.mp inList
              exact Or.inr ⟨design, List.mem_singleton_self design, (u.reaches_iff wf design e).mpr (Or.inr ⟨inst, member, further⟩)⟩
          · rintro (old | ⟨d, inList, reached⟩)
            · exact Or.inr (Or.inl old)
            · rw [List.mem_singleton] at inList
              subst inList
              rcases (u.reaches_iff wf d e).mp reached with same | ⟨inst, member, further⟩
              · exact Or.inl same
              · exact Or.inr (Or.inr ⟨inst.model, List.mem_map_of_mem member, further⟩)

/-! ### The sorted list -/

/-- Every design below the top once, with its level, and after all the models of its instances. -/
structure ByLevel (u : Universe) (nlid : Nat → NLID) (top : Nat) (sorted : List (Nat × Nat)) : Prop where
  nodup : (sorted.map Prod.fst).Nodup
  reachable : ∀ d, d ∈ sorted.map Prod.fst ↔ u.Reaches top d
  level : ∀ d n, (d, n) ∈ sorted → u.IsLevel d n
  ordered : sorted.Pairwise (fun ldl rdl => lowerLevel nlid ldl rdl = true)
  modelsFirst : ∀ front d n back, sorted = front ++ (d, n) :: back →
    ∀ inst ∈ u.getInstances d, inst.model ∈ front.map Prod.fst

/-- What the sort compares. -/
def sortKey (nlid : Nat → NLID) (entry : Nat × Nat) : Nat ×ₗ Naja.Universe.Tie := toLex (entry.2, (nlid entry.1).tie)

theorem lowerLevel_iff (nlid : Nat → NLID) (ldl rdl : Nat × Nat) :
    lowerLevel nlid ldl rdl = true ↔ sortKey nlid ldl < sortKey nlid rdl := by
  rw [sortKey, sortKey, Prod.Lex.toLex_lt_toLex]
  unfold lowerLevel
  by_cases same : ldl.2 = rdl.2
  · simp [same, NLID.less]
  · simp [same]

theorem notLower_iff (nlid : Nat → NLID) (ldl rdl : Nat × Nat) :
    (!lowerLevel nlid rdl ldl) = true ↔ sortKey nlid ldl ≤ sortKey nlid rdl := by
  rw [Bool.not_eq_true', ← Bool.not_eq_true, lowerLevel_iff, not_lt]

theorem model_below (u : Universe) (wf : u.WellFormed) (design n m : Nat) (inst : Instance)
    (member : inst ∈ u.getInstances design) (level : u.IsLevel design n) (level' : u.IsLevel inst.model m) : m < n := by
  obtain ⟨path, reached, rfl⟩ := level'.1
  have edge := (u.child_iff wf design inst.id inst.model).mpr ⟨inst, member, rfl, rfl⟩
  refine level.2 ⟨inst.id :: path, ?_, rfl⟩
  rw [Unfolding.walk, edge]
  exact reached

/-- The designs sorted by level, once there is fuel for the depth of the hierarchy. -/
theorem designsByLevel (u : Universe) (wf : u.WellFormed) (nlid : Nat → NLID)
    (distinct : ∀ d e, d < u.designs.length → e < u.designs.length → nlid d = nlid e → d = e)
    (rank : Nat → Nat) (descends : Descends u.child rank) (top : Nat) (inside : top < u.designs.length) (fuel : Nat)
    (enough : rank top < fuel) :
    ∃ sorted, getDesignsSortedByHierarchicalLevel u nlid fuel top = some sorted ∧ ByLevel u nlid top sorted := by
  have nothing : Leveled u [] := ⟨List.nodup_nil, nofun, nofun⟩
  obtain ⟨n, levels, called, -, adds⟩ := levelize_spec u wf rank descends fuel top enough [] nothing
  have reachable (d : Nat) : d ∈ levels.keys ↔ u.Reaches top d := by
    rw [adds.keys]
    simp [DesignsLevel.keys]
  let sorted := levels.mergeSort (fun ldl rdl => !lowerLevel nlid rdl ldl)
  have perm : sorted.Perm levels := List.mergeSort_perm levels _
  have keys : (sorted.map Prod.fst).Perm levels.keys := perm.map Prod.fst
  have nodup : (sorted.map Prod.fst).Nodup := keys.nodup_iff.mpr adds.leveled.nodup
  have level (d m : Nat) (member : (d, m) ∈ sorted) : u.IsLevel d m := adds.leveled.exact_ d m (perm.mem_iff.mp member)
  have ascending : sorted.Pairwise (fun ldl rdl => sortKey nlid ldl ≤ sortKey nlid rdl) := by
    have pairs : sorted.Pairwise (fun ldl rdl => (!lowerLevel nlid rdl ldl) = true) := List.pairwise_mergeSort
      (fun a b c first second => by
        rw [notLower_iff] at first second ⊢
        exact le_trans first second)
      (fun a b => by
        rw [Bool.or_eq_true, notLower_iff, notLower_iff]
        exact le_total _ _) levels
    exact pairs.imp (fun {a b} => (notLower_iff nlid a b).mp)
  have inUniverse (entry : Nat × Nat) (member : entry ∈ sorted) : entry.1 < u.designs.length := by
    obtain ⟨path, reached⟩ := (reachable entry.1).mp (keys.mem_iff.mp (List.mem_map_of_mem member))
    rcases List.eq_nil_or_concat path with rfl | ⟨front, last, rfl⟩
    · exact Option.some.inj reached ▸ inside
    · rw [List.concat_eq_append, walk_concat] at reached
      obtain ⟨next, -, edge⟩ := Option.bind_eq_some_iff.mp reached
      exact u.child_lt wf next last entry.1 edge
  refine ⟨sorted, by rw [getDesignsSortedByHierarchicalLevel, called, Option.map_some], nodup, ?_, level, ?_, ?_⟩
  · intro d
    rw [keys.mem_iff]
    exact reachable d
  · -- designs with one key would be one design
    have differ : sorted.Pairwise (fun ldl rdl => ldl.1 ≠ rdl.1) := List.pairwise_map.mp nodup
    refine (ascending.and differ).imp_of_mem (fun {ldl rdl} left right both => ?_)
    rw [lowerLevel_iff]
    refine lt_of_le_of_ne both.1 (fun same => both.2 ?_)
    have tie : (nlid ldl.1).tie = (nlid rdl.1).tie := congrArg (fun key => (ofLex key).2) same
    exact distinct _ _ (inUniverse ldl left) (inUniverse rdl right) (NLID.tie_injective _ _ tie)
  · intro front d m back split_ inst member
    have here : (d, m) ∈ sorted := by
      rw [split_]
      simp
    have reached : u.Reaches top d := (reachable d).mp (keys.mem_iff.mp (List.mem_map_of_mem here))
    have further : u.Reaches top inst.model :=
      Universe.Reaches.trans u reached ((u.reaches_iff wf d inst.model).mpr (Or.inr ⟨inst, member, Universe.Reaches.refl u inst.model⟩))
    obtain ⟨⟨d', k⟩, inSorted, same⟩ := List.mem_map.mp (keys.mem_iff.mpr ((reachable inst.model).mpr further))
    change d' = inst.model at same
    subst same
    have lower : k < m := model_below u wf d m k inst member (level d m here) (level inst.model k inSorted)
    rw [split_, List.mem_append, List.mem_cons] at inSorted
    rcases inSorted with before | same | after
    · exact List.mem_map_of_mem before
    · rw [(Prod.mk.inj same).2] at lower
      exact absurd lower (lt_irrefl m)
    · -- a later entry is not at a lower level
      rw [split_] at ascending
      have later := (List.pairwise_cons.mp (List.pairwise_append.mp ascending).2.1).1 _ after
      rcases Prod.Lex.toLex_le_toLex.mp later with above | ⟨equal, -⟩
      · exact absurd above (by simp only; omega)
      · exact absurd equal (by simp only; omega)

end Naja.Hierarchy
