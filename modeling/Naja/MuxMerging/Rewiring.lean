import Naja.MuxMerging.Merge

/-! What one merge makes of the instances of a design: the outer multiplexer takes the data inputs of
the inner one and the combined select, the inner one goes, and a gate may come. -/

namespace Naja.MuxMerging
open Primitives NLDB0

section Lists

theorem mapM_some {α β : Type} (f : α → Option β) (xs : List α) (ys : List β) (mapped : xs.mapM f = some ys) :
    (xs.zip ys).map Prod.fst = xs ∧ ∀ entry ∈ xs.zip ys, f entry.1 = some entry.2 := by
  induction xs generalizing ys with
  | nil => exact ⟨rfl, fun _ member => absurd member List.not_mem_nil⟩
  | cons x rest ih =>
      rw [List.mapM_cons] at mapped
      obtain ⟨y, first, mapped⟩ := Option.bind_eq_some_iff.mp mapped
      obtain ⟨tail, later, same⟩ := Option.bind_eq_some_iff.mp mapped
      cases same
      obtain ⟨keys, values⟩ := ih tail later
      refine ⟨?_, ?_⟩
      · rw [List.zip_cons_cons, List.map_cons, keys]
      · intro entry member
        rcases List.mem_cons.mp member with rfl | inRest
        · exact first
        · exact values entry inRest

end Lists

section Modify

variable (design : Design) (id : Nat)

theorem modifyInstance_comp (f g : Instance → Instance) (keeps : ∀ i, (f i).id = i.id) :
    (design.modifyInstance id f).modifyInstance id g = design.modifyInstance id (fun i => g (f i)) := by
  unfold Design.modifyInstance
  simp only [List.map_map]
  congr 1
  apply List.map_congr_left
  intro i _
  by_cases here : i.id = id
  · simp only [Function.comp_apply, if_pos here, keeps i]
  · simp only [Function.comp_apply, if_neg here]

theorem modifyInstance_id : design.modifyInstance id (fun i => i) = design := by
  unfold Design.modifyInstance
  simp only [ite_self, List.map_id']

/-- The terminals of an instance connected one after the other. -/
def setNets (entries : List (BitTerm × Net)) (i : Instance) : Instance :=
  entries.foldl (fun i entry => i.setNet entry.1 entry.2) i

theorem setNets_id (entries : List (BitTerm × Net)) (i : Instance) : (setNets entries i).id = i.id := by
  induction entries generalizing i with
  | nil => rfl
  | cons entry rest ih => exact ih (i.setNet entry.1 entry.2)

theorem setNets_model (entries : List (BitTerm × Net)) (i : Instance) : (setNets entries i).model = i.model := by
  induction entries generalizing i with
  | nil => rfl
  | cons entry rest ih => exact ih (i.setNet entry.1 entry.2)

theorem foldl_setNet (entries : List (BitTerm × Net)) :
    entries.foldl (fun design entry => design.setNet id entry.1 entry.2) design =
      design.modifyInstance id (setNets entries) := by
  induction entries generalizing design with
  | nil => exact (modifyInstance_id design id).symm
  | cons entry rest ih =>
      rw [List.foldl_cons, ih]
      exact modifyInstance_comp design id _ _ fun _ => rfl

/-- Connecting terminals as another instance has them. -/
theorem setNets_net (source : BitTerm → Option Net) (entries : List (BitTerm × Net)) (i : Instance)
    (same : ∀ entry ∈ entries, source entry.1 = some entry.2) (t : BitTerm) :
    (setNets entries i).net t = if t ∈ entries.map Prod.fst then source t else i.net t := by
  induction entries generalizing i with
  | nil => rfl
  | cons entry rest ih =>
      have first := same entry List.mem_cons_self
      have later := ih (i.setNet entry.1 entry.2) fun other member => same other (List.mem_cons_of_mem _ member)
      show (setNets rest (i.setNet entry.1 entry.2)).net t = _
      rw [later, List.map_cons]
      by_cases inRest : t ∈ rest.map Prod.fst
      · rw [if_pos inRest, if_pos (List.mem_cons_of_mem _ inRest)]
      · rw [if_neg inRest]
        by_cases here : t = entry.1
        · rw [if_pos (List.mem_cons.mpr (Or.inl here)), here, first]
          exact if_pos rfl
        · rw [if_neg fun member => (List.mem_cons.mp member).elim here inRest]
          exact if_neg here

theorem modifyInstance_append (instances : List Instance) (i : Instance) (f : Instance → Instance)
    (nets : List Net) (bitTerms : List (BitTerm × Option Net)) (fresh : i.id ∉ instances.map Instance.id) :
    Design.modifyInstance ⟨nets, bitTerms, instances ++ [i]⟩ i.id f = ⟨nets, bitTerms, instances ++ [f i]⟩ := by
  unfold Design.modifyInstance
  congr 1
  rw [List.map_append, List.map_singleton, if_pos rfl]
  congr 1
  refine (List.map_congr_left fun j member => ?_).trans (List.map_id _)
  refine if_neg fun same => fresh ?_
  rw [← same]
  exact List.mem_map_of_mem member

end Modify

section Rewire

variable (design : Design) (outer inner : Instance) (width : Nat) (trueBranch : Bool)

/-- The new gate. -/
def selectGate (id : Nat) (trueBranch : Bool) (innerSelect select combinedSelect : Net) : Instance :=
  setNets [(getGateNTerms.getBit 0, innerSelect), (getGateNTerms.getBit 1, select), (getGateSingleTerm, combinedSelect)]
    ⟨id, .primitive (.nInputGate (if trueBranch then .And else .Or) 2), fun _ => none⟩

/-- The gate that comes with the select, if any. -/
def newGates (innerSelect select : Net) : List Instance :=
  if select = innerSelect then []
  else [selectGate ((design.instances.map Instance.id).foldr max 0 + 1) trueBranch innerSelect select
    (design.nets.foldr max 0 + 1)]

/-- The net that comes with the select, if any. -/
def newNets (innerSelect select : Net) : List Net :=
  if select = innerSelect then [] else [design.nets.foldr max 0 + 1]

def combinedNet (innerSelect select : Net) : Net :=
  if select = innerSelect then select else design.nets.foldr max 0 + 1

theorem combineSelects_eq (innerSelect select : Net) :
    combineSelects design trueBranch innerSelect select =
      (⟨design.nets ++ newNets design innerSelect select, design.bitTerms,
        design.instances ++ newGates design trueBranch innerSelect select⟩, combinedNet design innerSelect select) := by
  unfold combineSelects newNets newGates combinedNet
  by_cases same : select = innerSelect
  · rw [if_pos same, if_pos same, if_pos same, if_pos same, List.append_nil, List.append_nil]
  · simp only [if_neg same]
    have appended := fun f => modifyInstance_append design.instances
      ⟨(design.instances.map Instance.id).foldr max 0 + 1,
        .primitive (.nInputGate (if trueBranch then .And else .Or) 2), fun _ => none⟩ f
      (design.nets ++ [design.nets.foldr max 0 + 1]) design.bitTerms (newID_fresh _)
    have folded := foldl_setNet (⟨design.nets ++ [design.nets.foldr max 0 + 1], design.bitTerms, design.instances ++
      [⟨(design.instances.map Instance.id).foldr max 0 + 1,
        .primitive (.nInputGate (if trueBranch then .And else .Or) 2), fun _ => none⟩]⟩ : Design)
      ((design.instances.map Instance.id).foldr max 0 + 1)
      [(getGateNTerms.getBit 0, innerSelect), (getGateNTerms.getBit 1, select),
        (getGateSingleTerm, design.nets.foldr max 0 + 1)]
    rw [appended] at folded
    exact congrArg (fun d => (d, design.nets.foldr max 0 + 1)) folded

/-- The outer multiplexer after a merge. -/
def rewired (inputs : List Net) (combined : Net) : Instance :=
  setNets ((((List.range width).zip inputs).map fun entry => ((dataPort width trueBranch).getBit entry.1, entry.2)) ++
    [(getMux2Select, combined)]) outer

theorem rewire_eq (inputs : List Net) (innerSelect select : Net) :
    rewire design outer inner width trueBranch inputs innerSelect select =
      ⟨design.nets ++ newNets design innerSelect select, design.bitTerms,
        ((design.instances ++ newGates design trueBranch innerSelect select).map fun i =>
          if i.id = outer.id then
            setNets ((((List.range width).zip inputs).map fun entry => ((dataPort width trueBranch).getBit entry.1, entry.2)) ++
              [(getMux2Select, combinedNet design innerSelect select)]) i
          else i).filter fun i => i.id ≠ inner.id⟩ := by
  unfold rewire
  rw [combineSelects_eq]
  have folded := foldl_setNet (⟨design.nets ++ newNets design innerSelect select, design.bitTerms,
    design.instances ++ newGates design trueBranch innerSelect select⟩ : Design) outer.id
    ((((List.range width).zip inputs).map fun entry => ((dataPort width trueBranch).getBit entry.1, entry.2)) ++
      [(getMux2Select, combinedNet design innerSelect select)])
  rw [List.foldl_append, List.foldl_map] at folded
  exact congrArg (fun d => Design.destroyInstance d inner.id) folded

variable {design outer inner}

theorem newGates_fresh (innerSelect select : Net) (gate : Instance)
    (member : gate ∈ newGates design trueBranch innerSelect select) :
    select ≠ innerSelect ∧ gate = selectGate ((design.instances.map Instance.id).foldr max 0 + 1) trueBranch innerSelect
      select (design.nets.foldr max 0 + 1) ∧ gate.id ∉ design.instances.map Instance.id := by
  unfold newGates at member
  by_cases same : select = innerSelect
  · rw [if_pos same] at member
    exact absurd member List.not_mem_nil
  · rw [if_neg same] at member
    have equal := List.mem_singleton.mp member
    refine ⟨same, equal, ?_⟩
    rw [equal]
    exact newID_fresh _

variable (sound : design.Sound) (inOuter : outer ∈ design.instances)
  (inInner : inner ∈ design.instances) (apart : inner.id ≠ outer.id)
include sound inOuter inInner apart

/-- The instances after a merge: the others, the outer multiplexer rewired, and the new gate. -/
theorem mem_rewire (inputs : List Net) (innerSelect select : Net) (i : Instance) :
    i ∈ (rewire design outer inner width trueBranch inputs innerSelect select).instances ↔
      (i ∈ design.instances ∧ i.id ≠ inner.id ∧ i.id ≠ outer.id) ∨
        i = rewired outer width trueBranch inputs (combinedNet design innerSelect select) ∨
        i ∈ newGates design trueBranch innerSelect select := by
  rw [rewire_eq]
  simp only [List.mem_filter, List.mem_map, List.mem_append, decide_eq_true_eq]
  constructor
  · rintro ⟨⟨j, member, same⟩, kept⟩
    by_cases here : j.id = outer.id
    · rw [if_pos here] at same
      rcases member with old | new
      · have equal := sound.eq_of_id j outer old inOuter here
        exact Or.inr (Or.inl (by rw [← same, equal]; rfl))
      · have fresh := (newGates_fresh trueBranch innerSelect select j new).2.2
        exact absurd (here ▸ List.mem_map_of_mem inOuter) fresh
    · rw [if_neg here] at same
      subst same
      rcases member with old | new
      · exact Or.inl ⟨old, kept, here⟩
      · exact Or.inr (Or.inr new)
  · rintro (⟨old, kept, here⟩ | equal | new)
    · exact ⟨⟨i, Or.inl old, if_neg here⟩, kept⟩
    · refine ⟨⟨outer, Or.inl inOuter, ?_⟩, ?_⟩
      · rw [if_pos rfl, equal]
        rfl
      · rw [equal]
        unfold rewired
        rw [setNets_id]
        exact apart.symm
    · have fresh := (newGates_fresh trueBranch innerSelect select i new).2.2
      refine ⟨⟨i, Or.inr new, if_neg fun same => fresh ?_⟩, fun same => fresh ?_⟩
      · rw [same]
        exact List.mem_map_of_mem inOuter
      · rw [same]
        exact List.mem_map_of_mem inInner

end Rewire

end Naja.MuxMerging
