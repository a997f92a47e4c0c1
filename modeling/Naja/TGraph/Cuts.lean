import Naja.TGraph.LoopBreaker
import Mathlib.Logic.Relation

/-! The loop breaker cuts only edges that close a cycle: the nodes on its stack are a
path of enabled edges, and a cut edge leads from the top of the stack back into it. -/

namespace Naja.TGraph
open Naja.Worklist

variable {NodeProxy EdgeProxy : Type}

namespace Graph
variable (g g' : Graph NodeProxy EdgeProxy)

/-- An enabled edge from one node to another. -/
def Leads (source target : Nat) : Prop :=
  ∃ e edge, g.enabledEdge e = some edge ∧ edge.source = source ∧ edge.target = target

def HasCycle : Prop := ∃ n, Relation.TransGen g.Leads n n

/-- The edges that were enabled in one graph and are not in the other. -/
def newlyDisabled : Finset Nat :=
  (Finset.range g.edges.slots.length).filter (fun e => (g.enabledEdge e).isSome ∧ g'.enabledEdge e = none)

/-- What a call of the loop breaker has to do. -/
structure LoopsBroken (count : Nat) : Prop where
  acyclic : ¬g'.HasCycle
  onCycle : ∀ e edge, g.enabledEdge e = some edge → g'.enabledEdge e = none →
    Relation.ReflTransGen g.Leads edge.target edge.source
  kept : ∀ e edge, g.getEdge e = some edge → ∃ disabled,
    g'.getEdge e = some { edge with disabled := disabled } ∧ (edge.disabled = true → disabled = true)
  counted : count = (g.newlyDisabled g').card
  unchanged : ¬g.HasCycle → g' = g
  again : breakLoops g' = some (0, g')

/-- A rank that goes down along the edges leaves no cycle. -/
theorem Acyclic.no_cycle (acyclic : g.Acyclic) : ¬g.HasCycle := by
  obtain ⟨rank, -, -, down⟩ := acyclic
  have lower (n m : Nat) (path : Relation.TransGen g.Leads n m) : rank m < rank n := by
    induction path with
    | single leads =>
        obtain ⟨e, edge, enabled, rfl, rfl⟩ := leads
        exact down e edge enabled
    | tail _ leads ih =>
        obtain ⟨e, edge, enabled, rfl, rfl⟩ := leads
        exact Nat.lt_trans (down e edge enabled) ih
  rintro ⟨n, path⟩
  exact Nat.lt_irrefl _ (lower n n path)

theorem Broken.enabled (broken : Broken g g') (e : Nat) (edge : Edge EdgeProxy)
    (enabled : g'.enabledEdge e = some edge) : g.enabledEdge e = some edge := by
  obtain ⟨there, live⟩ := (g'.enabledEdge_eq_some e edge).mp enabled
  obtain ⟨cut, same⟩ := broken.edges e
  rw [there] at same
  obtain ⟨old, found, rfl⟩ := Option.map_eq_some_iff.mp same.symm
  change (old.disabled || cut) = false at live
  rw [Bool.or_eq_false_iff] at live
  have whole : ({ old with disabled := old.disabled || cut } : Edge EdgeProxy) = old := by
    rw [live.1, live.2]
    simp [← live.1]
  rw [whole]
  exact (g.enabledEdge_eq_some e old).mpr ⟨found, live.1⟩

/-- An enabled edge has a slot. -/
theorem enabled_lt (e : Nat) (edge : Edge EdgeProxy) (enabled : g.enabledEdge e = some edge) :
    e < g.edges.slots.length := by
  have there := ((g.enabledEdge_eq_some e edge).mp enabled).1
  have present : (g.getEdge e).isSome := by
    rw [there]
    rfl
  obtain ⟨edge', place, -⟩ := (Arena.Slots.find_isSome Edge.alive g.edges e).mp present
  exact (List.getElem?_eq_some_iff.mp place).1

/-- Disabling an edge that is enabled adds it to the disabled ones. -/
theorem card_newlyDisabled_cut (broken : Broken g g') (eid : Nat) (edge : Edge EdgeProxy)
    (enabled : g'.enabledEdge eid = some edge) :
    (g.newlyDisabled (g'.modifyEdge eid (Edge.setDisabled true))).card = (g.newlyDisabled g').card + 1 := by
  have looked (e : Nat) : (g'.modifyEdge eid (Edge.setDisabled true)).enabledEdge e =
      if e = eid then none else g'.enabledEdge e := by
    unfold enabledEdge
    rw [g'.getEdge_modifyEdge eid (Edge.setDisabled true) (fun _ => rfl) e]
    by_cases hit : e = eid
    · rw [if_pos hit, if_pos hit]
      cases g'.getEdge e with
      | none => rfl
      | some edge => rfl
    · rw [if_neg hit, if_neg hit]
  have before := broken.enabled g g' eid edge enabled
  have added : g.newlyDisabled (g'.modifyEdge eid (Edge.setDisabled true)) = insert eid (g.newlyDisabled g') := by
    ext e
    rw [Finset.mem_insert, newlyDisabled, newlyDisabled, Finset.mem_filter, Finset.mem_filter, looked e]
    by_cases hit : e = eid
    · rw [if_pos hit, hit, before, Finset.mem_range]
      exact iff_of_true ⟨g.enabled_lt eid edge before, rfl, rfl⟩ (.inl rfl)
    · rw [if_neg hit]
      exact ⟨.inr, fun either => either.resolve_left hit⟩
  have fresh : eid ∉ g.newlyDisabled g' := by
    intro member
    have gone := (Finset.mem_filter.mp member).2.2
    rw [enabled] at gone
    contradiction
  rw [added, Finset.card_insert_of_notMem fresh]

end Graph

/-- The search has cut only what closes a cycle. -/
structure Cutting (g : Graph NodeProxy EdgeProxy) (s : Search NodeProxy EdgeProxy) : Prop where
  searching : Searching g s
  path : (s.stack.map Prod.fst).IsChain (fun above below => g.Leads below above)
  onCycle : ∀ e edge, g.enabledEdge e = some edge → s.graph.enabledEdge e = none →
    Relation.ReflTransGen g.Leads edge.target edge.source
  counted : s.disabledCount = (g.newlyDisabled s.graph).card
  unchanged : s.disabledCount = 0 → s.graph = g

/-- Every node of a path leads to its top. -/
theorem reaches_top (g : Graph NodeProxy EdgeProxy) (top : Nat) (below : List Nat)
    (path : (top :: below).IsChain (fun above below => g.Leads below above)) (n : Nat) (member : n ∈ top :: below) :
    Relation.ReflTransGen g.Leads n top := by
  induction below generalizing top with
  | nil =>
      rw [List.mem_singleton.mp member]
  | cons next further ih =>
      rw [List.isChain_cons_cons] at path
      rcases List.mem_cons.mp member with rfl | inside
      · exact .refl
      · exact (ih next path.2 inside).tail path.1

theorem Cutting.step (g : Graph NodeProxy EdgeProxy) (s s' : Search NodeProxy EdgeProxy) (cutting : Cutting g s)
    (taken : s.step = some s') : Cutting g s' := by
  have searching := (cutting.searching.step g s s' taken).1
  have path := cutting.path
  unfold Search.step at taken
  split at taken
  · contradiction
  · next cur i rest top =>
      rw [top, List.map_cons] at path
      split at taken
      · obtain rfl := Option.some.inj taken
        exact ⟨searching, path.tail, cutting.onCycle, cutting.counted, cutting.unchanged⟩
      · next eid there =>
          simp only at taken
          split at taken
          · obtain rfl := Option.some.inj taken
            exact ⟨searching, path, cutting.onCycle, cutting.counted, cutting.unchanged⟩
          · next edge enabled =>
              have before := cutting.searching.broken.enabled g s.graph eid edge enabled
              have source : edge.source = cur := by
                have listed := List.mem_of_getElem? there
                rw [s.graph.mem_getOutEdges cutting.searching.broken.linked, Graph.sourceOf,
                  ((s.graph.enabledEdge_eq_some eid edge).mp enabled).1] at listed
                exact Option.some.inj listed
              split at taken
              · obtain rfl := Option.some.inj taken
                refine ⟨searching, ?_, cutting.onCycle, cutting.counted, cutting.unchanged⟩
                exact List.isChain_cons_cons.mpr ⟨⟨eid, edge, before, source, rfl⟩, path⟩
              · next gray =>
                  obtain rfl := Option.some.inj taken
                  have card := g.card_newlyDisabled_cut s.graph cutting.searching.broken eid edge enabled
                  refine ⟨searching, path, ?_, ?_, fun none => absurd none (Nat.succ_ne_zero _)⟩
                  · intro e edge' enabled' gone
                    by_cases hit : e = eid
                    · -- the target is on the stack, whose top is the source
                      subst hit
                      obtain rfl := Option.some.inj (before.symm.trans enabled')
                      have member := (cutting.searching.gray edge.target).mp gray
                      rw [top, List.map_cons] at member
                      exact source ▸ reaches_top g cur _ path edge.target member
                    · refine cutting.onCycle e edge' enabled' ?_
                      change (Graph.enabledEdge (s.graph.modifyEdge eid (Edge.setDisabled true)) e) = none at gone
                      unfold Graph.enabledEdge at gone ⊢
                      rwa [s.graph.getEdge_modifyEdge eid (Edge.setDisabled true) (fun _ => rfl) e, if_neg hit] at gone
                  · exact (congrArg (· + 1) cutting.counted).trans card.symm
              · obtain rfl := Option.some.inj taken
                exact ⟨searching, path, cutting.onCycle, cutting.counted, cutting.unchanged⟩

theorem Cutting.start (g : Graph NodeProxy EdgeProxy) (s s' : Search NodeProxy EdgeProxy) (cutting : Cutting g s)
    (idle : s.stack = []) (n : Nat) (started : s.start n = some s') : Cutting g s' ∧ s'.stack = [] := by
  obtain ⟨found, same, searching, idle', -⟩ := cutting.searching.start g s idle n
  obtain rfl := Option.some.inj (same.symm.trans started)
  refine ⟨?_, idle'⟩
  unfold Search.start at started
  split at started
  · obtain rfl := Option.some.inj started
    exact cutting
  · next fresh =>
      obtain ⟨valid, white⟩ : s.graph.isNodeValid n ∧ s.color n = .White := by simpa [not_or] using fresh
      refine whileSome_keeps Search.step (Cutting g) (fun s s' kept taken => kept.step g s s' taken) _ _ found ?_ started
      refine ⟨?_, List.isChain_singleton n, cutting.onCycle, cutting.counted, cutting.unchanged⟩
      exact cutting.searching.begin g s idle n valid white

/-- A call cuts what it must and nothing else. -/
theorem breakLoops_cutting (g : Graph NodeProxy EdgeProxy) (linked : g.Linked) (count : Nat)
    (broken : Graph NodeProxy EdgeProxy) (called : breakLoops g = some (count, broken)) :
    ∃ s : Search NodeProxy EdgeProxy, Cutting g s ∧ s.disabledCount = count ∧ s.graph = broken := by
  unfold breakLoops at called
  obtain ⟨s, ended, same⟩ := Option.bind_eq_some_iff.mp called
  obtain ⟨rfl, rfl⟩ := Prod.mk.inj (Option.some.inj same)
  refine ⟨s, ?_, rfl, rfl⟩
  have each (starts : List Nat) (s₁ s₂ : Search NodeProxy EdgeProxy) (cutting : Cutting g s₁) (idle : s₁.stack = [])
      (folded : starts.foldlM Search.start s₁ = some s₂) : Cutting g s₂ := by
    induction starts generalizing s₁ with
    | nil =>
        cases folded
        exact cutting
    | cons n starts ih =>
        rw [List.foldlM_cons] at folded
        obtain ⟨next, started, later⟩ := Option.bind_eq_some_iff.mp folded
        obtain ⟨kept, idle'⟩ := cutting.start g s₁ next idle n started
        exact ih next kept idle' later
  refine each _ _ s ⟨Searching.initial g linked, List.isChain_nil, ?_, ?_, fun _ => rfl⟩ rfl ended
  · intro e edge enabled gone
    rw [enabled] at gone
    contradiction
  · have nothing : g.newlyDisabled g = ∅ := by
      refine Finset.filter_eq_empty_iff.mpr ?_
      intro e _ both
      rw [both.2] at both
      exact Bool.false_ne_true both.1
    rw [nothing]
    rfl

/-- A graph without a cycle of enabled edges is left as it is. -/
theorem breakLoops_of_no_cycle (g : Graph NodeProxy EdgeProxy) (linked : g.Linked) (free : ¬g.HasCycle) :
    breakLoops g = some (0, g) := by
  obtain ⟨count, broken, called, -⟩ := breakLoops_acyclic g linked
  obtain ⟨s, cutting, rfl, rfl⟩ := breakLoops_cutting g linked count broken called
  have nothing : g.newlyDisabled s.graph = ∅ := by
    refine Finset.filter_eq_empty_iff.mpr ?_
    intro e _ both
    obtain ⟨edge, enabled⟩ := Option.isSome_iff_exists.mp both.1
    have back := cutting.onCycle e edge enabled both.2
    exact free ⟨edge.target, Relation.TransGen.tail' back ⟨e, edge, enabled, rfl, rfl⟩⟩
  have zero : s.disabledCount = 0 := by
    rw [cutting.counted, nothing]
    rfl
  rw [called, cutting.unchanged zero, zero]

/-- `TLoopBreaker::run` on any graph that calls build. -/
theorem breakLoops_exact (calls : List (Call NodeProxy EdgeProxy)) :
    ∃ count broken, breakLoops (Graph.build calls) = some (count, broken) ∧
      (Graph.build calls).LoopsBroken broken count := by
  have linked := (Graph.linked_build calls).1
  obtain ⟨count, broken, called, kept, acyclic⟩ := breakLoops_acyclic (Graph.build calls) linked
  refine ⟨count, broken, called, ?_⟩
  have free := Graph.Acyclic.no_cycle broken acyclic
  obtain ⟨s, cutting, counted, same⟩ := breakLoops_cutting (Graph.build calls) linked count broken called
  rw [← same] at kept free ⊢
  refine ⟨free, cutting.onCycle, ?_, counted.symm.trans cutting.counted, ?_,
    breakLoops_of_no_cycle s.graph kept.linked free⟩
  · intro e edge there
    obtain ⟨cut, found⟩ := kept.edges e
    rw [there] at found
    exact ⟨edge.disabled || cut, found, fun disabled => by rw [disabled]; rfl⟩
  · intro none_
    have whole := (breakLoops_of_no_cycle _ linked none_).symm.trans called
    rw [same]
    exact (congrArg Prod.snd (Option.some.inj whole)).symm

end Naja.TGraph
