import Naja.TGraph.Storage
import Naja.TGraph.ClockPropagator
import Mathlib.Algebra.BigOperators.Group.Finset.Basic
import Mathlib.Algebra.Order.BigOperators.Group.Finset
import Mathlib.Algebra.Ring.Nat

/-! The loop breaker ends and leaves no cycle of enabled edges. A node turns black
when all its enabled edges lead to black nodes, so the order in which nodes turn
black ranks them. -/

namespace Naja.TGraph
open Naja.Arena Naja.Worklist

variable {NodeProxy EdgeProxy : Type}

namespace Graph

/-- `g'` is `g` with some more edges disabled. -/
structure Broken (g g' : Graph NodeProxy EdgeProxy) : Prop where
  linked : g'.Linked
  nodes : g'.nodes = g.nodes
  captureEdges : g'.captureEdges = g.captureEdges
  clocks : g'.clocks = g.clocks
  edges : ∀ e, ∃ cut, g'.getEdge e = (g.getEdge e).map (fun edge => { edge with disabled := edge.disabled || cut })

theorem enabledEdge_eq_some (g : Graph NodeProxy EdgeProxy) (e : Nat) (edge : Edge EdgeProxy) :
    g.enabledEdge e = some edge ↔ g.getEdge e = some edge ∧ edge.disabled = false := by
  rw [enabledEdge, Option.filter_eq_some_iff]
  simp

theorem getOutEdges_of_nodes (g g' : Graph NodeProxy EdgeProxy) (nodes : g'.nodes = g.nodes) :
    g'.getOutEdges = g.getOutEdges := by
  funext n
  unfold getOutEdges getNode
  rw [nodes]

theorem isNodeValid_of_nodes (g g' : Graph NodeProxy EdgeProxy) (nodes : g'.nodes = g.nodes) :
    g'.isNodeValid = g.isNodeValid := by
  funext n
  unfold isNodeValid getNode
  rw [nodes]

theorem Broken.refl (g : Graph NodeProxy EdgeProxy) (linked : g.Linked) : Broken g g := by
  refine ⟨linked, rfl, rfl, rfl, ?_⟩
  intro e
  refine ⟨false, ?_⟩
  cases g.getEdge e with
  | none => rfl
  | some edge => simp

theorem getEdge_modifyEdge (g : Graph NodeProxy EdgeProxy) (eid : Nat) (f : Edge EdgeProxy → Edge EdgeProxy)
    (alive : ∀ x, (f x).alive = x.alive) (e : Nat) :
    (g.modifyEdge eid f).getEdge e = if e = eid then (g.getEdge e).map f else g.getEdge e :=
  Slots.find_modify Edge.alive g.edges eid e f alive

theorem Broken.cut (g g' : Graph NodeProxy EdgeProxy) (broken : Broken g g') (eid : Nat) :
    Broken g (g'.modifyEdge eid (Edge.setDisabled true)) := by
  refine ⟨?_, broken.nodes, broken.captureEdges, broken.clocks, ?_⟩
  · exact g'.linked_of_relabelled broken.linked _ (g'.relabelled_modifyEdge broken.linked eid (Edge.setDisabled true)
      (fun _ => rfl) (fun _ => rfl) (fun _ => rfl))
  · intro e
    obtain ⟨cut, same⟩ := broken.edges e
    rw [getEdge_modifyEdge g' eid (Edge.setDisabled true) (fun _ => rfl) e, same]
    by_cases hit : e = eid
    · refine ⟨true, ?_⟩
      rw [if_pos hit]
      cases g.getEdge e with
      | none => rfl
      | some edge => simp [Edge.setDisabled]
    · rw [if_neg hit]
      exact ⟨cut, rfl⟩

/-- A valid node sees its edges on its lists. -/
theorem mem_getOutEdges (g : Graph NodeProxy EdgeProxy) (linked : g.Linked) (n e : Nat) :
    e ∈ g.getOutEdges n ↔ g.sourceOf e = some n := by
  rw [← (linked.outEdges n).2 e]
  unfold getOutEdges listOf getNode Slots.find
  cases place : g.nodes.slots[n]? with
  | none => rfl
  | some node =>
      by_cases living : node.alive
      · simp [Option.filter, living]
      · have invalid : g.isNodeValid n = false := by
          unfold isNodeValid getNode Slots.find
          simp [place, Option.filter, living]
        have unused := (g.unused_of_invalid linked n invalid e).1
        have outside : e ∉ node.outEdges := by
          intro member
          refine unused (((linked.outEdges n).2 e).mp ?_)
          unfold listOf
          rw [place]
          exact member
        simpa [Option.filter, living] using outside

theorem mem_getInEdges (g : Graph NodeProxy EdgeProxy) (linked : g.Linked) (n e : Nat) :
    e ∈ g.getInEdges n ↔ g.targetOf e = some n := by
  rw [← (linked.inEdges n).2 e]
  unfold getInEdges listOf getNode Slots.find
  cases place : g.nodes.slots[n]? with
  | none => rfl
  | some node =>
      by_cases living : node.alive
      · simp [Option.filter, living]
      · have invalid : g.isNodeValid n = false := by
          unfold isNodeValid getNode Slots.find
          simp [place, Option.filter, living]
        have unused := (g.unused_of_invalid linked n invalid e).2.1
        have outside : e ∉ node.inEdges := by
          intro member
          refine unused (((linked.inEdges n).2 e).mp ?_)
          unfold listOf
          rw [place]
          exact member
        simpa [Option.filter, living] using outside

theorem valid_lt (g : Graph NodeProxy EdgeProxy) (n : Nat) (valid : g.isNodeValid n) :
    n < g.nodes.slots.length := by
  obtain ⟨node, place, -⟩ := (Slots.find_isSome Node.alive g.nodes n).mp valid
  exact (List.getElem?_eq_some_iff.mp place).1

theorem ends_of_enabled (g : Graph NodeProxy EdgeProxy) (linked : g.Linked) (e : Nat) (edge : Edge EdgeProxy)
    (enabled : g.enabledEdge e = some edge) : g.isNodeValid edge.source ∧ g.isNodeValid edge.target := by
  obtain ⟨there, -⟩ := (g.enabledEdge_eq_some e edge).mp enabled
  refine ⟨linked.ends e _ (Or.inl ?_), linked.ends e _ (Or.inr (Or.inl ?_))⟩
  · rw [sourceOf, there]
    rfl
  · rw [targetOf, there]
    rfl

end Graph

/-- Below the top of the stack, every edge a frame has passed leads to a black node or to the node
of the frame above. -/
def Frames (g : Graph NodeProxy EdgeProxy) (color : Nat → Color) : Option Nat → List (Nat × Nat) → Prop
  | _, [] => True
  | above, (n, i) :: rest =>
      (∀ j < i, ∀ e edge, (g.getOutEdges n)[j]? = some e → g.enabledEdge e = some edge →
        color edge.target = .Black ∨ above = some edge.target) ∧ Frames g color (some n) rest

theorem Frames.mono (g g' : Graph NodeProxy EdgeProxy) (color color' : Nat → Color) (above : Option Nat)
    (stack : List (Nat × Nat)) (frames : Frames g color above stack) (lists : g'.getOutEdges = g.getOutEdges)
    (fewer : ∀ e edge, g'.enabledEdge e = some edge → g.enabledEdge e = some edge)
    (blacker : ∀ n, color n = .Black → color' n = .Black) : Frames g' color' above stack := by
  induction stack generalizing above with
  | nil => trivial
  | cons frame rest ih =>
      obtain ⟨passed, below⟩ := frames
      refine ⟨?_, ih (some frame.1) below⟩
      intro j less e edge listed enabled
      rw [lists] at listed
      rcases passed j less e edge listed (fewer e edge enabled) with black | next
      · exact Or.inl (blacker _ black)
      · exact Or.inr next

/-- A ranking of the black nodes along their enabled edges. -/
def Ranked (g : Graph NodeProxy EdgeProxy) (color : Nat → Color) (rank : Nat → Nat) (bound : Nat) : Prop :=
  ∀ n, color n = .Black → rank n < bound ∧ ∀ e edge, g.enabledEdge e = some edge → edge.source = n →
    color edge.target = .Black ∧ rank edge.target < rank n

/-- The invariant of the search of a graph. -/
structure Searching (g : Graph NodeProxy EdgeProxy) (s : Search NodeProxy EdgeProxy) : Prop where
  broken : Graph.Broken g s.graph
  gray : ∀ n, s.color n = .Gray ↔ n ∈ s.stack.map Prod.fst
  nodup : (s.stack.map Prod.fst).Nodup
  valid : ∀ n, s.color n ≠ .White → g.isNodeValid n
  cursor : ∀ frame ∈ s.stack, frame.2 ≤ (g.getOutEdges frame.1).length
  frames : Frames s.graph s.color none s.stack
  ranked : ∃ rank bound, Ranked s.graph s.color rank bound

/-- The work left to the search: a step for every out-edge not yet passed and one for every node
not yet finished. -/
def workLeft (g : Graph NodeProxy EdgeProxy) (s : Search NodeProxy EdgeProxy) : Nat :=
  (∑ n ∈ Finset.range g.nodes.slots.length,
    if s.color n = .White then (g.getOutEdges n).length + 1 else 0) +
  (s.stack.map (fun frame => (g.getOutEdges frame.1).length + 1 - frame.2)).sum

private theorem sum_paint (color : Nat → Color) (weight : Nat → Nat) (bound n : Nat) (c : Color)
    (inside : n < bound) (white : color n = .White) (painted : c ≠ .White) :
    (∑ m ∈ Finset.range bound, if (if m = n then c else color m) = .White then weight m else 0) + weight n =
      ∑ m ∈ Finset.range bound, if color m = .White then weight m else 0 := by
  rw [← Finset.sum_erase_add _ _ (Finset.mem_range.mpr inside),
    ← Finset.sum_erase_add (Finset.range bound) (fun m => if color m = .White then weight m else 0)
      (Finset.mem_range.mpr inside)]
  simp only [if_true, painted, if_false, white, Nat.add_zero]
  congr 1
  refine Finset.sum_congr rfl ?_
  intro m member
  rw [if_neg (Finset.ne_of_mem_erase member)]

private theorem sum_repaint (color : Nat → Color) (weight : Nat → Nat) (bound n : Nat) (c : Color)
    (other : color n ≠ .White) (painted : c ≠ .White) :
    (∑ m ∈ Finset.range bound, if (if m = n then c else color m) = .White then weight m else 0) =
      ∑ m ∈ Finset.range bound, if color m = .White then weight m else 0 := by
  refine Finset.sum_congr rfl ?_
  intro m _
  by_cases hit : m = n
  · rw [if_pos hit, if_neg painted, hit, if_neg other]
  · rw [if_neg hit]

section step
variable (g : Graph NodeProxy EdgeProxy) (s : Search NodeProxy EdgeProxy) (searching : Searching g s)
  (cur i : Nat) (rest : List (Nat × Nat)) (top : s.stack = (cur, i) :: rest)
include searching top

theorem Searching.cur_gray : s.color cur = .Gray := by
  rw [searching.gray cur, top]
  exact List.mem_cons_self

theorem Searching.out_eq : s.graph.getOutEdges = g.getOutEdges :=
  Graph.getOutEdges_of_nodes g s.graph searching.broken.nodes

/-- A node with no out-edge left turns black. -/
theorem Searching.finish (ended : (s.graph.getOutEdges cur)[i]? = none) :
    Searching g { s.paint cur .Black with stack := rest } ∧
      workLeft g { s.paint cur .Black with stack := rest } < workLeft g s := by
  have gray := searching.cur_gray g s cur i rest top
  have nodup := searching.nodup
  rw [top, List.map_cons, List.nodup_cons] at nodup
  have frames := searching.frames
  rw [top] at frames
  obtain ⟨passed, below⟩ := frames
  have blacker (n : Nat) (black : s.color n = .Black) : (if n = cur then Color.Black else s.color n) = .Black := by
    split
    · rfl
    · exact black
  refine ⟨⟨searching.broken, ?_, nodup.2, ?_, ?_, ?_, ?_⟩, ?_⟩
  · intro n
    change (if n = cur then Color.Black else s.color n) = .Gray ↔ n ∈ rest.map Prod.fst
    by_cases hit : n = cur
    · rw [if_pos hit, hit]
      exact iff_of_false Color.noConfusion nodup.1
    · rw [if_neg hit, searching.gray n, top, List.map_cons, List.mem_cons]
      exact ⟨fun either => either.resolve_left hit, Or.inr⟩
  · intro n painted
    by_cases hit : n = cur
    · exact hit ▸ searching.valid cur (by rw [gray]; exact Color.noConfusion)
    · refine searching.valid n ?_
      change (if n = cur then Color.Black else s.color n) ≠ .White at painted
      rwa [if_neg hit] at painted
  · intro frame member
    exact searching.cursor frame (top ▸ List.mem_cons_of_mem _ member)
  · -- the frame below now meets a black node where it met the finished one
    cases rest with
    | nil => trivial
    | cons frame further =>
        obtain ⟨passed', below'⟩ := below
        refine ⟨?_, Frames.mono s.graph s.graph s.color _ _ further below' rfl (fun _ _ same => same) blacker⟩
        intro j less e edge listed enabled
        left
        change (if edge.target = cur then Color.Black else s.color edge.target) = .Black
        rcases passed' j less e edge listed enabled with black | next
        · exact blacker _ black
        · rw [if_pos (Option.some.inj next).symm]
  · obtain ⟨rank, bound, ranked⟩ := searching.ranked
    refine ⟨fun n => if n = cur then bound else rank n, bound + 1, ?_⟩
    intro n black
    change (if n = cur then Color.Black else s.color n) = .Black at black
    by_cases hit : n = cur
    · refine ⟨by simp [hit], ?_⟩
      intro e edge enabled source
      have listed : e ∈ s.graph.getOutEdges cur := by
        rw [s.graph.mem_getOutEdges searching.broken.linked, Graph.sourceOf,
          ((s.graph.enabledEdge_eq_some e edge).mp enabled).1]
        exact congrArg some (source.trans hit)
      obtain ⟨j, inside, here⟩ := List.getElem_of_mem listed
      have less : j < i := by
        have short := List.getElem?_eq_none_iff.mp ended
        omega
      have black' : s.color edge.target = .Black := by
        rcases passed j less e edge (List.getElem?_eq_some_iff.mpr ⟨inside, here⟩) enabled with black' | next
        · exact black'
        · contradiction
      have other : edge.target ≠ cur := by
        intro same
        rw [same, gray] at black'
        contradiction
      refine ⟨blacker _ black', ?_⟩
      change (if edge.target = cur then bound else rank edge.target) < if n = cur then bound else rank n
      rw [if_neg other, if_pos hit]
      exact (ranked edge.target black').1
    · rw [if_neg hit] at black
      obtain ⟨small, edges⟩ := ranked n black
      refine ⟨by simp only [if_neg hit]; omega, ?_⟩
      intro e edge enabled source
      obtain ⟨black', less⟩ := edges e edge enabled source
      have other : edge.target ≠ cur := by
        intro same
        rw [same, gray] at black'
        contradiction
      refine ⟨blacker _ black', ?_⟩
      change (if edge.target = cur then bound else rank edge.target) < if n = cur then bound else rank n
      rwa [if_neg other, if_neg hit]
  · have position : i ≤ (g.getOutEdges cur).length := searching.cursor (cur, i) (top ▸ List.mem_cons_self)
    unfold workLeft Search.paint
    rw [sum_repaint s.color (fun n => (g.getOutEdges n).length + 1) _ cur .Black (by rw [gray]; exact Color.noConfusion)
      Color.noConfusion, top, List.map_cons, List.sum_cons]
    simp only
    omega

variable (eid : Nat) (there : (s.graph.getOutEdges cur)[i]? = some eid)
include there

omit top in
/-- The edges passed after one more of them. -/
theorem Searching.passed_next (above : Option Nat) (color : Nat → Color) (graph : Graph NodeProxy EdgeProxy)
    (lists : graph.getOutEdges = s.graph.getOutEdges)
    (passed : ∀ j < i, ∀ e edge, (graph.getOutEdges cur)[j]? = some e → graph.enabledEdge e = some edge →
      color edge.target = .Black ∨ above = some edge.target)
    (here : ∀ edge, graph.enabledEdge eid = some edge → color edge.target = .Black ∨ above = some edge.target)
    (j : Nat) (less : j < i + 1) (e : Nat) (edge : Edge EdgeProxy) (listed : (graph.getOutEdges cur)[j]? = some e)
    (enabled : graph.enabledEdge e = some edge) : color edge.target = .Black ∨ above = some edge.target := by
  by_cases last : j = i
  · rw [last, lists, there] at listed
    obtain rfl := Option.some.inj listed
    exact here edge enabled
  · exact passed j (by omega) e edge listed enabled

theorem Searching.cursor_next : ∀ frame ∈ (cur, i + 1) :: rest, frame.2 ≤ (g.getOutEdges frame.1).length := by
  intro frame member
  rcases List.mem_cons.mp member with rfl | below
  · obtain ⟨inside, -⟩ := List.getElem?_eq_some_iff.mp there
    rw [searching.out_eq g s cur i rest top] at inside
    exact inside
  · exact searching.cursor frame (top ▸ List.mem_cons_of_mem _ below)

theorem Searching.work_next : workLeft g { s with stack := (cur, i + 1) :: rest } + 1 = workLeft g s := by
  obtain ⟨inside, -⟩ := List.getElem?_eq_some_iff.mp there
  rw [searching.out_eq g s cur i rest top] at inside
  unfold workLeft
  rw [top, List.map_cons, List.sum_cons, List.map_cons, List.sum_cons]
  simp only
  omega

/-- An edge that is disabled or leads to a black node is passed. -/
theorem Searching.pass
    (done : ∀ edge, s.graph.enabledEdge eid = some edge → s.color edge.target = .Black) :
    Searching g { s with stack := (cur, i + 1) :: rest } ∧
      workLeft g { s with stack := (cur, i + 1) :: rest } < workLeft g s := by
  have work := searching.work_next g s cur i rest top eid there
  have frames := searching.frames
  have nodup := searching.nodup
  rw [top] at frames nodup
  refine ⟨⟨searching.broken, ?_, nodup, searching.valid, searching.cursor_next g s cur i rest top eid there,
    ⟨?_, frames.2⟩, searching.ranked⟩, by omega⟩
  · intro n
    rw [searching.gray n, top]
    rfl
  · exact searching.passed_next g s cur i eid there none s.color s.graph rfl frames.1
      (fun edge enabled => Or.inl (done edge enabled))

/-- An edge to a white node is followed. -/
theorem Searching.follow (edge : Edge EdgeProxy) (enabled : s.graph.enabledEdge eid = some edge)
    (white : s.color edge.target = .White) :
    Searching g { s.paint edge.target .Gray with stack := (edge.target, 0) :: (cur, i + 1) :: rest } ∧
      workLeft g { s.paint edge.target .Gray with stack := (edge.target, 0) :: (cur, i + 1) :: rest } <
        workLeft g s := by
  have work := searching.work_next g s cur i rest top eid there
  have frames := searching.frames
  have nodup := searching.nodup
  rw [top] at frames nodup
  have outside : edge.target ∉ s.stack.map Prod.fst := by
    rw [← searching.gray, white]
    nofun
  rw [top] at outside
  have valid : g.isNodeValid edge.target := by
    have ends := (s.graph.ends_of_enabled searching.broken.linked eid edge enabled).2
    rwa [Graph.isNodeValid_of_nodes g s.graph searching.broken.nodes] at ends
  have blacker (n : Nat) (black : s.color n = .Black) :
      (if n = edge.target then Color.Gray else s.color n) = .Black := by
    rw [if_neg, black]
    intro same
    rw [same, white] at black
    contradiction
  have colors (n : Nat) (other : n ≠ edge.target) :
      (if n = edge.target then Color.Gray else s.color n) = s.color n := if_neg other
  refine ⟨⟨searching.broken, ?_, List.nodup_cons.mpr ⟨outside, nodup⟩, ?_, ?_, ⟨nofun, ?_, ?_⟩, ?_⟩, ?_⟩
  · intro n
    change (if n = edge.target then Color.Gray else s.color n) = .Gray ↔
      n ∈ edge.target :: ((cur, i + 1) :: rest).map Prod.fst
    by_cases hit : n = edge.target
    · rw [if_pos hit, hit]
      exact iff_of_true rfl List.mem_cons_self
    · rw [if_neg hit, searching.gray n, top, List.mem_cons]
      exact ⟨Or.inr, fun either => either.resolve_left hit⟩
  · intro n painted
    by_cases hit : n = edge.target
    · exact hit ▸ valid
    · refine searching.valid n ?_
      change (if n = edge.target then Color.Gray else s.color n) ≠ .White at painted
      rwa [if_neg hit] at painted
  · intro frame member
    rcases List.mem_cons.mp member with rfl | below
    · exact Nat.zero_le _
    · exact searching.cursor_next g s cur i rest top eid there frame below
  · refine searching.passed_next g s cur i eid there (some edge.target) _ s.graph rfl ?_ ?_
    · intro j less e edge' listed enabled'
      rcases frames.1 j less e edge' listed enabled' with black | none
      · exact Or.inl (blacker _ black)
      · contradiction
    · intro edge' enabled'
      rw [enabled] at enabled'
      exact Or.inr (congrArg (fun edge => some edge.target) (Option.some.inj enabled'))
  · exact Frames.mono s.graph s.graph s.color _ _ rest frames.2 rfl (fun _ _ same => same) blacker
  · obtain ⟨rank, bound, ranked⟩ := searching.ranked
    refine ⟨rank, bound, ?_⟩
    intro n black
    have other : n ≠ edge.target := by
      intro same
      change (if n = edge.target then Color.Gray else s.color n) = .Black at black
      rw [if_pos same] at black
      contradiction
    obtain ⟨small, edges⟩ := ranked n ((colors n other).symm.trans black)
    refine ⟨small, ?_⟩
    intro e edge' enabled' source
    obtain ⟨black', less⟩ := edges e edge' enabled' source
    exact ⟨blacker _ black', less⟩
  · have inside := g.valid_lt edge.target valid
    have painted := sum_paint s.color (fun n => (g.getOutEdges n).length + 1) _ edge.target .Gray inside white nofun
    unfold workLeft at work ⊢
    unfold Search.paint
    rw [List.map_cons, List.sum_cons]
    simp only at work painted ⊢
    omega

/-- An edge to a gray node is cut. -/
theorem Searching.cut (edge : Edge EdgeProxy) (enabled : s.graph.enabledEdge eid = some edge) (count : Nat) :
    Searching g { s with stack := (cur, i + 1) :: rest
                         graph := s.graph.modifyEdge eid (Edge.setDisabled true), disabledCount := count } ∧
      workLeft g { s with stack := (cur, i + 1) :: rest
                          graph := s.graph.modifyEdge eid (Edge.setDisabled true), disabledCount := count } <
        workLeft g s := by
  have work := searching.work_next g s cur i rest top eid there
  have frames := searching.frames
  have nodup := searching.nodup
  rw [top] at frames nodup
  have looked := s.graph.getEdge_modifyEdge eid (Edge.setDisabled true) (fun _ => rfl)
  have fewer (e : Nat) (edge' : Edge EdgeProxy)
      (enabled' : (s.graph.modifyEdge eid (Edge.setDisabled true)).enabledEdge e = some edge') :
      e ≠ eid ∧ s.graph.enabledEdge e = some edge' := by
    obtain ⟨found, live⟩ := (Graph.enabledEdge_eq_some _ e edge').mp enabled'
    rw [looked e] at found
    split at found
    · obtain ⟨old, -, rfl⟩ := Option.map_eq_some_iff.mp found
      contradiction
    · next other => exact ⟨other, (s.graph.enabledEdge_eq_some e edge').mpr ⟨found, live⟩⟩
  refine ⟨⟨searching.broken.cut g s.graph eid, ?_, nodup, searching.valid,
    searching.cursor_next g s cur i rest top eid there, ⟨?_, ?_⟩, ?_⟩,
    Nat.lt_of_lt_of_eq (Nat.lt_add_one (workLeft g { s with stack := (cur, i + 1) :: rest })) work⟩
  · intro n
    rw [searching.gray n, top]
    rfl
  · refine searching.passed_next g s cur i eid there none s.color _ rfl ?_ ?_
    · intro j less e edge' listed enabled'
      exact frames.1 j less e edge' listed (fewer e edge' enabled').2
    · intro edge' enabled'
      exact absurd rfl (fewer eid edge' enabled').1
  · exact Frames.mono s.graph _ s.color s.color _ rest frames.2 rfl
      (fun e edge' enabled' => (fewer e edge' enabled').2) (fun _ black => black)
  · obtain ⟨rank, bound, ranked⟩ := searching.ranked
    refine ⟨rank, bound, ?_⟩
    intro n black
    obtain ⟨small, edges⟩ := ranked n black
    exact ⟨small, fun e edge' enabled' => edges e edge' (fewer e edge' enabled').2⟩

end step

/-- Every step of the search keeps the invariant and leaves less work. -/
theorem Searching.step (g : Graph NodeProxy EdgeProxy) (s s' : Search NodeProxy EdgeProxy)
    (searching : Searching g s) (taken : s.step = some s') :
    Searching g s' ∧ workLeft g s' < workLeft g s ∧ ∀ n, s.color n ≠ .White → s'.color n ≠ .White := by
  have painted (n m : Nat) (c : Color) (dark : c ≠ .White) (before : s.color m ≠ .White) :
      (if m = n then c else s.color m) ≠ .White := by
    split
    · exact dark
    · exact before
  unfold Search.step at taken
  split at taken
  · contradiction
  · next cur i rest top =>
      split at taken
      · next ended =>
          obtain rfl := Option.some.inj taken
          obtain ⟨kept, less⟩ := searching.finish g s cur i rest top ended
          exact ⟨kept, less, fun m => painted cur m .Black nofun⟩
      · next eid there =>
          simp only at taken
          split at taken
          · next disabled =>
              obtain rfl := Option.some.inj taken
              obtain ⟨kept, less⟩ := searching.pass g s cur i rest top eid there
                (fun edge enabled => by rw [disabled] at enabled; contradiction)
              exact ⟨kept, less, fun _ before => before⟩
          · next edge enabled =>
              split at taken
              · next white =>
                  obtain rfl := Option.some.inj taken
                  obtain ⟨kept, less⟩ := searching.follow g s cur i rest top eid there edge enabled white
                  exact ⟨kept, less, fun m => painted edge.target m .Gray nofun⟩
              · obtain rfl := Option.some.inj taken
                obtain ⟨kept, less⟩ := searching.cut g s cur i rest top eid there edge enabled (s.disabledCount + 1)
                exact ⟨kept, less, fun _ before => before⟩
              · next black =>
                  obtain rfl := Option.some.inj taken
                  obtain ⟨kept, less⟩ := searching.pass g s cur i rest top eid there (fun edge' enabled' => by
                    rw [enabled] at enabled'
                    exact Option.some.inj enabled' ▸ black)
                  exact ⟨kept, less, fun _ before => before⟩

private theorem sum_range_map (weight : Nat → Nat) (bound : Nat) :
    ((List.range bound).map weight).sum = ∑ n ∈ Finset.range bound, weight n := by
  induction bound with
  | zero => rfl
  | succ bound ih =>
      rw [List.range_succ, List.map_append, List.sum_append, ih, Finset.sum_range_succ]
      simp

theorem Searching.initial (g : Graph NodeProxy EdgeProxy) (linked : g.Linked) :
    Searching g ⟨g, fun _ => .White, [], 0⟩ :=
  ⟨Graph.Broken.refl g linked, fun _ => iff_of_false nofun List.not_mem_nil, List.nodup_nil,
    fun _ painted => absurd rfl painted, nofun, trivial, ⟨fun _ => 0, 0, nofun⟩⟩

/-- The search of one node begins with it gray and alone on the stack. -/
theorem Searching.begin (g : Graph NodeProxy EdgeProxy) (s : Search NodeProxy EdgeProxy)
    (searching : Searching g s) (idle : s.stack = []) (n : Nat) (there : s.graph.isNodeValid n)
    (white : s.color n = .White) : Searching g { s.paint n .Gray with stack := [(n, 0)] } := by
  have valid : g.isNodeValid n := by
    rwa [Graph.isNodeValid_of_nodes g s.graph searching.broken.nodes] at there
  have noGray (m : Nat) : s.color m ≠ .Gray := by
    intro gray
    rw [searching.gray m, idle] at gray
    contradiction
  refine ⟨searching.broken, ?_, List.nodup_singleton n, ?_, ?_, ⟨nofun, trivial⟩, ?_⟩
  · intro m
    change (if m = n then Color.Gray else s.color m) = .Gray ↔ m ∈ [n]
    rw [List.mem_singleton]
    by_cases hit : m = n
    · rw [if_pos hit]
      exact iff_of_true rfl hit
    · rw [if_neg hit]
      exact iff_of_false (noGray m) hit
  · intro m painted
    by_cases hit : m = n
    · exact hit ▸ valid
    · refine searching.valid m ?_
      change (if m = n then Color.Gray else s.color m) ≠ .White at painted
      rwa [if_neg hit] at painted
  · intro frame member
    rw [List.mem_singleton.mp member]
    exact Nat.zero_le _
  · obtain ⟨rank, bound, ranked⟩ := searching.ranked
    refine ⟨rank, bound, ?_⟩
    intro m black
    change (if m = n then Color.Gray else s.color m) = .Black at black
    split at black
    · contradiction
    · obtain ⟨small, edges⟩ := ranked m black
      refine ⟨small, ?_⟩
      intro e edge enabled source
      obtain ⟨black', less⟩ := edges e edge enabled source
      refine ⟨?_, less⟩
      change (if edge.target = n then Color.Gray else s.color edge.target) = .Black
      rw [if_neg, black']
      intro hit
      rw [hit, white] at black'
      contradiction

/-- A start node ends black, and the search is ready for the next one. -/
theorem Searching.start (g : Graph NodeProxy EdgeProxy) (s : Search NodeProxy EdgeProxy)
    (searching : Searching g s) (idle : s.stack = []) (n : Nat) :
    ∃ s', s.start n = some s' ∧ Searching g s' ∧ s'.stack = [] ∧
      (∀ m, s.color m ≠ .White → s'.color m ≠ .White) ∧ (g.isNodeValid n → s'.color n ≠ .White) := by
  have same := Graph.isNodeValid_of_nodes g s.graph searching.broken.nodes
  unfold Search.start
  split
  · next skip =>
      refine ⟨s, rfl, searching, idle, fun _ before => before, ?_⟩
      intro valid
      rcases skip with invalid | painted
      · rw [same] at invalid
        exact absurd valid invalid
      · exact painted
  · next fresh =>
      obtain ⟨valid, white⟩ : g.isNodeValid n ∧ s.color n = .White := by
        rw [same] at fresh
        simpa [not_or] using fresh
      have begun := searching.begin g s idle n (same ▸ valid) white
      have work : workLeft g { s.paint n .Gray with stack := [(n, 0)] } < Search.fuel s.graph := by
        have painted := sum_paint s.color (fun n => (g.getOutEdges n).length + 1) _ n .Gray (g.valid_lt n valid)
          white nofun
        have whole : (∑ m ∈ Finset.range g.nodes.slots.length,
            if s.color m = .White then (g.getOutEdges m).length + 1 else 0) ≤
            ∑ m ∈ Finset.range g.nodes.slots.length, ((g.getOutEdges m).length + 1) := by
          refine Finset.sum_le_sum ?_
          intro m _
          split <;> omega
        unfold workLeft Search.fuel Search.paint
        rw [Graph.getOutEdges_of_nodes g s.graph searching.broken.nodes, searching.broken.nodes, sum_range_map]
        simp only [List.map_cons, List.map_nil, List.sum_cons, List.sum_nil] at painted ⊢
        omega
      obtain ⟨s', ended, ⟨kept, darker⟩, stopped⟩ := whileSome_ends Search.step
        (fun s' => Searching g s' ∧ ∀ m, (s.paint n .Gray).color m ≠ .White → s'.color m ≠ .White) (workLeft g)
        (fun s₁ s₂ held taken => by
          obtain ⟨next, less, onward⟩ := held.1.step g s₁ s₂ taken
          exact ⟨⟨next, fun m before => onward m (held.2 m before)⟩, less⟩)
        (Search.fuel s.graph) _ ⟨begun, fun _ before => before⟩ work
      have empty : s'.stack = [] := by
        unfold Search.step at stopped
        split at stopped
        · next empty => exact empty
        · split at stopped
          · contradiction
          · simp only at stopped
            split at stopped
            · contradiction
            · split at stopped <;> contradiction
      refine ⟨s', ended, kept, empty, ?_, ?_⟩
      · intro m before
        refine darker m ?_
        change (if m = n then Color.Gray else s.color m) ≠ .White
        split
        · nofun
        · exact before
      · intro _
        refine darker n ?_
        change (if n = n then Color.Gray else s.color n) ≠ .White
        rw [if_pos rfl]
        nofun

/-- The enabled edges go down a bounded rank. -/
def Graph.Acyclic (g : Graph NodeProxy EdgeProxy) : Prop :=
  ∃ (rank : Nat → Nat) (bound : Nat), (∀ n, g.isNodeValid n → rank n < bound) ∧
    ∀ e edge, g.enabledEdge e = some edge → rank edge.target < rank edge.source

theorem breakLoops_acyclic (g : Graph NodeProxy EdgeProxy) (linked : g.Linked) :
    ∃ count broken, breakLoops g = some (count, broken) ∧ Graph.Broken g broken ∧ broken.Acyclic := by
  have begun := Searching.initial g linked
  have each (starts : List Nat) (s : Search NodeProxy EdgeProxy) (searching : Searching g s) (idle : s.stack = []) :
      ∃ s', starts.foldlM Search.start s = some s' ∧ Searching g s' ∧ s'.stack = [] ∧
        (∀ m, s.color m ≠ .White → s'.color m ≠ .White) ∧
        ∀ n ∈ starts, g.isNodeValid n → s'.color n ≠ .White := by
    induction starts generalizing s with
    | nil => exact ⟨s, rfl, searching, idle, fun _ before => before, nofun⟩
    | cons n rest ih =>
        obtain ⟨s₁, first, kept, idle₁, darker, visited⟩ := searching.start g s idle n
        obtain ⟨s₂, later, kept₂, idle₂, darker₂, visited₂⟩ := ih s₁ kept idle₁
        refine ⟨s₂, ?_, kept₂, idle₂, fun m before => darker₂ m (darker m before), ?_⟩
        · rw [List.foldlM_cons, first]
          exact later
        · intro m member valid
          rcases List.mem_cons.mp member with rfl | inRest
          · exact darker₂ m (visited valid)
          · exact visited₂ m inRest valid
  obtain ⟨s, ended, kept, idle, -, visited⟩ := each (List.range g.nodes.slots.length) _ begun rfl
  refine ⟨s.disabledCount, s.graph, ?_, kept.broken, ?_⟩
  · unfold breakLoops
    rw [ended]
    rfl
  · obtain ⟨rank, bound, ranked⟩ := kept.ranked
    have valid := Graph.isNodeValid_of_nodes g s.graph kept.broken.nodes
    have black (n : Nat) (there : g.isNodeValid n) : s.color n = .Black := by
      have painted := visited n (List.mem_range.mpr (g.valid_lt n there)) there
      cases color : s.color n with
      | White => contradiction
      | Gray =>
          rw [kept.gray n, idle] at color
          contradiction
      | Black => rfl
    refine ⟨rank, bound, ?_, ?_⟩
    · intro n there
      rw [valid] at there
      exact (ranked n (black n there)).1
    · intro e edge enabled
      have ends := (s.graph.ends_of_enabled kept.broken.linked e edge enabled).1
      rw [valid] at ends
      exact ((ranked edge.source (black _ ends)).2 e edge enabled rfl).2

end Naja.TGraph
