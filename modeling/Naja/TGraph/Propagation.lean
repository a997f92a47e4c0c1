import Naja.TGraph.Backward

/-! The whole of clock propagation: the masks are cleared, the loops broken, and the
two passes run. What it leaves on the edges is exact. -/

namespace Naja.TGraph
open Naja.Arena Naja.Worklist

variable {NodeProxy EdgeProxy : Type}

namespace Graph

/-- The graphs a caller can hold: calls build them, and the two passes may run in between. A
propagation that throws has cleared the masks before. -/
inductive Reachable : Graph NodeProxy EdgeProxy → Prop
  | empty : Reachable empty
  | apply (g : Graph NodeProxy EdgeProxy) (call : Call NodeProxy EdgeProxy) : Reachable g → Reachable (g.apply call)
  | breakLoops (g g' : Graph NodeProxy EdgeProxy) (count : Nat) :
      Reachable g → breakLoops g = some (count, g') → Reachable g'
  | clearMasks (g : Graph NodeProxy EdgeProxy) : Reachable g → Reachable (clearMasks g)
  | propagateClocks (g g' : Graph NodeProxy EdgeProxy) :
      Reachable g → propagateClocks g = some (.ok g') → Reachable g'

/-- `g'` is `g` with other masks and some more edges disabled. -/
structure Remasked (g g' : Graph NodeProxy EdgeProxy) : Prop where
  nodes : g'.nodes = g.nodes
  captureEdges : g'.captureEdges = g.captureEdges
  clocks : g'.clocks = g.clocks
  edges : ∀ e, ∃ cut fromClocks toClocks, g'.getEdge e = (g.getEdge e).map (fun edge =>
    { edge with disabled := edge.disabled || cut, fromClocks := fromClocks, toClocks := toClocks })

/-- The masks say what they are meant to say. -/
structure ClocksExact (g : Graph NodeProxy EdgeProxy) : Prop where
  sizes : ∀ e edge, g.getEdge e = some edge →
    edge.fromClocks.length = g.clocks.length ∧ edge.toClocks.length = g.clocks.length
  disabled : ∀ e edge, g.getEdge e = some edge → edge.disabled →
    ∀ c, edge.hasFromClock c = false ∧ edge.hasToClock c = false
  fromClocks : ∀ e edge, g.enabledEdge e = some edge → ∀ c, edge.hasFromClock c ↔ g.ClockReaches c edge.source
  toClocks : ∀ e edge, g.enabledEdge e = some edge → ∀ c, edge.hasToClock c ↔ g.CaptureReached c edge.target

/-- Other masks on the live edges. -/
def withMasks (g : Graph NodeProxy EdgeProxy) (fromClocks toClocks : Nat → ClockMask) : Graph NodeProxy EdgeProxy :=
  { g with edges := { g.edges with slots := g.edges.slots.mapIdx (fun i edge =>
      if edge.alive then (edge.setFromClocks (fromClocks i)).setToClocks (toClocks i) else edge) } }

section congruence
variable (g g' : Graph NodeProxy EdgeProxy)
  (ends : ∀ e, (g'.enabledEdge e).map (fun edge => (edge.source, edge.target)) =
    (g.enabledEdge e).map (fun edge => (edge.source, edge.target)))
include ends

theorem step_congr : g'.Step = g.Step := by
  funext a b
  have rephrase (h : Graph NodeProxy EdgeProxy) : h.Step a b ↔
      ∃ e, (h.enabledEdge e).map (fun edge => (edge.source, edge.target)) = some (a, b) := by
    unfold Step
    simp only [Option.map_eq_some_iff, Prod.mk.injEq]
  rw [eq_iff_iff, rephrase g', rephrase g]
  simp only [ends]

theorem clockReaches_congr (clocks : g'.clocks = g.clocks) : g'.ClockReaches = g.ClockReaches := by
  funext c n
  unfold ClockReaches Reaches
  rw [clocks, step_congr g g' ends]

theorem captureReached_congr (clocks : g'.clocks = g.clocks) (nodes : g'.nodes = g.nodes)
    (captureEdges : g'.captureEdges = g.captureEdges) : g'.CaptureReached = g.CaptureReached := by
  have outputs : g'.isFlopDataOutput = g.isFlopDataOutput := by
    funext n
    unfold isFlopDataOutput getNode
    rw [nodes]
  funext c n
  unfold CaptureReached OpenPath getCaptureEdge
  rw [clockReaches_congr g g' ends clocks, step_congr g g' ends, outputs, captureEdges]

end congruence

/-- An edge change that keeps the ends and the flag keeps what is enabled. -/
theorem ends_of_map (g g' : Graph NodeProxy EdgeProxy) (f : Nat → Edge EdgeProxy → Edge EdgeProxy)
    (edges : ∀ e, g'.getEdge e = (g.getEdge e).map (f e)) (disabled : ∀ e x, (f e x).disabled = x.disabled)
    (source : ∀ e x, (f e x).source = x.source) (target : ∀ e x, (f e x).target = x.target) (e : Nat) :
    (g'.enabledEdge e).map (fun edge => (edge.source, edge.target)) =
      (g.enabledEdge e).map (fun edge => (edge.source, edge.target)) := by
  unfold enabledEdge
  rw [edges e]
  cases g.getEdge e with
  | none => rfl
  | some edge => by_cases off : edge.disabled <;> simp [Option.filter, disabled, source, target, off]

theorem linked_clearMasks (g : Graph NodeProxy EdgeProxy) (linked : g.Linked) : (TGraph.clearMasks g).Linked :=
  g.linked_of_relabelled linked _ (g.relabelled_mapEdges
    (fun edge => (edge.setFromClocks (List.replicate g.clocks.length false)).setToClocks
      (List.replicate g.clocks.length false)) (fun _ => rfl) linked (fun _ => rfl) (fun _ => rfl))

theorem getEdge_clearMasks (g : Graph NodeProxy EdgeProxy) (e : Nat) :
    (TGraph.clearMasks g).getEdge e = (g.getEdge e).map (fun edge =>
      (edge.setFromClocks (List.replicate g.clocks.length false)).setToClocks
        (List.replicate g.clocks.length false)) :=
  g.getEdge_mapEdges (fun edge => (edge.setFromClocks (List.replicate g.clocks.length false)).setToClocks
    (List.replicate g.clocks.length false)) (fun _ => rfl) e

/-- After the forward pass on a graph without masks the backward pass can start. -/
theorem launches_of_forward (broken launched : Graph NodeProxy EdgeProxy) (kept : Kept broken launched)
    (clear : ∀ e edge, broken.getEdge e = some edge → edge.toClocks = List.replicate broken.clocks.length false)
    (linked : broken.Linked) (resolved : Masks) (sizes : ∀ n, (resolved n).length = broken.clocks.length)
    (exact : ∀ n c, broken.isNodeValid n → ((resolved n).Has c ↔ broken.ClockReaches c n))
    (edges : ∀ e, launched.getEdge e = (broken.getEdge e).map (Edge.launch resolved)) : launched.Launches := by
  have disabled (x : Edge EdgeProxy) : (x.launch resolved).disabled = x.disabled := by
    unfold Edge.launch
    split <;> rfl
  have source (x : Edge EdgeProxy) : (x.launch resolved).source = x.source := by
    unfold Edge.launch
    split <;> rfl
  have target (x : Edge EdgeProxy) : (x.launch resolved).target = x.target := by
    unfold Edge.launch
    split <;> rfl
  have reaches := clockReaches_congr broken launched
    (ends_of_map broken launched (fun _ => Edge.launch resolved) edges (fun _ => disabled) (fun _ => source)
      (fun _ => target)) kept.clocks
  refine ⟨kept.linked, ?_, ?_⟩
  · intro e edge enabled
    obtain ⟨there, on⟩ := (launched.enabledEdge_eq_some e edge).mp enabled
    rw [edges e] at there
    obtain ⟨old, before, rfl⟩ := Option.map_eq_some_iff.mp there
    rw [disabled] at on
    have mask : (old.launch resolved).fromClocks = resolved old.source := by
      unfold Edge.launch
      rw [if_neg (by rw [on]; nofun)]
      rfl
    have valid := (broken.ends_of_enabled linked e old ((broken.enabledEdge_eq_some e old).mpr ⟨before, on⟩)).1
    rw [mask, kept.clocks, reaches, source]
    exact ⟨sizes _, fun c => exact old.source c valid⟩
  · intro e edge there
    rw [edges e] at there
    obtain ⟨old, before, rfl⟩ := Option.map_eq_some_iff.mp there
    rw [kept.clocks, ← clear e old before]
    unfold Edge.launch
    split <;> rfl

/-- What a run does on a sound graph without latches and with live seeds. -/
theorem propagateClocks_spec (g : Graph NodeProxy EdgeProxy) (linked : g.Linked)
    (latchFree : ∀ n node, g.getNode n = some node → node.isLatch = false)
    (seeds : ∀ clock ∈ g.clocks, g.isNodeValid clock.node) :
    ∃ g', TGraph.propagateClocks g = some (.ok g') ∧ g'.Linked ∧ Remasked g g' ∧ g'.ClocksExact := by
  obtain ⟨count, broken, ended, cut, acyclic⟩ := breakLoops_acyclic (TGraph.clearMasks g) (g.linked_clearMasks linked)
  obtain ⟨launched, order, ran, kept, members, nodup, sorted, resolved, sizes, exact, edges⟩ :=
    propagateForward_spec broken cut.linked acyclic
  have clocks : broken.clocks = g.clocks := cut.clocks
  have clear (e : Nat) (edge : Edge EdgeProxy) (there : broken.getEdge e = some edge) :
      edge.fromClocks = List.replicate broken.clocks.length false ∧
        edge.toClocks = List.replicate broken.clocks.length false := by
    obtain ⟨flag, same⟩ := cut.edges e
    rw [same, g.getEdge_clearMasks, Option.map_map] at there
    obtain ⟨old, -, rfl⟩ := Option.map_eq_some_iff.mp there
    rw [clocks]
    exact ⟨rfl, rfl⟩
  have launches := launches_of_forward broken launched kept (fun e edge there => (clear e edge there).2) cut.linked
    resolved sizes exact edges
  have launch (e : Nat) : ∃ mask, launched.getEdge e = (broken.getEdge e).map (Edge.setFromClocks mask) := by
    rw [edges e]
    cases broken.getEdge e with
    | none => exact ⟨[], rfl⟩
    | some edge =>
        by_cases off : edge.disabled
        · exact ⟨edge.fromClocks, congrArg some (if_pos off)⟩
        · exact ⟨resolved edge.source, congrArg some (if_neg off)⟩
  have valid := isNodeValid_of_nodes broken launched kept.nodes
  obtain ⟨last, masks⟩ := propagateBackward_spec launched launches order
    (fun n => by rw [valid]; exact members n)
    (fun i m place e edge enabled target => by
      obtain ⟨mask, same⟩ := launch e
      obtain ⟨there, on⟩ := (launched.enabledEdge_eq_some e edge).mp enabled
      rw [same] at there
      obtain ⟨old, before, rfl⟩ := Option.map_eq_some_iff.mp there
      exact sorted i m place e old ((broken.enabledEdge_eq_some e old).mpr ⟨before, on⟩) target) nodup
  have mask (e : Nat) : ∃ mask, (propagateBackward launched order).getEdge e =
      (launched.getEdge e).map (Edge.setToClocks mask) := by
    cases there : launched.getEdge e with
    | none => exact ⟨[], (masks e).1 there⟩
    | some edge =>
        obtain ⟨mask, now, -, -⟩ := (masks e).2 edge there
        exact ⟨mask, now⟩
  choose back backEq using mask
  have ends := ends_of_map launched (propagateBackward launched order) (fun e => Edge.setToClocks (back e)) backEq
    (fun _ _ => rfl) (fun _ _ => rfl) (fun _ _ => rfl)
  have reaches := clockReaches_congr launched _ ends last.clocks
  have captures := captureReached_congr launched _ ends last.clocks last.nodes last.captureEdges
  -- each edge of the result, with the edge it had after the forward pass
  have origin (e : Nat) (edge : Edge EdgeProxy) (there : (propagateBackward launched order).getEdge e = some edge) :
      ∃ old, launched.getEdge e = some old ∧ edge.fromClocks = old.fromClocks ∧ edge.disabled = old.disabled ∧
        edge.source = old.source ∧ edge.target = old.target ∧ edge.toClocks.length = launched.clocks.length ∧
          ∀ c, edge.toClocks.Has c ↔ old.disabled = false ∧ launched.CaptureReached c old.target := by
    cases before : launched.getEdge e with
    | none =>
        rw [(masks e).1 before] at there
        contradiction
    | some old =>
        obtain ⟨mask, now, length, has⟩ := (masks e).2 old before
        obtain rfl := Option.some.inj (now.symm.trans there)
        exact ⟨old, rfl, rfl, rfl, rfl, rfl, length, has⟩
  refine ⟨propagateBackward launched order, ?_, last.linked, ⟨?_, ?_, ?_, ?_⟩, ⟨?_, ?_, ?_, ?_⟩⟩
  · have noLatch : (TGraph.clearMasks g).nodes.slots.any (fun node => node.alive && node.isLatch) = false := by
      rw [List.any_eq_false]
      intro node member both
      obtain ⟨n, place⟩ := List.mem_iff_getElem?.mp member
      obtain ⟨living, latch⟩ := Bool.and_eq_true_iff.mp both
      rw [latchFree n node ((g.nodes.find_eq_some _ n node).mpr ⟨place, living⟩)] at latch
      contradiction
    have noSeed : (TGraph.clearMasks g).clocks.any
        (fun clock => !(TGraph.clearMasks g).isNodeValid clock.node) = false := by
      rw [List.any_eq_false]
      intro clock member gone
      have alive : (TGraph.clearMasks g).isNodeValid clock.node := seeds clock member
      rw [alive] at gone
      contradiction
    simp only [TGraph.propagateClocks, noLatch, noSeed, ended, ran, Bool.false_eq_true, if_false]
  · rw [last.nodes, kept.nodes, cut.nodes]
    rfl
  · rw [last.captureEdges, kept.captureEdges, cut.captureEdges]
    rfl
  · rw [last.clocks, kept.clocks, clocks]
  · intro e
    obtain ⟨flag, cutEq⟩ := cut.edges e
    obtain ⟨launchMask, launchEq⟩ := launch e
    refine ⟨flag, launchMask, back e, ?_⟩
    rw [backEq e, launchEq, cutEq, g.getEdge_clearMasks, Option.map_map, Option.map_map, Option.map_map]
    rfl
  · intro e edge there
    obtain ⟨old, before, from_, -, -, -, length, -⟩ := origin e edge there
    rw [last.clocks]
    refine ⟨?_, length⟩
    rw [from_, kept.clocks]
    rw [edges e] at before
    obtain ⟨cleared, first, rfl⟩ := Option.map_eq_some_iff.mp before
    unfold Edge.launch
    split
    · rw [(clear e cleared first).1, List.length_replicate]
    · exact sizes _
  · intro e edge there off c
    obtain ⟨old, before, from_, flag, -, -, -, has⟩ := origin e edge there
    rw [flag] at off
    rw [edges e] at before
    obtain ⟨cleared, first, rfl⟩ := Option.map_eq_some_iff.mp before
    have wasOff : cleared.disabled := by
      unfold Edge.launch at off
      split at off
      · exact off
      · exact off
    have idle : cleared.launch resolved = cleared := if_pos wasOff
    rw [idle] at from_ has
    constructor
    · have none := has_empty broken.clocks.length c
      rw [← (clear e cleared first).1, ← from_] at none
      exact Bool.eq_false_iff.mpr none
    · refine Bool.eq_false_iff.mpr (fun marked => ?_)
      have on := ((has c).mp marked).1
      rw [wasOff] at on
      contradiction
  · intro e edge enabled c
    obtain ⟨there, on⟩ := (enabledEdge_eq_some _ e edge).mp enabled
    obtain ⟨old, before, from_, flag, source, -, -, -⟩ := origin e edge there
    have enabledOld := (launched.enabledEdge_eq_some e old).mpr ⟨before, flag ▸ on⟩
    rw [reaches, source]
    change edge.fromClocks.Has c ↔ _
    rw [from_]
    exact (launches.enabled e old enabledOld).2 c
  · intro e edge enabled c
    obtain ⟨there, on⟩ := (enabledEdge_eq_some _ e edge).mp enabled
    obtain ⟨old, -, -, flag, -, target, -, has⟩ := origin e edge there
    rw [captures, target]
    refine (has c).trans (and_iff_right ?_)
    rw [← flag]
    exact on

theorem reachable_build (calls : List (Call NodeProxy EdgeProxy)) : Reachable (build calls) := by
  have each (g : Graph NodeProxy EdgeProxy) (reachable : Reachable g) : Reachable (calls.foldl Graph.apply g) := by
    induction calls generalizing g with
    | nil => exact reachable
    | cons call rest ih => exact ih (g.apply call) (.apply g call reachable)
  exact each Graph.empty .empty

theorem linked_of_reachable (g : Graph NodeProxy EdgeProxy) (reachable : Reachable g) : g.Linked := by
  induction reachable with
  | empty => exact linked_empty
  | apply g call _ ih => exact g.linked_apply ih call
  | breakLoops g g' count _ ended ih =>
      obtain ⟨count', broken, ended', cut, -⟩ := breakLoops_acyclic g ih
      obtain rfl := congrArg Prod.snd (Option.some.inj (ended.symm.trans ended'))
      exact cut.linked
  | clearMasks g _ ih => exact g.linked_clearMasks ih
  | propagateClocks g g' _ ran ih =>
      have checks : (∀ n node, g.getNode n = some node → node.isLatch = false) ∧
          ∀ clock ∈ g.clocks, g.isNodeValid clock.node := by
        unfold TGraph.propagateClocks at ran
        simp only at ran
        split at ran
        · simp at ran
        · next noLatch =>
            split at ran
            · simp at ran
            · next noSeed =>
                refine ⟨?_, ?_⟩
                · intro n node there
                  obtain ⟨place, living⟩ := (g.nodes.find_eq_some _ n node).mp there
                  have each := List.any_eq_false.mp (Bool.eq_false_iff.mpr noLatch) node (List.mem_of_getElem? place)
                  simpa [living] using each
                · intro clock member
                  have each : ¬ (!g.isNodeValid clock.node) = true :=
                    List.any_eq_false.mp (Bool.eq_false_iff.mpr noSeed) clock member
                  simpa using each
      obtain ⟨g'', ran', sound, -, -⟩ := g.propagateClocks_spec ih checks.1 checks.2
      obtain rfl := Except.ok.inj (Option.some.inj (ran.symm.trans ran'))
      exact sound

theorem clearMasks_withMasks (g : Graph NodeProxy EdgeProxy) (fromClocks toClocks : Nat → ClockMask) :
    TGraph.clearMasks (g.withMasks fromClocks toClocks) = TGraph.clearMasks g := by
  have slots : (g.withMasks fromClocks toClocks).edges.slots.map (fun edge =>
      if edge.alive then (edge.setFromClocks (List.replicate g.clocks.length false)).setToClocks
        (List.replicate g.clocks.length false) else edge) =
      g.edges.slots.map (fun edge =>
        if edge.alive then (edge.setFromClocks (List.replicate g.clocks.length false)).setToClocks
          (List.replicate g.clocks.length false) else edge) := by
    refine List.ext_getElem? ?_
    intro i
    simp only [withMasks, List.getElem?_map, List.getElem?_mapIdx, Option.map_map]
    cases g.edges.slots[i]? with
    | none => rfl
    | some edge => by_cases living : edge.alive <;> simp [living, Edge.setFromClocks, Edge.setToClocks]
  unfold TGraph.clearMasks
  exact congrArg (fun slots => { g with edges := { g.edges with slots := slots } }) slots

/-- A flop whose output feeds its data input through a gate that also drives itself: the clock port,
the clock pin, the output, the gate and the data input, in this order. -/
def gatedFlop : Graph Unit Unit :=
  build [.createNode none, .createNode none, .createNode none, .createNode none, .createNode none,
    .setCellKind 2 .FlipFlop, .setPinRole 2 .DataOutput, .setCellKind 4 .FlipFlop, .setPinRole 4 .DataInput,
    .createEdge 0 1 none, .createEdge 1 2 none, .createEdge 2 3 none, .createEdge 3 3 none, .createEdge 3 4 none,
    .createCaptureEdge 1 4, .createClock "clk" 0]

end Graph

end Naja.TGraph
