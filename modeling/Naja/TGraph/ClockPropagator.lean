import Naja.TGraph.Graph
import Naja.Worklist.While
import Mathlib.Algebra.Ring.Nat

/-! Loop breaking and clock propagation. A depth-first search disables every edge
that closes a cycle; Kahn's algorithm then carries the clock seeds forward over the
enabled edges, and its order, taken backward, carries the capture clocks to the
edges before them. -/

namespace Naja.TGraph
open Naja.Worklist

variable {NodeProxy EdgeProxy : Type}

namespace Edge

def setDisabled (disabled : Bool) (e : Edge EdgeProxy) : Edge EdgeProxy := { e with disabled := disabled }

def setFromClocks (mask : ClockMask) (e : Edge EdgeProxy) : Edge EdgeProxy := { e with fromClocks := mask }

def setToClocks (mask : ClockMask) (e : Edge EdgeProxy) : Edge EdgeProxy := { e with toClocks := mask }

end Edge

namespace Graph
variable (g : Graph NodeProxy EdgeProxy)

def getOutEdges (n : Nat) : List Nat := (g.getNode n).elim [] Node.outEdges

def getInEdges (n : Nat) : List Nat := (g.getNode n).elim [] Node.inEdges

/-- The edge, when it is alive and not disabled. -/
def enabledEdge (e : Nat) : Option (Edge EdgeProxy) := (g.getEdge e).filter (fun edge => !edge.disabled)

end Graph

inductive Color where
  | White | Gray | Black
deriving DecidableEq, Repr

/-- The state of the search; a stack entry holds a node and the index of its next out-edge, and
the top of the stack comes first. -/
structure Search (NodeProxy EdgeProxy : Type) where
  graph : Graph NodeProxy EdgeProxy
  color : Nat → Color
  stack : List (Nat × Nat)
  disabledCount : Nat

namespace Search

def paint (s : Search NodeProxy EdgeProxy) (n : Nat) (c : Color) : Search NodeProxy EdgeProxy :=
  { s with color := fun m => if m = n then c else s.color m }

/-- One round of the loop over the stack. -/
def step (s : Search NodeProxy EdgeProxy) : Option (Search NodeProxy EdgeProxy) :=
  match s.stack with
  | [] => none
  | (cur, edgeIdx) :: rest =>
      match (s.graph.getOutEdges cur)[edgeIdx]? with
      | none => some { s.paint cur .Black with stack := rest }
      | some eid =>
          let advanced := { s with stack := (cur, edgeIdx + 1) :: rest }
          match s.graph.enabledEdge eid with
          | none => some advanced
          | some edge =>
              match s.color edge.target with
              | .White => some { advanced.paint edge.target .Gray with
                  stack := (edge.target, 0) :: (cur, edgeIdx + 1) :: rest }
              | .Gray => some { advanced with
                  graph := s.graph.modifyEdge eid (Edge.setDisabled true)
                  disabledCount := s.disabledCount + 1 }
              | .Black => some advanced

/-- The steps a search can make: one for each out-edge and one more for each node. -/
def fuel (g : Graph NodeProxy EdgeProxy) : Nat :=
  ((List.range g.nodes.slots.length).map (fun n => (g.getOutEdges n).length + 1)).sum + 1

/-- One start node of the search. -/
def start (s : Search NodeProxy EdgeProxy) (n : Nat) : Option (Search NodeProxy EdgeProxy) :=
  if ¬ s.graph.isNodeValid n ∨ s.color n ≠ .White then some s
  else whileSome step (fuel s.graph) { s.paint n .Gray with stack := [(n, 0)] }

end Search

/-- `TLoopBreaker::run`: the number of disabled edges and the graph. -/
def breakLoops (g : Graph NodeProxy EdgeProxy) : Option (Nat × Graph NodeProxy EdgeProxy) := do
  let s ← (List.range g.nodes.slots.length).foldlM Search.start ⟨g, fun _ => .White, [], 0⟩
  return (s.disabledCount, s.graph)

def maskOr (left right : ClockMask) : ClockMask := List.zipWith (· || ·) left right

abbrev Masks := Nat → ClockMask

def Masks.set (masks : Masks) (n : Nat) (mask : ClockMask) : Masks := fun m => if m = n then mask else masks m

/-- A mask for every node with the clocks seeded there. -/
def seedMasks (g : Graph NodeProxy EdgeProxy) : Masks :=
  g.clocks.zipIdx.foldl (fun masks (clock, c) => masks.set clock.node ((masks clock.node).set c true))
    (fun _ => List.replicate g.clocks.length false)

/-- The state of Kahn's algorithm; `qi` counts the processed nodes. -/
structure Kahn where
  queue : List Nat
  qi : Nat
  resolved : Masks
  inDegree : Nat → Int

def inDegrees (g : Graph NodeProxy EdgeProxy) (n : Nat) : Int :=
  (g.getInEdges n).countP (fun eid => (g.enabledEdge eid).isSome)

def relax (g : Graph NodeProxy EdgeProxy) (n : Nat) (k : Kahn) (eid : Nat) : Kahn :=
  match g.enabledEdge eid with
  | none => k
  | some edge =>
      let m := edge.target
      let degree := k.inDegree m - 1
      { queue := if degree = 0 then k.queue ++ [m] else k.queue
        qi := k.qi
        resolved := k.resolved.set m (maskOr (k.resolved m) (k.resolved n))
        inDegree := fun other => if other = m then degree else k.inDegree other }

def Kahn.step (g : Graph NodeProxy EdgeProxy) (k : Kahn) : Option Kahn :=
  match k.queue[k.qi]? with
  | none => none
  | some n =>
      let relaxed := (g.getOutEdges n).foldl (relax g n) k
      some { relaxed with qi := k.qi + 1 }

def Kahn.initial (g : Graph NodeProxy EdgeProxy) : Kahn :=
  { queue := (List.range g.nodes.slots.length).filter (fun n => g.isNodeValid n && inDegrees g n == 0)
    qi := 0
    resolved := seedMasks g
    inDegree := inDegrees g }

/-- The last loop of `propagateForward`. -/
def setFromClocks (resolved : Masks) (g : Graph NodeProxy EdgeProxy) (n : Nat) : Graph NodeProxy EdgeProxy :=
  (g.getOutEdges n).foldl (fun g eid =>
    match g.enabledEdge eid with
    | none => g
    | some _ => g.modifyEdge eid (Edge.setFromClocks (resolved n))) g

/-- `propagateForward`: the graph with its launch masks and the order of the nodes. Without fuel for
the queue there is no result. -/
def propagateForward (g : Graph NodeProxy EdgeProxy) :
    Option (Except String (Graph NodeProxy EdgeProxy × List Nat)) :=
  match whileSome (Kahn.step g) (g.nodes.slots.length + 1) (Kahn.initial g) with
  | none => none
  | some k =>
      if k.qi ≠ g.nodes.live then
        some (.error
          "TClockPropagator::propagateForward: cycle among enabled edges - run TLoopBreaker first")
      else
        some (.ok ((List.range g.nodes.slots.length).foldl (setFromClocks k.resolved) g, k.queue))

/-- The clocks that reach the source of a capture edge. -/
def atClock (g : Graph NodeProxy EdgeProxy) (source : Nat) : ClockMask :=
  (g.getInEdges source).foldl (fun mask eid =>
    match g.enabledEdge eid with
    | none => mask
    | some incoming => maskOr mask incoming.fromClocks) (seedMasks g source)

def captureMasks (g : Graph NodeProxy EdgeProxy) : Masks :=
  (g.captureEdges.slots.filter CaptureEdge.alive).foldl
    (fun masks edge => masks.set edge.target (maskOr (masks edge.target) (atClock g edge.source)))
    (fun _ => List.replicate g.clocks.length false)

/-- One node in the backward pass. -/
def propagateBack (state : Graph NodeProxy EdgeProxy × Masks) (n : Nat) : Graph NodeProxy EdgeProxy × Masks :=
  if (state.1.getNode n).any Node.isFlopDataOutput then state
  else (state.1.getInEdges n).foldl (fun (g, capture) eid =>
    match g.enabledEdge eid with
    | none => (g, capture)
    | some edge =>
        (g.modifyEdge eid (Edge.setToClocks (capture n)),
          capture.set edge.source (maskOr (capture edge.source) (capture n)))) state

def propagateBackward (g : Graph NodeProxy EdgeProxy) (order : List Nat) : Graph NodeProxy EdgeProxy :=
  (order.reverse.foldl propagateBack (g, captureMasks g)).1

/-- The first loop of `run`. -/
def clearMasks (g : Graph NodeProxy EdgeProxy) : Graph NodeProxy EdgeProxy :=
  let empty := List.replicate g.clocks.length false
  { g with edges := { g.edges with slots := g.edges.slots.map (fun edge =>
      if edge.alive then (edge.setFromClocks empty).setToClocks empty else edge) } }

/-- `TClockPropagator::run`; without a result one of its loops did not end. -/
def propagateClocks (g : Graph NodeProxy EdgeProxy) : Option (Except String (Graph NodeProxy EdgeProxy)) :=
  let cleared := clearMasks g
  if cleared.nodes.slots.any (fun node => node.alive && node.isLatch) then
    some (.error "TClockPropagator::run: latch analysis is unsupported")
  else if cleared.clocks.any (fun clock => !cleared.isNodeValid clock.node) then
    some (.error "TClockPropagator::run: clock seed node was removed")
  else
    match breakLoops cleared with
    | none => none
    | some (_, broken) =>
        match propagateForward broken with
        | none => none
        | some (.error reason) => some (.error reason)
        | some (.ok (launched, order)) => some (.ok (propagateBackward launched order))

end Naja.TGraph
