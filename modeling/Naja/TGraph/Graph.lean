import Naja.Arena.Slots
import Mathlib.Data.List.Perm.Basic

/-! The timing graph: nodes, signal edges and capture edges in recycled slots,
adjacency kept at both ends of an edge, and one mask per side and edge with a bit
for every clock. -/

namespace Naja.TGraph
open Naja.Arena

inductive CellKind where
  | Combinational | FlipFlop | Latch | Unknown
deriving DecidableEq, Repr

inductive PinRole where
  | Unknown | DataInput | DataOutput | Clock | Gate | Enable | SyncReset | SyncSet | AsyncReset | AsyncSet
deriving DecidableEq, Repr

abbrev ClockMask := List Bool

structure Node (NodeProxy : Type) where
  index : Nat
  alive : Bool
  cellKind : CellKind
  pinRole : PinRole
  proxy : Option NodeProxy
  inEdges : List Nat
  outEdges : List Nat
  captureInEdges : List Nat
  captureOutEdges : List Nat
deriving DecidableEq, Repr

structure Edge (EdgeProxy : Type) where
  index : Nat
  source : Nat
  target : Nat
  alive : Bool
  proxy : Option EdgeProxy
  fromClocks : ClockMask
  toClocks : ClockMask
  disabled : Bool
deriving DecidableEq, Repr

structure CaptureEdge where
  index : Nat
  source : Nat
  target : Nat
  alive : Bool
deriving DecidableEq, Repr

structure Clock where
  index : Nat
  name : String
  node : Nat
deriving DecidableEq, Repr

/-- Removes the first occurrence by moving the last entry into its place. -/
def eraseEdgeId (edges : List Nat) (edge : Nat) : List Nat :=
  match edges.idxOf? edge with
  | none => edges
  | some i => (edges.set i (edges.getLast?.getD edge)).dropLast

section
variable {NodeProxy EdgeProxy : Type}

namespace Node

def create (proxy : Option NodeProxy) (index : Nat) : Node NodeProxy :=
  ⟨index, true, .Unknown, .Unknown, proxy, [], [], [], []⟩

def reset (proxy : Option NodeProxy) (index : Nat) (n : Node NodeProxy) : Node NodeProxy :=
  { n with index := index, alive := true, cellKind := .Unknown, pinRole := .Unknown, proxy := proxy
           inEdges := [], outEdges := [], captureInEdges := [], captureOutEdges := [] }

def deactivate (n : Node NodeProxy) : Node NodeProxy :=
  { n with alive := false, cellKind := .Unknown, pinRole := .Unknown, proxy := none
           inEdges := [], outEdges := [], captureInEdges := [], captureOutEdges := [] }

def addInEdge (edge : Nat) (n : Node NodeProxy) : Node NodeProxy := { n with inEdges := n.inEdges ++ [edge] }

def addOutEdge (edge : Nat) (n : Node NodeProxy) : Node NodeProxy := { n with outEdges := n.outEdges ++ [edge] }

def removeInEdge (edge : Nat) (n : Node NodeProxy) : Node NodeProxy :=
  { n with inEdges := eraseEdgeId n.inEdges edge }

def removeOutEdge (edge : Nat) (n : Node NodeProxy) : Node NodeProxy :=
  { n with outEdges := eraseEdgeId n.outEdges edge }

def addCaptureInEdge (edge : Nat) (n : Node NodeProxy) : Node NodeProxy :=
  { n with captureInEdges := n.captureInEdges ++ [edge] }

def addCaptureOutEdge (edge : Nat) (n : Node NodeProxy) : Node NodeProxy :=
  { n with captureOutEdges := n.captureOutEdges ++ [edge] }

def removeCaptureInEdge (edge : Nat) (n : Node NodeProxy) : Node NodeProxy :=
  { n with captureInEdges := eraseEdgeId n.captureInEdges edge }

def removeCaptureOutEdge (edge : Nat) (n : Node NodeProxy) : Node NodeProxy :=
  { n with captureOutEdges := eraseEdgeId n.captureOutEdges edge }

def isLatch (n : Node NodeProxy) : Bool := n.cellKind == .Latch

def isFlopDataOutput (n : Node NodeProxy) : Bool := n.cellKind == .FlipFlop && n.pinRole == .DataOutput

end Node

/-- `dynamic_bitset::resize`: cut, or filled up with zeros. -/
def resizeMask (count : Nat) (mask : ClockMask) : ClockMask :=
  mask.take count ++ List.replicate (count - mask.length) false

namespace Edge

def create (source target : Nat) (proxy : Option EdgeProxy) (index : Nat) : Edge EdgeProxy :=
  ⟨index, source, target, true, proxy, [], [], false⟩

def reset (source target : Nat) (proxy : Option EdgeProxy) (index : Nat) (e : Edge EdgeProxy) : Edge EdgeProxy :=
  { e with index := index, source := source, target := target, alive := true, proxy := proxy
           fromClocks := [], toClocks := [], disabled := false }

def deactivate (e : Edge EdgeProxy) : Edge EdgeProxy :=
  { e with alive := false, proxy := none, fromClocks := [], toClocks := [], disabled := false }

def resizeClockMasks (clockCount : Nat) (e : Edge EdgeProxy) : Edge EdgeProxy :=
  { e with fromClocks := resizeMask clockCount e.fromClocks, toClocks := resizeMask clockCount e.toClocks }

def hasFromClock (e : Edge EdgeProxy) (clock : Nat) : Bool := e.fromClocks.getD clock false

def hasToClock (e : Edge EdgeProxy) (clock : Nat) : Bool := e.toClocks.getD clock false

end Edge

namespace CaptureEdge

def create (source target index : Nat) : CaptureEdge := ⟨index, source, target, true⟩

def reset (source target index : Nat) (e : CaptureEdge) : CaptureEdge :=
  { e with index := index, source := source, target := target, alive := true }

def deactivate (e : CaptureEdge) : CaptureEdge := { e with alive := false }

end CaptureEdge

end

structure Graph (NodeProxy EdgeProxy : Type) where
  nodes : Slots (Node NodeProxy)
  edges : Slots (Edge EdgeProxy)
  captureEdges : Slots CaptureEdge
  clocks : List Clock
deriving DecidableEq, Repr

namespace Graph
variable {NodeProxy EdgeProxy : Type} (g : Graph NodeProxy EdgeProxy)

def empty : Graph NodeProxy EdgeProxy := ⟨.empty, .empty, .empty, []⟩

def getNode (node : Nat) : Option (Node NodeProxy) := g.nodes.find Node.alive node

def getEdge (edge : Nat) : Option (Edge EdgeProxy) := g.edges.find Edge.alive edge

def getCaptureEdge (edge : Nat) : Option CaptureEdge := g.captureEdges.find CaptureEdge.alive edge

def isNodeValid (node : Nat) : Bool := (g.getNode node).isSome

def isEdgeValid (edge : Nat) : Bool := (g.getEdge edge).isSome

def isCaptureEdgeValid (edge : Nat) : Bool := (g.getCaptureEdge edge).isSome

def modifyNode (node : Nat) (f : Node NodeProxy → Node NodeProxy) : Graph NodeProxy EdgeProxy :=
  { g with nodes := g.nodes.modify node f }

def modifyEdge (edge : Nat) (f : Edge EdgeProxy → Edge EdgeProxy) : Graph NodeProxy EdgeProxy :=
  { g with edges := g.edges.modify edge f }

def createNode (proxy : Option NodeProxy) : Nat × Graph NodeProxy EdgeProxy :=
  let (id, nodes) := g.nodes.allocate (Node.create proxy) (Node.reset proxy)
  (id, { g with nodes := nodes })

/-- Without an edge the call returned `kInvalidEdge`. -/
def createEdge (source target : Nat) (proxy : Option EdgeProxy) : Option Nat × Graph NodeProxy EdgeProxy :=
  if ¬ g.isNodeValid source ∨ ¬ g.isNodeValid target then (none, g)
  else
    let (id, edges) := g.edges.allocate (Edge.create source target proxy) (Edge.reset source target proxy)
    let g' := { g with edges := edges.modify id (Edge.resizeClockMasks g.clocks.length) }
    (some id, (g'.modifyNode source (Node.addOutEdge id)).modifyNode target (Node.addInEdge id))

/-- Without an edge the call returned `kInvalidCaptureEdge`. -/
def createCaptureEdge (source target : Nat) : Option Nat × Graph NodeProxy EdgeProxy :=
  if ¬ g.isNodeValid source ∨ ¬ g.isNodeValid target then (none, g)
  else
    let (id, captureEdges) := g.captureEdges.allocate (CaptureEdge.create source target)
      (CaptureEdge.reset source target)
    let g' := { g with captureEdges := captureEdges }
    (some id, (g'.modifyNode source (Node.addCaptureOutEdge id)).modifyNode target (Node.addCaptureInEdge id))

def removeCaptureEdge (edge : Nat) : Bool × Graph NodeProxy EdgeProxy :=
  match g.getCaptureEdge edge with
  | none => (false, g)
  | some found =>
      let g' := (g.modifyNode found.source (Node.removeCaptureOutEdge edge)).modifyNode found.target
        (Node.removeCaptureInEdge edge)
      (true, { g' with captureEdges := g'.captureEdges.release CaptureEdge.deactivate edge })

def removeEdge (edge : Nat) : Bool × Graph NodeProxy EdgeProxy :=
  match g.getEdge edge with
  | none => (false, g)
  | some found =>
      let g' := if g.isNodeValid found.source then g.modifyNode found.source (Node.removeOutEdge edge) else g
      let g' := if g'.isNodeValid found.target then g'.modifyNode found.target (Node.removeInEdge edge) else g'
      (true, { g' with edges := g'.edges.release Edge.deactivate edge })

/-- The lists are copied before the first edge is removed. -/
def removeNode (node : Nat) : Bool × Graph NodeProxy EdgeProxy :=
  match g.getNode node with
  | none => (false, g)
  | some found =>
      let g' := found.captureOutEdges.foldl (fun g edge => (g.removeCaptureEdge edge).2) g
      let g' := found.captureInEdges.foldl (fun g edge => (g.removeCaptureEdge edge).2) g'
      let g' := found.outEdges.foldl (fun g edge => (g.removeEdge edge).2) g'
      let g' := found.inEdges.foldl (fun g edge => (g.removeEdge edge).2) g'
      (true, { g' with nodes := g'.nodes.release Node.deactivate node })

def createClock (name : String) (node : Nat) : Except String (Nat × Graph NodeProxy EdgeProxy) :=
  if ¬ g.isNodeValid node then .error "TGraph::createClock: node is not a valid node"
  else
    let id := g.clocks.length
    let clocks := g.clocks ++ [⟨id, name, node⟩]
    let resize (e : Edge EdgeProxy) := if e.alive then e.resizeClockMasks clocks.length else e
    .ok (id, { g with clocks := clocks, edges := { g.edges with slots := g.edges.slots.map resize } })

end Graph

/-- The calls that change a timing graph. The last ones are made by the builder and by the passes
over the graph. -/
inductive Call (NodeProxy EdgeProxy : Type) where
  | createNode (proxy : Option NodeProxy)
  | createEdge (source target : Nat) (proxy : Option EdgeProxy)
  | createCaptureEdge (source target : Nat)
  | removeEdge (edge : Nat)
  | removeCaptureEdge (edge : Nat)
  | removeNode (node : Nat)
  | createClock (name : String) (node : Nat)
  | setCellKind (node : Nat) (kind : CellKind)
  | setPinRole (node : Nat) (role : PinRole)
  | setDisabled (edge : Nat) (disabled : Bool)
  | addFromClock (edge clock : Nat)
  | addToClock (edge clock : Nat)
deriving DecidableEq, Repr

namespace Graph
variable {NodeProxy EdgeProxy : Type}

def apply (g : Graph NodeProxy EdgeProxy) : Call NodeProxy EdgeProxy → Graph NodeProxy EdgeProxy
  | .createNode proxy => (g.createNode proxy).2
  | .createEdge source target proxy => (g.createEdge source target proxy).2
  | .createCaptureEdge source target => (g.createCaptureEdge source target).2
  | .removeEdge edge => (g.removeEdge edge).2
  | .removeCaptureEdge edge => (g.removeCaptureEdge edge).2
  | .removeNode node => (g.removeNode node).2
  | .createClock name node =>
      match g.createClock name node with
      | .error _ => g
      | .ok (_, g') => g'
  | .setCellKind node kind => if g.isNodeValid node then g.modifyNode node ({ · with cellKind := kind }) else g
  | .setPinRole node role => if g.isNodeValid node then g.modifyNode node ({ · with pinRole := role }) else g
  | .setDisabled edge disabled =>
      if g.isEdgeValid edge then g.modifyEdge edge ({ · with disabled := disabled }) else g
  | .addFromClock edge clock =>
      if g.isEdgeValid edge then g.modifyEdge edge (fun e => { e with fromClocks := e.fromClocks.set clock true })
      else g
  | .addToClock edge clock =>
      if g.isEdgeValid edge then g.modifyEdge edge (fun e => { e with toClocks := e.toClocks.set clock true })
      else g

def build (calls : List (Call NodeProxy EdgeProxy)) : Graph NodeProxy EdgeProxy := calls.foldl apply empty

end Graph

end Naja.TGraph
