import Naja.Metrics.FlatNetlist
import Naja.Worklist.While
import Naja.Worklist.Search
import Mathlib.Algebra.Ring.Nat

/-! The cone of logic before or behind a pin or a bus of the top design. A queue goes from
terminal to terminal, the nodes are shared per instance, and an edge that would close a
cycle is left out. The bits of a bus are extracted by several workers and merged. -/

namespace Naja.Metrics.LogicCone

inductive Direction where
  | FanIn | FanOut
deriving DecidableEq, Repr

inductive NodeKind where
  | Root | Internal | Flop | Ports | Blackbox
deriving DecidableEq, Repr

def isLeaf : NodeKind → Bool
  | .Flop | .Ports | .Blackbox => true
  | .Root | .Internal => false

/-- There is one bus root at most. -/
inductive NodeKey where
  | BusRoot
  | Instance (id : Nat)
  | Terminal (id : Nat)
deriving DecidableEq, Repr

structure Node where
  key : NodeKey
  kind : NodeKind
  next : List Nat
  prev : List Nat
deriving DecidableEq, Repr

def Node.toRoot (node : Node) : Node := { node with kind := .Root }

def Node.addNext (childID : Nat) (node : Node) : Node := { node with next := node.next ++ [childID] }

def Node.addPrev (parentID : Nat) (node : Node) : Node := { node with prev := node.prev ++ [parentID] }

/-- A node ID is a place in `nodes`. -/
structure ConeData where
  nodes : List Node
  root : Nat
  leaves : List Nat
  expandedTerms : List Nat
  queue : List (Nat × Nat)
  bitRoots : List Nat
deriving DecidableEq, Repr

namespace ConeData

def empty : ConeData := ⟨[], 0, [], [], [], []⟩

variable (data : ConeData)

def keyAt (id : Nat) : Option NodeKey := (data.nodes[id]?).map Node.key

def kindAt (id : Nat) : Option NodeKind := (data.nodes[id]?).map Node.kind

def nextOf (id : Nat) : List Nat := ((data.nodes[id]?).map Node.next).getD []

def prevOf (id : Nat) : List Nat := ((data.nodes[id]?).map Node.prev).getD []

/-- The map from keys to nodes. -/
def indexOf (key : NodeKey) : Option Nat := data.nodes.findIdx? (fun node => node.key == key)

def eraseLeaf (id : Nat) : ConeData := { data with leaves := data.leaves.filter (· ≠ id) }

/-- A node that is there already stays what it is, except that it may become a root. -/
def getOrCreate (key : NodeKey) (kind : NodeKind) : ConeData × Nat :=
  match data.indexOf key with
  | some id =>
      if kind = .Root ∧ data.kindAt id ≠ some .Root then
        let erased := if (data.kindAt id).any isLeaf then data.eraseLeaf id else data
        ({ erased with nodes := erased.nodes.modify id Node.toRoot }, id)
      else (data, id)
  | none =>
      ({ data with
          nodes := data.nodes ++ [⟨key, kind, [], []⟩]
          leaves := if isLeaf kind then data.leaves ++ [data.nodes.length] else data.leaves }, data.nodes.length)

def edgeCount : Nat := (data.nodes.map (fun node => node.next.length)).sum

/-- The search goes through every edge once at most, which bounds its steps. -/
def wouldCreateCycle (parentID childID : Nat) : Bool :=
  if parentID = childID then true
  else (Worklist.search data.nextOf parentID (data.edgeCount + 2) [childID] []).getD false

def addEdge (parentID childID : Nat) : ConeData :=
  if childID ∈ data.nextOf parentID then data
  else if data.wouldCreateCycle parentID childID then data
  else { data with nodes := (data.nodes.modify parentID (Node.addNext childID)).modify childID (Node.addPrev parentID) }

end ConeData

/-! ### One bit -/

section Extract
variable (dnl : DNLFull) (direction : Direction)

def getNodeKind (inst : Nat) : NodeKind :=
  match dnl.instances[inst]? with
  | some found => if found.isSequential then .Flop else if !found.hasModeling then .Blackbox else .Internal
  | none => .Blackbox

/-- The terminals on the other side of the combinational arcs of a terminal. -/
def crossed (terminal : Nat) : List Nat :=
  (match direction with
    | .FanIn => (dnl.getDNLTerminalFromID terminal).combinatorialInputs
    | .FanOut => (dnl.getDNLTerminalFromID terminal).combinatorialOutputs).filterMap (fun bitTerm =>
      (dnl.instanceTerms (dnl.getDNLTerminalFromID terminal).instanceID).find?
        (fun other => (dnl.getDNLTerminalFromID other).bitTerm == bitTerm))

def expandThroughInstance (childID terminal : Nat) (kind : NodeKind) (data : ConeData) : ConeData :=
  if kind ≠ .Internal then data
  else if terminal ∈ data.expandedTerms then data
  else { data with
    expandedTerms := terminal :: data.expandedTerms
    queue := data.queue ++ (crossed dnl direction terminal).map (fun next => (childID, next)) }

def addTerminal (parentID : Nat) (data : ConeData) (terminal : Nat) : ConeData :=
  if dnl.isTopPort terminal then
    let (created, portID) := data.getOrCreate (.Terminal terminal) .Ports
    created.addEdge parentID portID
  else
    let inst := (dnl.getDNLTerminalFromID terminal).instanceID
    let kind := getNodeKind dnl inst
    let (created, childID) := data.getOrCreate (.Instance inst) kind
    expandThroughInstance dnl direction childID terminal kind (created.addEdge parentID childID)

def terminals (terminal : Nat) : List Nat :=
  match direction with
  | .FanIn => dnl.getDrivers terminal
  | .FanOut => dnl.getReaders terminal

def localBoundaryTerminals (terminal : Nat) : List Nat :=
  match direction with
  | .FanIn => dnl.getReaders terminal
  | .FanOut => dnl.getDrivers terminal

def isBoundaryPortForDirection (terminal : Nat) : Bool :=
  dnl.isTopPort terminal &&
    (dnl.getSnlBitTerm terminal).direction == (match direction with
      | .FanIn => .Input
      | .FanOut => .Output)

/-- Under the top design every terminal is local, and its ports are the top ports. -/
def extractIso (parentID terminal : Nat) (data : ConeData) : ConeData :=
  ((localBoundaryTerminals dnl direction terminal).filter (isBoundaryPortForDirection dnl direction)).foldl
    (addTerminal dnl direction parentID) ((terminals dnl direction terminal).foldl (addTerminal dnl direction parentID) data)

def step (data : ConeData) : Option ConeData :=
  match data.queue with
  | [] => none
  | (parentID, terminal) :: rest => some (extractIso dnl direction parentID terminal { data with queue := rest })

/-- Extracts the cone of one start into the data, and gives its root. -/
def extract (fuel : Nat) (data : ConeData) (start : Nat) : Option (ConeData × Nat) :=
  let (created, root) := data.getOrCreate (.Terminal start) .Root
  (Worklist.whileSome (step dnl direction) fuel { created with root := root, queue := [(root, start)] }).map
    (fun done => (done, root))

def extractSingleBitCone (fuel start : Nat) : Option ConeData :=
  (extract dnl direction fuel .empty start).map Prod.fst

/-! ### The bits of a bus -/

/-- What one worker does. -/
def extractRange (fuel : Nat) (bits : List Nat) : Option ConeData :=
  bits.foldlM (fun data bit => (extract dnl direction fuel data bit).map
    (fun found => { found.1 with bitRoots := found.1.bitRoots ++ [found.2] })) .empty

/-- The node of `merged` for each node of `cone`. -/
def remapNodes (merged cone : ConeData) : ConeData × List Nat :=
  cone.nodes.foldl (fun state node =>
    let (created, id) := state.1.getOrCreate node.key node.kind
    (created, state.2 ++ [id])) (merged, [])

def mergeConeData (busRoot : Nat) (merged cone : ConeData) : ConeData :=
  if cone.nodes.isEmpty then merged
  else
    let (created, remap) := remapNodes merged cone
    let edges := (List.range cone.nodes.length).foldl (fun data i =>
      (cone.nextOf i).foldl (fun data next => data.addEdge ((remap[i]?).getD 0) ((remap[next]?).getD 0)) data) created
    cone.bitRoots.foldl (fun data bitRoot => data.addEdge busRoot ((remap[bitRoot]?).getD 0)) edges

/-- `workers` says which bits each worker extracts, and in which order; their cones are
merged in the order of the list. -/
def extractBusCone (fuel : Nat) (workers : List (List Nat)) : Option ConeData :=
  if workers.flatten.isEmpty then none
  else do
    let cones ← workers.mapM (extractRange dnl direction fuel)
    let (data, busRoot) := ConeData.empty.getOrCreate .BusRoot .Root
    return cones.foldl (mergeConeData busRoot) { data with root := busRoot }

end Extract

end Naja.Metrics.LogicCone
