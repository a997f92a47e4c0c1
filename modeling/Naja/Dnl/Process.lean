import Naja.Registry.OrderedSet
import Naja.Unfolding.Walk
import Naja.Worklist.While
import Mathlib.Algebra.Ring.Nat
import Mathlib.Logic.Function.Basic

/-! The flat view of a hierarchy of designs. Its instances and their terminals are
numbered level by level with a stack, and every instance then gets the interval
of a depth-first visit. `none` stands for `DNLID_MAX`, for a null object and for a
null interval. -/

namespace Naja.Dnl

/-- An instance in its design: the number of its model and the bit terminals of the model
in the order of its instance terminals. -/
structure Instance where
  model : Nat
  instTerms : List Nat

/-- The bit terminals of a design are numbered in the order of `getBitTerms`. -/
structure Design where
  bitTerms : Nat
  instances : List Instance

abbrev Netlist := List Design

def Netlist.design (netlist : Netlist) (number : Nat) : Design := netlist.getD number ⟨0, []⟩

/-- The designs below a top design: no design contains itself, and every instance has the
terminals of its model. -/
structure Hierarchy where
  netlist : Netlist
  top : Nat
  rank : Nat → Nat
  descends : ∀ number < netlist.length, ∀ inst ∈ (netlist.design number).instances, rank inst.model < rank number
  complete : ∀ number < netlist.length, ∀ inst ∈ (netlist.design number).instances,
    inst.instTerms.Perm (List.range (netlist.design inst.model).bitTerms)

def Hierarchy.design (hierarchy : Hierarchy) (number : Nat) : Design := hierarchy.netlist.design number

/-- An instance as an object of the netlist. -/
structure Object where
  design : Nat
  position : Nat
deriving DecidableEq

structure InstTerm where
  object : Object
  bitTerm : Nat
deriving DecidableEq

/-- The order IDs kept on the instances and on the bit terminals of the designs. -/
structure Orders where
  ofInstance : Object → Nat
  ofBitTerm : Nat → Nat → Nat

namespace Orders

def setInstance (orders : Orders) (object : Object) (id : Nat) : Orders :=
  { orders with ofInstance := Function.update orders.ofInstance object id }

def setBitTerm (orders : Orders) (design bitTerm id : Nat) : Orders :=
  { orders with ofBitTerm := Function.update orders.ofBitTerm design (Function.update (orders.ofBitTerm design) bitTerm id) }

/-- The terminals of a design get their places in a list. -/
def setBitTerms (orders : Orders) (design : Nat) (terms : List Nat) : Orders :=
  terms.zipIdx.foldl (fun orders entry => orders.setBitTerm design entry.1 entry.2) orders

end Orders

/-- One instance of `design`: its order ID, its model on the stack, and the order IDs of the
terminals of the model. -/
def orderInstance (design : Nat) (state : Orders × List Nat) (entry : Instance × Nat) : Orders × List Nat :=
  ((state.1.setInstance ⟨design, entry.2⟩ entry.2).setBitTerms entry.1.model entry.1.instTerms,
    entry.1.model :: state.2)

def orderDesign (hierarchy : Hierarchy) : Orders × List Nat → Option (Orders × List Nat)
  | (_, []) => none
  | (orders, design :: stack) =>
      some ((hierarchy.design design).instances.zipIdx.foldl (orderInstance design) (orders, stack))

/-- The number of instances below a design down to a depth, the design itself counted. -/
def weight (hierarchy : Hierarchy) : Nat → Nat → Nat
  | 0, _ => 1
  | depth + 1, design =>
      1 + ((hierarchy.design design).instances.map (fun inst => weight hierarchy depth inst.model)).sum

/-- Enough rounds for a loop that meets every instance of the hierarchy once. -/
def rounds (hierarchy : Hierarchy) : Nat := weight hierarchy (hierarchy.rank hierarchy.top) hierarchy.top + 1

/-- `OrderIDInitializer::process`; the order IDs that were there before are those of `orders`. -/
def orderIDs (hierarchy : Hierarchy) (orders : Orders) : Option Orders :=
  (Worklist.whileSome (orderDesign hierarchy) (rounds hierarchy)
    (orders.setBitTerms hierarchy.top (List.range (hierarchy.design hierarchy.top).bitTerms), [hierarchy.top])).map Prod.fst

/-- `DNLInstanceFull` -/
structure Node where
  object : Option Object
  id : Nat
  parent : Option Nat
  children : Option (Nat × Nat) := some (0, 0)
  terms : Option (Nat × Nat) := some (0, 0)
  interval : Option (Nat × Nat) := none

/-- `DNLTerminalFull` -/
structure Terminal where
  owner : Nat
  instTerm : Option InstTerm
  bitTerm : Nat
  id : Nat

structure Network where
  instances : List Node
  terms : List Terminal
  leaves : List Nat
  stack : List Nat

/-- `getSNLModel` -/
def Node.model (hierarchy : Hierarchy) (node : Node) : Option Nat :=
  match node.object with
  | some object => (hierarchy.design object.design).instances[object.position]?.map (·.model)
  | none => if node.id = 0 then some hierarchy.top else none

def Node.setInterval (interval : Option (Nat × Nat)) (node : Node) : Node := { node with interval := interval }

def Node.setChildren (children : Option (Nat × Nat)) (node : Node) : Node := { node with children := children }

/-- The set of terminals ordered by their order IDs. -/
def sortedTerms (order : Nat → Nat) (terms : List Nat) : List Nat :=
  terms.foldl (fun sorted term => Registry.insertByKey order term sorted) []

/-- The terminals of one instance are added after those that are there. -/
def addTerms (owner : Nat) (object : Option Object) (terms : List Terminal) (bitTerms : List Nat) : List Terminal :=
  bitTerms.foldl (fun terms bitTerm =>
    terms ++ [⟨owner, object.map (fun object => ⟨object, bitTerm⟩), bitTerm, terms.length⟩]) terms

def termIndexes (first : Nat) (terms : List Terminal) : Option (Nat × Nat) :=
  if first = terms.length then none else terms.getLast?.map (fun last => (first, last.id))

/-- Below the top level the last terminal is read before the test: without any
terminal this is undefined. -/
def nestedTermIndexes (first : Nat) (terms : List Terminal) : Option (Option (Nat × Nat)) :=
  terms.getLast?.map (fun last => if first = terms.length then none else some (first, last.id))

section Build
variable (hierarchy : Hierarchy) (orders : Orders)
  (indexes : Nat → List Terminal → Option (Option (Nat × Nat)))

/-- The next instance of `design` under the instance `parent`. -/
def addInstance (design parent : Nat) (network : Network) (entry : Instance × Nat) : Option Network :=
  let id := network.instances.length
  let object : Object := ⟨design, entry.2⟩
  let terms := addTerms id (some object) network.terms (sortedTerms (orders.ofBitTerm entry.1.model) entry.1.instTerms)
  (indexes network.terms.length terms).map fun range =>
    { instances := network.instances ++ [{ object := some object, id := id, parent := some parent, terms := range }]
      terms := terms
      leaves := if (hierarchy.design entry.1.model).instances.isEmpty then network.leaves ++ [id] else network.leaves
      stack := id :: network.stack }

def childrenIndexes (first : Nat) (instances : List Node) : Option (Nat × Nat) :=
  if first = instances.length then none else instances.getLast?.map (fun last => (first, last.id))

/-- All instances of `design`, under the instance `parent`. -/
def addChildren (design parent : Nat) (network : Network) : Option Network :=
  ((hierarchy.design design).instances.zipIdx.foldlM (addInstance hierarchy orders indexes design parent) network).map
    fun added =>
      { added with
        instances := added.instances.modify parent
          (Node.setChildren (childrenIndexes network.instances.length added.instances)) }

end Build

/-- The top instance with its terminals. -/
def topNetwork (hierarchy : Hierarchy) (orders : Orders) : Network :=
  let terms := addTerms 0 none []
    (sortedTerms (orders.ofBitTerm hierarchy.top) (List.range (hierarchy.design hierarchy.top).bitTerms))
  { instances := [{ object := none, id := 0, parent := none, terms := termIndexes 0 terms }]
    terms := terms
    leaves := []
    stack := [] }

/-- The instances of the top design. -/
def firstLevel (hierarchy : Hierarchy) (orders : Orders) : Option Network :=
  addChildren hierarchy orders (fun first terms => some (termIndexes first terms)) hierarchy.top 0
    (topNetwork hierarchy orders)

/-- One round of the loop over the stack; it is over after an undefined step. -/
def expand (hierarchy : Hierarchy) (orders : Orders) : Option Network → Option (Option Network)
  | none => none
  | some network =>
      match network.stack with
      | [] => none
      | id :: rest =>
          some ((network.instances[id]?.bind (Node.model hierarchy)).bind fun design =>
            addChildren hierarchy orders nestedTermIndexes design id { network with stack := rest })

/-- The identifiers of a range that contains its second end. -/
def identifiers : Option (Nat × Nat) → List Nat
  | none => []
  | some (first, last) => List.range' first (last + 1 - first)

def childrenOf (instances : List Node) (id : Nat) : List Nat := identifiers (instances[id]?.bind Node.children)

/-- The visit of `initDFSIntervals`; the fuel bounds the depth. -/
def visit : Nat → List Node × Nat → Nat → List Node × Nat
  | 0, state, _ => state
  | fuel + 1, (instances, next), id =>
      let below := (childrenOf instances id).foldl (visit fuel) (instances, next + 1)
      (below.1.modify id (Node.setInterval (some (next, below.2))), below.2)

def initDFSIntervals (network : Network) : Network :=
  { network with instances := (visit network.instances.length (network.instances, 0) 0).1 }

/-- The flat view and the order IDs it leaves on the netlist. -/
structure View extends Network where
  orders : Orders

/-- `DNL::process`; `none` when a step is undefined. -/
def process (hierarchy : Hierarchy) (before : Orders) : Option View :=
  (orderIDs hierarchy before).bind fun orders =>
    (Worklist.whileSome (expand hierarchy orders) (rounds hierarchy + 1) (firstLevel hierarchy orders)).join.map
      fun network => ⟨initDFSIntervals network, orders⟩

/-- `isUnder` -/
def Node.isUnder (node parent : Node) : Bool :=
  match node.interval, parent.interval with
  | some (dfsIn, _), some (parentIn, parentOut) => parentIn ≤ dfsIn && dfsIn < parentOut
  | _, _ => false

/-- `isLeaf` -/
def Node.isLeaf (node : Node) : Bool :=
  match node.children with
  | none => true
  | some (first, last) => first == last

/-- The climb of `isInstanceChild` from an instance to the top. -/
def climb (instances : List Node) (parent : Nat) : Nat → Nat → Bool
  | 0, _ => false
  | fuel + 1, inst =>
      if inst = 0 then false
      else if parent = inst then true
      else
        match instances[inst]?.bind Node.parent with
        | some above => climb instances parent fuel above
        | none => false

def isInstanceChild (instances : List Node) (parent child : Nat) : Bool :=
  if parent = 0 then true else climb instances parent instances.length child

/-- `getChildInstance`; `none` is the null instance. -/
def getChildInstance (hierarchy : Hierarchy) (view : View) (node : Node) (object : Object) : Option Node :=
  if node.model hierarchy ≠ some object.design then none
  else node.children.bind fun range => view.instances[range.1 + view.orders.ofInstance object]?

/-- `getTerminal`; `none` is the null terminal. -/
def getTerminal (hierarchy : Hierarchy) (view : View) (node : Node) (term : InstTerm) : Option Terminal :=
  if node.object ≠ some term.object then none
  else (node.model hierarchy).bind fun design => node.terms.bind fun range =>
    view.terms[range.1 + view.orders.ofBitTerm design term.bitTerm]?

/-- `getTerminalFromBitTerm` -/
def getTerminalFromBitTerm (hierarchy : Hierarchy) (view : View) (node : Node) (design bitTerm : Nat) :
    Option Terminal :=
  if node.model hierarchy ≠ some design then none
  else node.terms.bind fun range => view.terms[range.1 + view.orders.ofBitTerm design bitTerm]?

/-- `getPath`: the positions of the instances from the top to an instance. -/
def getPath (instances : List Node) : Nat → Nat → List Nat
  | 0, _ => []
  | fuel + 1, id =>
      if id = 0 then []
      else
        match instances[id]? with
        | some ⟨some object, _, some parent, _, _, _⟩ => getPath instances fuel parent ++ [object.position]
        | _ => []

end Naja.Dnl
