import Naja.Registry.Index
import Naja.Registry.Links
import Naja.Primitives.Term

/-! The objects of a netlist by address: designs with their terms, nets, instances
and parameters, the table of terminals of an instance, and the links between
components and bit nets. Terms, nets and instances are kept by ID and by name in the
index of their design. The recorded instances of a model, the slave instances, are
the instances with this model, less those of a primitive. -/

namespace Naja.Netlist
open Naja.Primitives (Direction)
open Naja.Registry

abbrev Address := Nat

/-- The bits of a range, from the most significant one on; a scalar has bit 0. -/
def width : Option (Int × Int) → Nat
  | none => 1
  | some (msb, lsb) => (msb - lsb).natAbs + 1

def bitAt (range : Option (Int × Int)) (i : Nat) : Int :=
  match range with
  | none => 0
  | some (msb, lsb) => if msb > lsb then msb - i else msb + i

def rangeBits (range : Option (Int × Int)) : List Int := (List.range (width range)).map (bitAt range)

/-- `abs(bit - msb)`. -/
def position (range : Option (Int × Int)) (bit : Int) : Nat :=
  match range with
  | none => 0
  | some (msb, _) => (bit - msb).natAbs

/-- A bit of the term at an address; a scalar term is its own bit. -/
structure BitTerm where
  term : Address
  bit : Int
deriving DecidableEq, Repr

structure BitNet where
  net : Address
  bit : Int
deriving DecidableEq, Repr

/-- A bit term, or the terminal an instance has in one slot of its table. -/
inductive Component where
  | bitTerm (b : BitTerm)
  | instTerm (inst : Address) (slot : Nat)
deriving DecidableEq, Repr

structure TermData where
  direction : Direction
  range : Option (Int × Int)
  flatID : Nat
  removed : List Int
deriving DecidableEq, Repr

inductive NetType where
  | Standard | Assign0 | Assign1 | Supply0 | Supply1 | AssignX | AssignZ
deriving DecidableEq, Repr

/-- `types` goes by position. -/
structure NetData where
  range : Option (Int × Int)
  removed : List Int
  types : List NetType
deriving DecidableEq, Repr

structure InstParameter where
  name : String
  value : String
deriving DecidableEq, Repr

/-- `table` has the bit term of every terminal; a destroyed one leaves `none`. -/
structure InstData where
  model : Nat
  table : List (Option BitTerm)
  parameters : List InstParameter
deriving DecidableEq, Repr

inductive ParameterType where
  | Decimal | Binary | Boolean | String
deriving DecidableEq, Repr

structure Parameter where
  name : String
  type : ParameterType
  value : Option String
deriving DecidableEq, Repr

inductive DesignType where
  | Standard | UserBlackBox | AutoBlackBox | Primitive
deriving DecidableEq, Repr

structure Design where
  library : Nat
  name : String
  type : DesignType
  terms : Index TermData
  nets : Index NetData
  instances : Index InstData
  parameters : List Parameter
  links : Links Component BitNet

structure Library where
  string : String
  isPrimitives : Bool
deriving DecidableEq, Repr

/-- `next` is an address that no object has had so far. -/
structure World where
  libraries : List Library
  designs : List Design
  next : Address

def TermData.getBits (t : TermData) : List Int := (rangeBits t.range).filter (fun bit => bit ∉ t.removed)

def NetData.getBits (n : NetData) : List Int := (rangeBits n.range).filter (fun bit => bit ∉ n.removed)

/-- `term->getBits()`. -/
def bitsOf (e : Entry TermData) : List BitTerm := e.data.getBits.map (BitTerm.mk e.object)

def bitNetsOf (e : Entry NetData) : List BitNet := e.data.getBits.map (BitNet.mk e.object)

namespace Design
variable (d : Design)

def isPrimitive : Bool := d.type == .Primitive

def getBitTerms : List BitTerm := d.terms.set.flatMap bitsOf

def hasBitTerm (b : BitTerm) : Prop := ∃ e ∈ d.terms.set, b ∈ bitsOf e

def hasBitNet (n : BitNet) : Prop := ∃ e ∈ d.nets.set, n ∈ bitNetsOf e

def hasComponent : Component → Prop
  | .bitTerm b => d.hasBitTerm b
  | .instTerm inst slot => ∃ e ∈ d.instances.set, e.object = inst ∧ ∃ b, e.data.table[slot]? = some (some b)

/-- `bitTerm->getFlatID()`, for a bit term of the design. -/
def getFlatID (b : BitTerm) : Option Nat :=
  (d.terms.entry b.term).map (fun e => e.data.flatID + position e.data.range b.bit)

end Design

inductive ComponentKind where
  | Term | TermBit | InstTerm
deriving DecidableEq, Repr

/-- What tells two components of a design apart in the set of a net: kind, ID of the term, ID of the
instance and bit. Without the bit term of a terminal there is no key. -/
abbrev Key := ComponentKind × Nat × Nat × Int

def World.key (w : World) (d : Design) : Component → Option Key
  | .bitTerm b => (d.terms.entry b.term).map (fun e =>
      (if e.data.range.isNone then .Term else .TermBit, e.id, 0, b.bit))
  | .instTerm inst slot =>
      (d.instances.entry inst).bind (fun i =>
        (i.data.table[slot]?.join).bind (fun b =>
          (w.designs[i.data.model]?).bind (fun model =>
            (model.terms.entry b.term).map (fun t => (.InstTerm, t.id, i.id, b.bit)))))

def World.sameKey (w : World) (d : Design) (c c' : Component) : Bool := w.key d c == w.key d c'

/-- `component->setNet(net)` once its arguments are checked. -/
def World.setNet (w : World) (d : Design) (c : Component) (target : Option BitNet) : Design :=
  { d with links := d.links.setNet (w.sameKey d) c target }

def World.setDesign (w : World) (k : Nat) (d : Design) : World := { w with designs := w.designs.set k d }

def World.modifyDesign (w : World) (k : Nat) (f : Design → Design) : World :=
  { w with designs := w.designs.modify k f }

end Naja.Netlist
