import Naja.Registry.OrderedSet
import Naja.Netlist.Objects
import Naja.TruthTable.Storage

/-! A database by ID: libraries inside libraries, their designs, and in a design the
terms, the instances and the nets with the components on each of their bits. All of
these are sets ordered by ID, or by name for parameters. -/

namespace Naja.CapnP
open Naja.Primitives (Direction)
open Naja.Netlist (Parameter InstParameter NetType DesignType rangeBits)
open Naja.Registry
open Naja.TruthTable.BitDependencies (Word)

structure DesignReference where
  dbID : Nat
  libraryID : Nat
  designID : Nat
deriving DecidableEq, Repr

/-- `removed` has the bits of a bus that were destroyed. -/
structure Term where
  id : Nat
  name : String
  direction : Direction
  range : Option (Int × Int)
  removed : List Int
deriving DecidableEq, Repr

/-- A bit of a term, or of the terminals of an instance, by IDs; a scalar term has bit 0. -/
inductive Component where
  | bitTerm (term : Nat) (bit : Int)
  | instTerm (inst term : Nat) (bit : Int)
deriving DecidableEq, Repr

structure NetBit where
  type : NetType
  components : List Component
deriving DecidableEq, Repr

/-- `bits` goes by position, with `none` for a destroyed bit. -/
structure Net where
  id : Nat
  name : String
  range : Option (Int × Int)
  bits : List (Option NetBit)
deriving DecidableEq, Repr

structure Instance where
  id : Nat
  name : String
  model : DesignReference
  parameters : List InstParameter
deriving DecidableEq, Repr

/-- `property` has the stored truth tables. -/
structure Design where
  id : Nat
  name : String
  type : DesignType
  property : Option (List Word)
  parameters : List Parameter
  terms : List Term
  instances : List Instance
  nets : List Net
deriving DecidableEq

inductive LibraryType where
  | Standard | Primitives
deriving DecidableEq, Repr

inductive Library where
  | mk (id : Nat) (name : String) (type : LibraryType) (designs : List Design) (libraries : List Library)

/-- `top` has the IDs of the library and of the design. -/
structure Database where
  id : Nat
  libraries : List Library
  top : Option (Nat × Nat)

namespace Library

def id : Library → Nat
  | .mk id _ _ _ _ => id

def name : Library → String
  | .mk _ name _ _ _ => name

def type : Library → LibraryType
  | .mk _ _ type _ _ => type

def designs : Library → List Design
  | .mk _ _ _ designs _ => designs

def libraries : Library → List Library
  | .mk _ _ _ _ libraries => libraries

end Library

mutual

/-- A library with all libraries inside of it, as they are visited. -/
def Library.flat : Library → List Library
  | .mk id name type designs libraries => .mk id name type designs libraries :: flatLibraries libraries

def flatLibraries : List Library → List Library
  | [] => []
  | library :: rest => library.flat ++ flatLibraries rest

end

namespace Database

/-- All libraries, with those inside of others. -/
def getGlobalLibraries (db : Database) : List Library := flatLibraries db.libraries

def getLibrary (db : Database) (id : Nat) : Option Library := db.getGlobalLibraries.find? (fun l => l.id == id)

def getSNLDesign (db : Database) (libraryID designID : Nat) : Option Design :=
  (db.getLibrary libraryID).bind (fun l => l.designs.find? (fun d => d.id == designID))

end Database

/-- The databases in memory. -/
abbrev Universe := List Database

namespace Universe

def getDB (u : Universe) (id : Nat) : Option Database := u.find? (fun db => db.id == id)

def getSNLDesign (u : Universe) (reference : DesignReference) : Option Design :=
  (getDB u reference.dbID).bind (fun db => db.getSNLDesign reference.libraryID reference.designID)

end Universe

def Term.getBits (t : Term) : List Int := (rangeBits t.range).filter (fun bit => bit ∉ t.removed)

/-- The bit of a component in a term; for a scalar term there is no choice. -/
def Term.getBit (t : Term) (bit : Int) : Option Int :=
  match t.range with
  | none => some 0
  | some _ => if bit ∈ t.getBits then some bit else none

namespace Design

def getTerm (d : Design) (id : Nat) : Option Term := d.terms.find? (fun t => t.id == id)

def getInstance (d : Design) (id : Nat) : Option Instance := d.instances.find? (fun i => i.id == id)

def isPrimitive (d : Design) : Bool := d.type == .Primitive

/-- The components on the nets of a design. -/
def attached (d : Design) : List Component :=
  d.nets.flatMap (fun n => n.bits.flatMap (fun b => (b.map NetBit.components).getD []))

end Design

end Naja.CapnP
