import Naja.CapnP.Database

/-! The two messages of a snapshot and how a database is written into them. The
interface has the libraries, designs, parameters and terms; the implementation has the
instances and the nets. Objects are referred to by ID. -/

namespace Naja.CapnP
open Naja.Primitives (Direction)
open Naja.Netlist (Parameter InstParameter NetType DesignType rangeBits)
open Naja.TruthTable.BitDependencies (Word)

inductive TermMessage where
  | scalarTerm (id : Nat) (name : Option String) (direction : Direction)
  | busTerm (id : Nat) (name : Option String) (msb lsb : Int) (direction : Direction)
deriving DecidableEq, Repr

structure DesignInterface where
  id : Nat
  name : Option String
  type : DesignType
  property : Option (List Word)
  parameters : List Parameter
  terms : List TermMessage
deriving DecidableEq

inductive LibraryInterface where
  | mk (id : Nat) (name : Option String) (type : LibraryType) (designs : List DesignInterface)
      (libraries : List LibraryInterface)

structure DBInterface where
  id : Nat
  libraries : List LibraryInterface
  topDesignReference : Option DesignReference

structure InstanceMessage where
  id : Nat
  name : Option String
  modelReference : DesignReference
  instParameters : List InstParameter
deriving DecidableEq, Repr

/-- Without type and components when the bit is destroyed. -/
structure BusNetBit where
  bit : Int
  destroyed : Bool
  type : NetType
  components : List Component
deriving DecidableEq, Repr

inductive NetMessage where
  | scalarNet (id : Nat) (name : Option String) (type : NetType) (components : List Component)
  | busNet (id : Nat) (name : Option String) (msb lsb : Int) (bits : List BusNetBit)
deriving DecidableEq, Repr

structure DesignImplementation where
  id : Nat
  instances : List InstanceMessage
  nets : List NetMessage
deriving DecidableEq, Repr

inductive LibraryImplementation where
  | mk (id : Nat) (designs : List DesignImplementation) (libraries : List LibraryImplementation)

structure DBImplementation where
  id : Nat
  libraries : List LibraryImplementation

/-! ### Writing -/

/-- A name is only written when there is one. -/
def dumpName (name : String) : Option String := if name.isEmpty then none else some name

def dumpTerm (t : Term) : TermMessage :=
  match t.range with
  | none => .scalarTerm t.id (dumpName t.name) t.direction
  | some (msb, lsb) => .busTerm t.id (dumpName t.name) msb lsb t.direction

def dumpDesignInterface (d : Design) : DesignInterface :=
  ⟨d.id, dumpName d.name, d.type, d.property, d.parameters, d.terms.map dumpTerm⟩

mutual

def dumpLibraryInterface : Library → LibraryInterface
  | .mk id name type designs libraries =>
      .mk id (dumpName name) type (designs.map dumpDesignInterface) (dumpLibraryInterfaces libraries)

def dumpLibraryInterfaces : List Library → List LibraryInterface
  | [] => []
  | library :: rest => dumpLibraryInterface library :: dumpLibraryInterfaces rest

end

/-- The reference to the top design has the ID of the database itself. -/
def dumpInterface (db : Database) (forceDBID : Nat) : DBInterface :=
  ⟨forceDBID, dumpLibraryInterfaces db.libraries, db.top.map (fun top => ⟨db.id, top.1, top.2⟩)⟩

def dumpInstance (i : Instance) : InstanceMessage := ⟨i.id, dumpName i.name, i.model, i.parameters⟩

def dumpBusNetBit (bit : Int) : Option NetBit → BusNetBit
  | some b => ⟨bit, false, b.type, b.components⟩
  | none => ⟨bit, true, .Standard, []⟩

def dumpNet (n : Net) : NetMessage :=
  match n.range, n.bits with
  | none, some b :: _ => .scalarNet n.id (dumpName n.name) b.type b.components
  | none, _ => .scalarNet n.id (dumpName n.name) .Standard []
  | some (msb, lsb), bits =>
      .busNet n.id (dumpName n.name) msb lsb (List.zipWith dumpBusNetBit (rangeBits n.range) bits)

def dumpDesignImplementation (d : Design) : DesignImplementation :=
  ⟨d.id, d.instances.map dumpInstance, d.nets.map dumpNet⟩

mutual

def dumpLibraryImplementation : Library → LibraryImplementation
  | .mk id _ _ designs libraries =>
      .mk id (designs.map dumpDesignImplementation) (dumpLibraryImplementations libraries)

def dumpLibraryImplementations : List Library → List LibraryImplementation
  | [] => []
  | library :: rest => dumpLibraryImplementation library :: dumpLibraryImplementations rest

end

def dumpImplementation (db : Database) (forceDBID : Nat) : DBImplementation :=
  ⟨forceDBID, dumpLibraryImplementations db.libraries⟩

end Naja.CapnP
