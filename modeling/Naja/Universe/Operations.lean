import Naja.Universe.Objects

/-! Creations and destructions. A creation without an ID takes the one after the last, in
the arithmetic of its type; with an ID, or with a name, it is refused when the owner has
an object of that ID or name. What an object owns goes with it, and so do the recorded
instances of a design that goes. An exception, or a pointer to an object that is not
alive, leaves no new state. -/

namespace Naja.Universe
open Naja.Registry
open Naja.Primitives (Direction)
open Netlist (Address DesignType)

def dbBound : Nat := 2 ^ 8
def libraryBound : Nat := 2 ^ 16
def designBound : Nat := 2 ^ 32
def designObjectBound : Nat := 2 ^ 32

section owner
variable {α : Type} (r : Index α)

/-- The check of the ID before a creation, and the ID the object gets. -/
def newID (bound : Nat) : Option Nat → Option Nat
  | none => some (r.nextID bound)
  | some id => if (r.getByID (id % bound)).isSome then none else some (id % bound)

def nameFree (name : String) : Bool := name.isEmpty || (r.getByName name).isNone

/-- The objects with a property are removed one after the other. -/
def removeAll (p : Entry α → Bool) : Index α := (r.set.filter p).foldl Index.remove r

end owner

/-- The index of one owner changes. -/
def modifyAt {α : Type} (index : Address → Index α) (owner : Address) (f : Index α → Index α) : Address → Index α :=
  Function.update index owner (f (index owner))

/-- The library is `root` or inside of it; a chain of libraries is no longer than their number. -/
def isWithin (libraries : Index LibraryData) (root : Address) : Nat → Address → Bool
  | 0, _ => false
  | fuel + 1, library => library == root ||
      ((libraries.entry library).bind (fun e => e.data.parent)).any (isWithin libraries root fuel)

/-- A term to be created. -/
inductive TermSpec where
  | Scalar
  | Bus (msb lsb : Int)
  | Bundle
deriving DecidableEq, Repr

def TermSpec.shape : TermSpec → TermShape
  | .Scalar => .Scalar
  | .Bus msb lsb => .Bus (.create msb lsb)
  | .Bundle => .Bundle

def netShape : Option (Int × Int) → NetShape
  | none => .Scalar
  | some (msb, lsb) => .Bus (.create msb lsb)

namespace NLUniverse

/-- Before the creation of DB0. -/
def empty : NLUniverse where
  dbs := .empty
  libraries _ := .empty
  nested _ := .empty
  designs _ := .empty
  pnlDesigns _ := .empty
  terms _ := .empty
  nets _ := .empty
  instances _ := .empty
  next := 0

variable (u : NLUniverse)

/-! ### Creation -/

def createDB (id : Option Nat) : Option NLUniverse :=
  (newID u.dbs dbBound id).map (fun id => { u with dbs := u.dbs.add ⟨u.next, id, "", ()⟩, next := u.next + 1 })

def createLibrary (db : Address) (id : Option Nat) (type : LibraryType) (name : String) : Option NLUniverse :=
  if (u.dbs.entry db).isSome && nameFree (u.libraries db) name then
    (newID (u.libraries db) libraryBound id).map (fun id =>
      { u with
        libraries := modifyAt u.libraries db (fun r => r.add ⟨u.next, id, name, ⟨type, none⟩⟩)
        next := u.next + 1 })
  else none

def libraryEntry (l : LibraryRef) : Option (Entry LibraryData) :=
  (u.libraryIDs l).bind (fun _ => (u.libraries l.db).entry l.library)

def createNestedLibrary (parent : LibraryRef) (id : Option Nat) (type : LibraryType) (name : String) : Option NLUniverse :=
  if (u.libraryEntry parent).any (fun e => e.data.type == type) && nameFree (u.nested parent.library) name then
    (newID (u.libraries parent.db) libraryBound id).map (fun id =>
      { u with
        libraries := modifyAt u.libraries parent.db (fun r => r.add ⟨u.next, id, name, ⟨type, some parent.library⟩⟩)
        nested := modifyAt u.nested parent.library (fun r => r.add ⟨u.next, id, name, ()⟩)
        next := u.next + 1 })
  else none

def createDesign (l : LibraryRef) (id : Option Nat) (type : DesignType) (name : String) : Option NLUniverse :=
  if (u.libraryEntry l).any (fun e => (type == .Primitive) == (e.data.type == .Primitives)) &&
      nameFree (u.designs l.library) name then
    (newID (u.designs l.library) designBound id).map (fun id =>
      { u with
        designs := modifyAt u.designs l.library (fun r => r.add ⟨u.next, id, name, type⟩)
        next := u.next + 1 })
  else none

/-- An ID that is given is checked but not used. -/
def createPNLDesign (l : LibraryRef) (id : Option Nat) (primitive : Bool) (name : String) : Option NLUniverse :=
  if (u.libraryEntry l).any (fun e => primitive == (e.data.type == .Primitives)) &&
      nameFree (u.pnlDesigns l.library) name then
    (newID (u.pnlDesigns l.library) designBound id).map (fun _ =>
      { u with
        pnlDesigns := modifyAt u.pnlDesigns l.library
          (fun r => r.add ⟨u.next, r.nextID designBound, name, ()⟩)
        next := u.next + 1 })
  else none

def designEntry (d : DesignRef) : Option (Entry DesignType) :=
  (u.getReference d).bind (fun _ => (u.designs d.owner.library).entry d.design)

/-- A member goes to a bundle of its direction that is the last term at top level. -/
def takesMember (terms : Index TermData) (direction : Direction) (bundle : Address) : Bool :=
  (terms.entry bundle).any (fun e => (match e.data.shape with | .Bundle => true | _ => false) &&
      e.data.direction == direction) &&
    ((terms.set.filter (fun e => e.data.bundle.isNone)).getLast?).any (fun e => e.object == bundle)

/-- Bundles are for primitives, and no members of bundles. -/
def createTerm (d : DesignRef) (id : Option Nat) (name : String) (direction : Direction) (spec : TermSpec)
    (bundle : Option Address) : Option NLUniverse :=
  if (u.designEntry d).any (fun e => spec != .Bundle || (e.data == .Primitive && bundle.isNone)) &&
      nameFree (u.terms d.design) name && bundle.all (takesMember (u.terms d.design) direction) then
    (newID (u.terms d.design) designObjectBound id).map (fun id =>
      { u with
        terms := modifyAt u.terms d.design (fun r => r.add ⟨u.next, id, name, ⟨direction, spec.shape, bundle⟩⟩)
        next := u.next + 1 })
  else none

def createNet (d : DesignRef) (id : Option Nat) (name : String) (range : Option (Int × Int)) : Option NLUniverse :=
  if (u.designEntry d).isSome && nameFree (u.nets d.design) name then
    (newID (u.nets d.design) designObjectBound id).map (fun id =>
      { u with
        nets := modifyAt u.nets d.design (fun r => r.add ⟨u.next, id, name, netShape range⟩)
        next := u.next + 1 })
  else none

def createInstance (d model : DesignRef) (id : Option Nat) (name : String) : Option NLUniverse :=
  if (u.designEntry d).any (fun e => e.data != .Primitive) && (u.designEntry model).isSome &&
      nameFree (u.instances d.design) name then
    (newID (u.instances d.design) designObjectBound id).map (fun id =>
      { u with
        instances := modifyAt u.instances d.design (fun r => r.add ⟨u.next, id, name, model.design⟩)
        next := u.next + 1 })
  else none

/-! ### Clones -/

/-- A copy of an object has the ID and the name of the object. -/
def copyEntry {α : Type} (next : Address) (f : α → α) (e : Entry α) : Entry α :=
  ⟨next + 1 + e.object, e.id, e.name, f e.data⟩

/-- All bits are created again. -/
def cloneTerm (t : TermData) : TermData :=
  match t.shape with
  | .Bus bus => ⟨t.direction, .Bus (.create bus.msb bus.lsb), none⟩
  | shape => ⟨t.direction, shape, none⟩

def cloneNet : NetShape → NetShape
  | .Bus bus => .Bus (.create bus.msb bus.lsb)
  | .Scalar => .Scalar

/-- The bits of a net are read when it is cloned. -/
def isWhole : NetShape → Bool
  | .Bus bus => bus.bits.all Option.isSome
  | .Scalar => true

/-- The interface of a design, or with `whole` all of it. A bundle cannot be cloned. -/
def cloneToLibrary (d : DesignRef) (l : LibraryRef) (name : String) (whole : Bool) : Option NLUniverse :=
  if (u.designEntry d).any (fun e => e.data != .Primitive) &&
      (u.libraryEntry l).any (fun e => e.data.type != .Primitives) && nameFree (u.designs l.library) name &&
      (u.terms d.design).set.all (fun e => match e.data.shape with | .Bundle => false | _ => true) &&
      (!whole || (u.nets d.design).set.all (fun e => isWhole e.data)) then
    some { u with
      designs := modifyAt u.designs l.library
        (fun r => r.add ⟨u.next, r.nextID designBound, name, .Standard⟩)
      terms := Function.update u.terms u.next ((u.terms d.design).copy (copyEntry u.next cloneTerm))
      nets := if whole then Function.update u.nets u.next ((u.nets d.design).copy (copyEntry u.next cloneNet)) else u.nets
      instances := if whole then
          Function.update u.instances u.next ((u.instances d.design).copy (copyEntry u.next id))
        else u.instances
      next := 2 * u.next + 1 }
  else none

/-! ### Destruction -/

/-- The instances of some designs go. -/
def dropInstances (models : Address → Bool) : NLUniverse :=
  { u with instances := fun d => removeAll (u.instances d) (fun e => models e.data) }

/-- The instances of a design that is no primitive are recorded in it. -/
def recordsInstances (library design : Address) : Bool :=
  ((u.designs library).entry design).any (fun e => e.data != .Primitive)

def goneWithDB (db model : Address) : Bool :=
  (u.libraries db).set.any (fun l => u.recordsInstances l.object model)

def destroyDB (db : Address) : Option NLUniverse :=
  (u.dbs.entry db).map (fun e => { u.dropInstances (u.goneWithDB db) with dbs := u.dbs.remove e })

/-- The libraries that go with a library. -/
def isInside (l : LibraryRef) (library : Address) : Bool :=
  isWithin (u.libraries l.db) l.library (u.libraries l.db).set.length library

def goneWithLibrary (l : LibraryRef) (model : Address) : Bool :=
  (u.libraries l.db).set.any (fun e => u.isInside l e.object && u.recordsInstances e.object model)

/-- The library leaves its parent, too. -/
def leaveParent (l : LibraryRef) (e : Entry LibraryData) : Address → Index Unit :=
  match e.data.parent with
  | none => u.nested
  | some parent => modifyAt u.nested parent (fun r => r.remove ⟨l.library, e.id, e.name, ()⟩)

def destroyLibrary (l : LibraryRef) : Option NLUniverse :=
  (u.libraryEntry l).map (fun e =>
    { u.dropInstances (u.goneWithLibrary l) with
      libraries := modifyAt u.libraries l.db (fun r => removeAll r (fun e => u.isInside l e.object))
      nested := u.leaveParent l e })

def goneWithDesign (d : DesignRef) (model : Address) : Bool :=
  model == d.design && u.recordsInstances d.owner.library model

def destroyDesign (d : DesignRef) : Option NLUniverse :=
  (u.designEntry d).map (fun e =>
    { u.dropInstances (u.goneWithDesign d) with
      designs := modifyAt u.designs d.owner.library (fun r => r.remove e) })

def destroyPNLDesign (d : DesignRef) : Option NLUniverse :=
  (u.libraryIDs d.owner).bind (fun _ => ((u.pnlDesigns d.owner.library).entry d.design).map (fun e =>
    { u with pnlDesigns := modifyAt u.pnlDesigns d.owner.library (fun r => r.remove e) }))

/-- With the members of a bundle; a member is not destroyed alone. -/
def destroyTerm (d : DesignRef) (term : Address) : Option NLUniverse :=
  (u.owned u.terms d term).bind (fun t =>
    if t.2.data.bundle.isSome then none
    else some { u with terms := modifyAt u.terms d.design (fun r =>
      removeAll r (fun e => e.object == term || e.data.bundle == some term)) })

def destroyNet (d : DesignRef) (net : Address) : Option NLUniverse :=
  (u.owned u.nets d net).map (fun n => { u with nets := modifyAt u.nets d.design (fun r => r.remove n.2) })

def destroyInstance (d : DesignRef) (inst : Address) : Option NLUniverse :=
  (u.owned u.instances d inst).map (fun i => { u with instances := modifyAt u.instances d.design (fun r => r.remove i.2) })

def dropTermBit (bit : Int) (t : TermData) : TermData :=
  match t.shape with
  | .Bus bus => { t with shape := .Bus (bus.removeBit bit) }
  | _ => t

def dropNetBit (bit : Int) : NetShape → NetShape
  | .Bus bus => .Bus (bus.removeBit bit)
  | .Scalar => .Scalar

def destroyTermBit (d : DesignRef) (term : Address) (bit : Int) : Option NLUniverse :=
  (u.getNLID (.termBit d term bit)).map (fun _ =>
    { u with terms := modifyAt u.terms d.design (fun r => r.modify term (dropTermBit bit)) })

def destroyNetBit (d : DesignRef) (net : Address) (bit : Int) : Option NLUniverse :=
  (u.getNLID (.netBit d net bit)).map (fun _ =>
    { u with nets := modifyAt u.nets d.design (fun r => r.modify net (dropNetBit bit)) })

end NLUniverse

/-! ### Runs -/

inductive Action where
  | createDB (id : Option Nat)
  | createLibrary (db : Address) (id : Option Nat) (type : LibraryType) (name : String)
  | createNestedLibrary (parent : LibraryRef) (id : Option Nat) (type : LibraryType) (name : String)
  | createDesign (l : LibraryRef) (id : Option Nat) (type : DesignType) (name : String)
  | createPNLDesign (l : LibraryRef) (id : Option Nat) (primitive : Bool) (name : String)
  | createTerm (d : DesignRef) (id : Option Nat) (name : String) (direction : Direction) (spec : TermSpec)
      (bundle : Option Address)
  | createNet (d : DesignRef) (id : Option Nat) (name : String) (range : Option (Int × Int))
  | createInstance (d model : DesignRef) (id : Option Nat) (name : String)
  | cloneToLibrary (d : DesignRef) (l : LibraryRef) (name : String) (whole : Bool)
  | destroyDB (db : Address)
  | destroyLibrary (l : LibraryRef)
  | destroyDesign (d : DesignRef)
  | destroyPNLDesign (d : DesignRef)
  | destroyTerm (d : DesignRef) (term : Address)
  | destroyTermBit (d : DesignRef) (term : Address) (bit : Int)
  | destroyNet (d : DesignRef) (net : Address)
  | destroyNetBit (d : DesignRef) (net : Address) (bit : Int)
  | destroyInstance (d : DesignRef) (inst : Address)
deriving DecidableEq, Repr

def NLUniverse.step (u : NLUniverse) : Action → Option NLUniverse
  | .createDB id => u.createDB id
  | .createLibrary db id type name => u.createLibrary db id type name
  | .createNestedLibrary parent id type name => u.createNestedLibrary parent id type name
  | .createDesign l id type name => u.createDesign l id type name
  | .createPNLDesign l id primitive name => u.createPNLDesign l id primitive name
  | .createTerm d id name direction spec bundle => u.createTerm d id name direction spec bundle
  | .createNet d id name range => u.createNet d id name range
  | .createInstance d model id name => u.createInstance d model id name
  | .cloneToLibrary d l name whole => u.cloneToLibrary d l name whole
  | .destroyDB db => u.destroyDB db
  | .destroyLibrary l => u.destroyLibrary l
  | .destroyDesign d => u.destroyDesign d
  | .destroyPNLDesign d => u.destroyPNLDesign d
  | .destroyTerm d term => u.destroyTerm d term
  | .destroyTermBit d term bit => u.destroyTermBit d term bit
  | .destroyNet d net => u.destroyNet d net
  | .destroyNetBit d net bit => u.destroyNetBit d net bit
  | .destroyInstance d inst => u.destroyInstance d inst

/-- The ID after the last one is not in use. -/
def nextFree {α : Type} (r : Index α) (bound : Nat) : Bool := (r.getByID (r.nextID bound)).isNone

/-- A creation that is given no ID finds the ID it takes free: the IDs of its type have not run out. -/
def NLUniverse.FindsID (u : NLUniverse) : Action → Prop
  | .createDB none => nextFree u.dbs dbBound
  | .createLibrary db none _ _ => nextFree (u.libraries db) libraryBound
  | .createNestedLibrary parent none _ _ => nextFree (u.libraries parent.db) libraryBound
  | .createDesign l none _ _ => nextFree (u.designs l.library) designBound
  | .createPNLDesign l _ _ _ => nextFree (u.pnlDesigns l.library) designBound
  | .createTerm d none _ _ _ _ => nextFree (u.terms d.design) designObjectBound
  | .createNet d none _ _ => nextFree (u.nets d.design) designObjectBound
  | .createInstance d _ none _ => nextFree (u.instances d.design) designObjectBound
  | .cloneToLibrary _ l _ _ => nextFree (u.designs l.library) designBound
  | _ => True

/-- The states of a universe whose creations have all found their IDs. -/
inductive Reached : NLUniverse → Prop where
  | created : Reached .empty
  | step (u u' : NLUniverse) (action : Action) (before : Reached u) (finds : u.FindsID action)
      (stepped : u.step action = some u') : Reached u'

end Naja.Universe
