import Naja.Universe.NLID
import Naja.Registry.Index
import Naja.Netlist.Objects

/-! The objects of a universe by address: its DBs, their libraries, the designs of a
library, and the terms, nets and instances of a design, each kept by ID in the index of
its owner. A pointer is the address of an object with those of its owners. The terminals
of instances are left out, and so is what is inside a PNL design. -/

namespace Naja.Universe
open Naja.Registry
open Naja.Primitives (Direction)
open Netlist (Address DesignType)

/-! ### Bits of a bus -/

def isBetween (n msb lsb : Int) : Bool := decide (min msb lsb ≤ n) && decide (n ≤ max msb lsb)

/-- The bits by position, from the most significant one on; a destroyed one leaves `none`. -/
structure Bus where
  msb : Int
  lsb : Int
  bits : List (Option Int)
  placed : ∀ (i : Nat) (bit : Int), bits[i]? = some (some bit) → isBetween bit msb lsb = true ∧ (msb - bit).natAbs = i

namespace Bus

theorem placed_create (msb lsb : Int) (i : Nat) (bit : Int)
    (here : ((Netlist.rangeBits (some (msb, lsb))).map some)[i]? = some (some bit)) :
    isBetween bit msb lsb = true ∧ (msb - bit).natAbs = i := by
  rw [Netlist.rangeBits, List.map_map, List.getElem?_map, Option.map_eq_some_iff] at here
  obtain ⟨position, found, isBit⟩ := here
  obtain ⟨inside, rfl⟩ := List.getElem?_eq_some_iff.mp found
  rw [List.length_range, Netlist.width] at inside
  have bitIs : bit = Netlist.bitAt (some (msb, lsb)) i := by
    rw [List.getElem_range] at isBit
    exact (Option.some.inj isBit).symm
  unfold Netlist.bitAt at bitIs
  simp only at bitIs
  rw [isBetween, Bool.and_eq_true, decide_eq_true_eq, decide_eq_true_eq]
  by_cases descending : msb > lsb
  · rw [if_pos descending] at bitIs
    omega
  · rw [if_neg descending] at bitIs
    omega

/-- `createBits`. -/
def create (msb lsb : Int) : Bus := ⟨msb, lsb, (Netlist.rangeBits (some (msb, lsb))).map some, placed_create msb lsb⟩

variable (b : Bus)

def getBit (bit : Int) : Option Int :=
  if isBetween bit b.msb b.lsb then (b.bits[(b.msb - bit).natAbs]?).join else none

theorem placed_remove (position : Nat) (i : Nat) (bit : Int) (here : (b.bits.set position none)[i]? = some (some bit)) :
    isBetween bit b.msb b.lsb = true ∧ (b.msb - bit).natAbs = i := by
  rw [List.getElem?_set] at here
  split at here
  · split at here <;> cases here
  · exact b.placed i bit here

def removeBit (bit : Int) : Bus :=
  ⟨b.msb, b.lsb, b.bits.set (b.msb - bit).natAbs none, b.placed_remove _⟩

/-- The bits that are left. -/
def getBits : List Int := b.bits.filterMap id

theorem getBit_iff (bit bit' : Int) : b.getBit bit = some bit' ↔ bit' = bit ∧ bit ∈ b.getBits := by
  rw [getBits, List.mem_filterMap]
  unfold getBit
  constructor
  · intro found
    split at found
    · next between =>
        have here := Option.join_eq_some_iff.mp found
        obtain ⟨between', position⟩ := b.placed _ bit' here
        have same : bit' = bit := by
          simp only [isBetween, Bool.and_eq_true, decide_eq_true_eq] at between between'
          omega
        exact ⟨same, some bit', List.mem_of_getElem? here, congrArg some same⟩
    · cases found
  · rintro ⟨rfl, entry, member, isBit⟩
    obtain ⟨i, here⟩ := List.mem_iff_getElem?.mp member
    rw [show entry = some bit' from isBit] at here
    obtain ⟨between, position⟩ := b.placed i bit' here
    rw [if_pos between, position, here]
    rfl

end Bus

/-! ### Objects -/

inductive LibraryType where
  | Standard | InDB0 | Primitives
deriving DecidableEq, Repr

/-- A library in a library has a parent. -/
structure LibraryData where
  type : LibraryType
  parent : Option Address
deriving DecidableEq, Repr

inductive TermShape where
  | Scalar
  | Bus (bus : Bus)
  | Bundle

/-- A member of a bundle term has the bundle. -/
structure TermData where
  direction : Direction
  shape : TermShape
  bundle : Option Address

inductive NetShape where
  | Scalar
  | Bus (bus : Bus)

/-- `libraries` has all libraries of a DB, and `nested` those of a library; `next` is an address that no object has
had so far. -/
structure NLUniverse where
  dbs : Index Unit
  libraries : Address → Index LibraryData
  nested : Address → Index Unit
  designs : Address → Index DesignType
  pnlDesigns : Address → Index Unit
  terms : Address → Index TermData
  nets : Address → Index NetShape
  instances : Address → Index Address
  next : Address

structure LibraryRef where
  db : Address
  library : Address
deriving DecidableEq, Repr

structure DesignRef where
  owner : LibraryRef
  design : Address
deriving DecidableEq, Repr

inductive Object where
  | db (db : Address)
  | library (l : LibraryRef)
  | design (d : DesignRef)
  | pnlDesign (d : DesignRef)
  | term (d : DesignRef) (term : Address)
  | termBit (d : DesignRef) (term : Address) (bit : Int)
  | net (d : DesignRef) (net : Address)
  | netBit (d : DesignRef) (net : Address) (bit : Int)
  | inst (d : DesignRef) (inst : Address)
deriving DecidableEq, Repr

namespace NLUniverse
variable (u : NLUniverse)

/-! ### The identifiers of objects -/

/-- The IDs of a library that is alive. -/
def libraryIDs (l : LibraryRef) : Option (Nat × Nat) :=
  (u.dbs.entry l.db).bind (fun db => ((u.libraries l.db).entry l.library).map (fun library => (db.id, library.id)))

def getReference (d : DesignRef) : Option DesignReference :=
  (u.libraryIDs d.owner).bind (fun ids =>
    ((u.designs d.owner.library).entry d.design).map (fun design => ⟨ids.1, ids.2, design.id⟩))

/-- An object that an index has for a design. -/
def owned {α : Type} (index : Address → Index α) (d : DesignRef) (object : Address) :
    Option (DesignReference × Entry α) :=
  (u.getReference d).bind (fun r => ((index d.design).entry object).map (fun e => (r, e)))

/-- `SNLDesignObject::getNLID`. -/
def designObjectNLID (type : Kind) (r : DesignReference) (objectID instanceID : Nat) (bit : Int) : NLID :=
  ⟨type, r.dbID, r.libraryID, r.designID, objectID, instanceID, bit⟩

/-- `getNLID`; an object that is not alive has none. -/
def getNLID : Object → Option NLID
  | .db db => (u.dbs.entry db).map (fun e => { type := .DB, dbID := e.id })
  | .library l => (u.libraryIDs l).map (fun ids => { type := .Library, dbID := ids.1, libraryID := ids.2 })
  | .design d => (u.getReference d).map (fun r =>
      { type := .Design, dbID := r.dbID, libraryID := r.libraryID, designID := r.designID })
  | .pnlDesign d => (u.libraryIDs d.owner).bind (fun ids =>
      ((u.pnlDesigns d.owner.library).entry d.design).map (fun e =>
        { type := .Design, dbID := ids.1, libraryID := ids.2, designID := e.id }))
  | .term d term => (u.owned u.terms d term).map (fun t => designObjectNLID .Term t.1 t.2.id 0 0)
  | .termBit d term bit => (u.owned u.terms d term).bind (fun t =>
      match t.2.data.shape with
      | .Bus bus => if bit ∈ bus.getBits then some (designObjectNLID .TermBit t.1 t.2.id 0 bit) else none
      | _ => none)
  | .net d net => (u.owned u.nets d net).map (fun n => designObjectNLID .Net n.1 n.2.id 0 0)
  | .netBit d net bit => (u.owned u.nets d net).bind (fun n =>
      match n.2.data with
      | .Bus bus => if bit ∈ bus.getBits then some (designObjectNLID .NetBit n.1 n.2.id 0 bit) else none
      | .Scalar => none)
  | .inst d inst => (u.owned u.instances d inst).map (fun i => designObjectNLID .Instance i.1 0 i.2.id 0)

/-- The reference of a bit net. -/
def bitNetReference : Object → Option BitNetReference
  | .net d net => (u.owned u.nets d net).bind (fun n =>
      match n.2.data with
      | .Scalar => some (.scalarNet n.1 n.2.id)
      | .Bus _ => none)
  | .netBit d net bit => (u.owned u.nets d net).bind (fun n =>
      match n.2.data with
      | .Bus bus => if bit ∈ bus.getBits then some (.busNetBit n.1 n.2.id bit) else none
      | .Scalar => none)
  | _ => none

/-! ### The objects of identifiers -/

def getLibrary (dbID libraryID : Nat) : Option LibraryRef :=
  (u.dbs.getByID dbID).bind (fun db =>
    ((u.libraries db.object).getByID libraryID).map (fun library => ⟨db.object, library.object⟩))

def getSNLDesign (r : DesignReference) : Option DesignRef :=
  (u.getLibrary r.dbID r.libraryID).bind (fun l =>
    ((u.designs l.library).getByID r.designID).map (fun design => ⟨l, design.object⟩))

/-- `getTerm`, `getNet` and `getInstance` by a reference. -/
def getOwned {α : Type} (index : Address → Index α) (r : DesignObjectReference) : Option (DesignRef × Entry α) :=
  (u.getSNLDesign r.design).bind (fun d => ((index d.design).getByID r.designObjectID).map (fun e => (d, e)))

def getBitNet (r : BitNetReference) : Option Object :=
  (u.getOwned u.nets ⟨r.getDesignReference, r.designObjectID⟩).bind (fun n =>
    match n.2.data, r.isBusBit with
    | .Bus bus, true => (bus.getBit r.bit).map (.netBit n.1 n.2.object)
    | .Scalar, false => some (.net n.1 n.2.object)
    | _, _ => none)

def getBusTermBit (id : NLID) : Option Object :=
  (u.getOwned u.terms ⟨⟨id.dbID, id.libraryID, id.designID⟩, id.designObjectID⟩).bind (fun t =>
    match t.2.data.shape with
    | .Bus bus => (bus.getBit id.bit).map (.termBit t.1 t.2.object)
    | _ => none)

def getBusNetBit (id : NLID) : Option Object :=
  (u.getOwned u.nets ⟨⟨id.dbID, id.libraryID, id.designID⟩, id.designObjectID⟩).bind (fun n =>
    match n.2.data with
    | .Bus bus => (bus.getBit id.bit).map (.netBit n.1 n.2.object)
    | .Scalar => none)

def getObject (id : NLID) : Option Object :=
  match id.type with
  | .DB => (u.dbs.getByID id.dbID).map (fun db => .db db.object)
  | .Library => (u.getLibrary id.dbID id.libraryID).map .library
  | .Design => (u.getSNLDesign ⟨id.dbID, id.libraryID, id.designID⟩).map .design
  | .Instance =>
      (u.getOwned u.instances ⟨⟨id.dbID, id.libraryID, id.designID⟩, id.instanceID⟩).map (fun i => .inst i.1 i.2.object)
  | .Term =>
      (u.getOwned u.terms ⟨⟨id.dbID, id.libraryID, id.designID⟩, id.designObjectID⟩).map (fun t => .term t.1 t.2.object)
  | .TermBit => u.getBusTermBit id
  | .Net =>
      (u.getOwned u.nets ⟨⟨id.dbID, id.libraryID, id.designID⟩, id.designObjectID⟩).map (fun n => .net n.1 n.2.object)
  | .NetBit => u.getBusNetBit id
  -- terminals of instances are not among the objects
  | .InstTerm => none

end NLUniverse

end Naja.Universe
