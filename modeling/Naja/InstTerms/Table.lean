import Naja.Primitives.Term
import Mathlib.Tactic.Ring

/-! Instance-terminal tables. Every instance keeps a vector of its terminals,
indexed by the flat ID of the bit term of its model. Flat IDs are assigned from
the last term of the model when a term is added; the vector grows by appending,
loses entries in place, and is built densely for a new instance. Nets and
parameters, which never move an entry, are left out: a resize of a bus is taken
as accepted whenever its bounds are. -/

namespace Naja.InstTerms
open Naja.Primitives (Direction)

/-- A bit term: the term object it belongs to and its bit, 0 for a scalar. -/
structure BitTerm where
  term : Nat
  bit : Int
deriving DecidableEq, Repr

/-- A term object. `uid` stands for its address: it is never reused. -/
structure Term where
  uid : Nat
  id : Nat
  name : String
  direction : Direction
  range : Option (Int × Int)
  flatID : Nat
deriving DecidableEq, Repr

namespace Term

def getWidth (t : Term) : Nat :=
  match t.range with
  | none => 1
  | some (msb, lsb) => (msb - lsb).natAbs + 1

/-- The bit at position `i`, from the most significant one on. -/
def bitAt (t : Term) (i : Nat) : BitTerm :=
  match t.range with
  | none => ⟨t.uid, 0⟩
  | some (msb, lsb) => ⟨t.uid, if msb > lsb then msb - i else msb + i⟩

def getBits (t : Term) : List BitTerm := (List.range t.getWidth).map t.bitAt

def getFlatID (t : Term) (b : BitTerm) : Nat :=
  match t.range with
  | none => t.flatID
  | some (msb, _) => t.flatID + (b.bit - msb).natAbs

theorem width_pos (t : Term) : 0 < t.getWidth := by
  unfold getWidth
  split <;> omega

theorem bitAt_term (t : Term) (i : Nat) : (t.bitAt i).term = t.uid := by
  unfold bitAt
  split <;> rfl

theorem bitAt_injective (t : Term) (i j : Nat) (inI : i < t.getWidth) (inJ : j < t.getWidth)
    (same : t.bitAt i = t.bitAt j) : i = j := by
  unfold getWidth at inI inJ
  unfold bitAt at same
  split at inI
  · next scalar =>
      rw [scalar] at inJ
      simp only at inJ
      omega
  · next msb lsb bus =>
      rw [bus] at same
      have bits := congrArg BitTerm.bit same
      simp only at bits
      split at bits <;> omega

theorem getFlatID_bitAt (t : Term) (i : Nat) (inside : i < t.getWidth) :
    t.getFlatID (t.bitAt i) = t.flatID + i := by
  unfold getWidth at inside
  unfold getFlatID bitAt
  split
  · next scalar =>
      rw [scalar] at inside
      simp only at inside
      omega
  · next msb lsb bus =>
      simp only
      split <;> omega

theorem mem_getBits (t : Term) (b : BitTerm) : b ∈ t.getBits ↔ ∃ i < t.getWidth, t.bitAt i = b := by
  simp [getBits]

@[simp] theorem length_getBits (t : Term) : t.getBits.length = t.getWidth := by
  simp [getBits]

end Term

structure Design where
  name : String
  isPrimitive : Bool
  terms : List Term
deriving DecidableEq, Repr

abbrev Table := List (Option BitTerm)

structure Instance where
  model : Nat
  table : Table
deriving DecidableEq, Repr

/-- Designs and instances by creation order; a destroyed instance leaves `none`. -/
structure State where
  designs : List Design
  instances : List (Option Instance)
  nextUid : Nat
deriving DecidableEq, Repr

def State.initial : State := ⟨[], [], 0⟩

def Design.getBitTerms (d : Design) : List BitTerm := d.terms.flatMap Term.getBits

/-- The flat ID the next term of the design gets. -/
def Design.nextFlatID (d : Design) : Nat :=
  match d.terms.getLast? with
  | none => 0
  | some lastTerm => lastTerm.flatID + lastTerm.getWidth

/-- The ID `addTermAndSetID` gives, in 32 bits. -/
def Design.nextID (d : Design) : Nat :=
  match d.terms.getLast? with
  | none => 0
  | some lastTerm => (lastTerm.id + 1) % 2 ^ 32

def Design.getTerm (d : Design) (id : Nat) : Option Term := d.terms.find? (fun t => t.id == id)

/-- Insertion into the ordered set of terms; a taken ID is not inserted again. -/
def insertTerm (term : Term) : List Term → List Term
  | [] => [term]
  | head :: rest =>
      if term.id < head.id then term :: head :: rest
      else if term.id = head.id then head :: rest
      else head :: insertTerm term rest

def createInstTerm (table : Table) (b : BitTerm) : Table := table ++ [some b]

def removeInstTerm (table : Table) (flatID : Nat) : Table := table.set flatID none

def getInstTerm (table : Table) (t : Term) (b : BitTerm) : Option BitTerm :=
  (table[t.getFlatID b]?).join

def removeBits (table : Table) (flatIDs : List Nat) : Table := flatIDs.foldl removeInstTerm table

/-- The loop of `setMSB` that moves the remaining entries of a bus down by `removeCount`. -/
def shiftEntries (base removeCount : Nat) (table : Table) (positions : List Nat) : Table :=
  positions.foldl (fun table i =>
    (table.set (base + i - removeCount) ((table[base + i]?).join)).set (base + i) none) table

def isBetween (n msb lsb : Int) : Bool := decide (min msb lsb ≤ n) && decide (n ≤ max msb lsb)

/-- Applies `f` to the table of every recorded slave instance of design `model`. -/
def updateSlaves (s : State) (model : Nat) (d : Design) (f : Table → Table) : List (Option Instance) :=
  if d.isPrimitive then s.instances
  else s.instances.map (Option.map (fun inst =>
    if inst.model = model then { inst with table := f inst.table } else inst))

def replaceTerm (d : Design) (id : Nat) (term : Term) : Design :=
  { d with terms := d.terms.map (fun t => if t.id = id then term else t) }

/-- The checks of `setModel` on one pair of terms. -/
def checkTerms (current new : Term) : Except String Unit :=
  if current.name.isEmpty != new.name.isEmpty then
    .error "SNLInstance::setModel error: anonymous contradiction"
  else if current.name ≠ new.name then .error "SNLInstance::setModel error: different term names"
  else if current.id ≠ new.id then .error "SNLInstance::setModel error: different term IDs"
  else if current.direction ≠ new.direction then
    .error "SNLInstance::setModel error: different term directions"
  else match current.range, new.range with
    | some current, some new =>
        if current ≠ new then .error "SNLInstance::setModel error: different bus term bits" else .ok ()
    | none, none => .ok ()
    | _, _ => .error "SNLInstance::setModel error: different term types"

def bitTermMap : List Term → List Term → Except String (List (BitTerm × BitTerm))
  | [], [] => .ok []
  | current :: currents, new :: news => do
      checkTerms current new
      let rest ← bitTermMap currents news
      return current.getBits.zip new.getBits ++ rest
  | _, _ => .error "SNLInstance::setModel error: different number of terms"

/-- Redirects the entries of a table to the bit terms of the new model. -/
def remap (pairs : List (BitTerm × BitTerm)) : Table → Except String Table
  | [] => .ok []
  | none :: rest => do
      let later ← remap pairs rest
      return none :: later
  | some b :: rest =>
      match pairs.lookup b with
      | none => .error "SNLInstance::setModel error: term not found in new model"
      | some new => do
          let later ← remap pairs rest
          return some new :: later

inductive Operation where
  | createDesign (name : String) (isPrimitive : Bool)
  | cloneInterface (design : Nat) (name : String)
  | createTerm (design : Nat) (id : Option Nat) (name : String) (direction : Direction)
      (range : Option (Int × Int))
  | destroyTerm (design id : Nat)
  | setMSB (design id : Nat) (msb : Int)
  | setLSB (design id : Nat) (lsb : Int)
  | createInstance (model : Nat)
  | cloneInstance (index : Nat)
  | destroyInstance (index : Nat)
  | setModel (index model : Nat)
deriving DecidableEq, Repr

/-- The ID a new term gets: given, or one more than the last. -/
def termID (d : Design) (id : Option Nat) : Nat :=
  match id with
  | some id => id % 2 ^ 32
  | none => d.nextID

def getNamedString (name tag : String) (id : Nat) : String :=
  if name.isEmpty then "<" ++ tag ++ ":" ++ toString id ++ ">" else name

def getBusNamedString (t : Term) (msb lsb : Int) : String :=
  getNamedString t.name "term" t.id ++ "[" ++ toString msb ++ ":" ++ toString lsb ++ "]"

def nameTaken (r : Nat) (d : Design) (range : Option (Int × Int)) (name : String) : String :=
  match range with
  | none =>
      "SNLDesign " ++ getNamedString d.name "design" r ++ " contains already a SNLScalarTerm named: " ++
        name
  | some _ =>
      "cannot create SNLBusTerm with name " ++ name ++ "A terminal with this name already exists."

def idTaken (r : Nat) (d : Design) (range : Option (Int × Int)) (id : Nat) : String :=
  match range with
  | none =>
      "SNLDesign " ++ getNamedString d.name "design" r ++ " contains already a SNLScalarTerm with ID: " ++
        toString id
  | some _ =>
      "cannot create SNLBusTerm with id " ++ toString id ++ "A terminal with this id already exists."

def addTerm (s : State) (r : Nat) (d : Design) (term : Term) : State :=
  { designs := s.designs.set r { d with terms := insertTerm term d.terms },
    instances := updateSlaves s r d (fun table => term.getBits.foldl createInstTerm table),
    nextUid := s.nextUid + 1 }

def denseTable (d : Design) : Table := d.getBitTerms.foldl createInstTerm []

def findDesign (s : State) (r : Nat) : Except String Design :=
  match s.designs[r]? with
  | some d => .ok d
  | none => .error "no such design"

def findTerm (d : Design) (id : Nat) : Except String Term :=
  match d.getTerm id with
  | some t => .ok t
  | none => .error "no such term"

def findBus (d : Design) (id : Nat) : Except String (Term × Int × Int) :=
  match d.getTerm id with
  | some t =>
      match t.range with
      | some (msb, lsb) => .ok (t, msb, lsb)
      | none => .error "not a bus term"
  | none => .error "no such term"

def findInstance (s : State) (index : Nat) : Except String Instance :=
  match s.instances[index]? with
  | some (some inst) => .ok inst
  | _ => .error "no such instance"

def step (s : State) : Operation → Except String State
  | .createDesign name isPrimitive =>
      .ok { s with designs := s.designs ++ [⟨name, isPrimitive, []⟩] }
  | .cloneInterface r name => do
      let d ← findDesign s r
      if d.isPrimitive then throw "cloneToLibrary cannot be called on primitive designs"
      let clones := d.terms.zipIdx.map (fun (t, k) => { t with uid := s.nextUid + k })
      return { designs := s.designs ++ [⟨name, false, clones⟩], instances := s.instances,
               nextUid := s.nextUid + d.terms.length }
  | .createTerm r id name direction range => do
      let d ← findDesign s r
      if !name.isEmpty && d.terms.any (fun t => t.name == name) then
        throw (nameTaken r d range name)
      if id.isSome && (d.getTerm (termID d id)).isSome then
        throw (idTaken r d range (termID d id))
      return addTerm s r d ⟨s.nextUid, termID d id, name, direction, range, d.nextFlatID⟩
  | .destroyTerm r id => do
      let d ← findDesign s r
      let t ← findTerm d id
      return { s with
        designs := s.designs.set r { d with terms := d.terms.filter (fun other => other.id ≠ id) },
        instances := updateSlaves s r d (fun table => removeBits table (t.getBits.map t.getFlatID)) }
  | .setMSB r id msb => do
      let d ← findDesign s r
      let (t, oldMSB, lsb) ← findBus d id
      if msb = oldMSB then return s
      if !isBetween msb oldMSB lsb then
        throw ("setMSB error: " ++ getBusNamedString t oldMSB lsb ++
          " cannot be resized to [" ++ toString msb ++ ":" ++ toString lsb ++ "]")
      let removeCount := (oldMSB - msb).natAbs
      let positions := (List.range (t.getWidth - removeCount)).map (removeCount + ·)
      return { s with
        designs := s.designs.set r (replaceTerm d id { t with range := some (msb, lsb) }),
        instances := updateSlaves s r d (fun table =>
          shiftEntries t.flatID removeCount
            (removeBits table ((t.getBits.take removeCount).map t.getFlatID)) positions) }
  | .setLSB r id lsb => do
      let d ← findDesign s r
      let (t, msb, oldLSB) ← findBus d id
      if lsb = oldLSB then return s
      if !isBetween lsb msb oldLSB then
        throw ("setLSB error: " ++ getBusNamedString t msb oldLSB ++
          " cannot be resized to [" ++ toString msb ++ ":" ++ toString lsb ++ "]")
      let removeCount := (oldLSB - lsb).natAbs
      return { s with
        designs := s.designs.set r (replaceTerm d id { t with range := some (msb, lsb) }),
        instances := updateSlaves s r d (fun table =>
          removeBits table ((t.getBits.drop (t.getWidth - removeCount)).map t.getFlatID)) }
  | .createInstance r => do
      let d ← findDesign s r
      return { s with instances := s.instances ++ [some ⟨r, denseTable d⟩] }
  | .cloneInstance index => do
      let inst ← findInstance s index
      let d ← findDesign s inst.model
      return { s with instances := s.instances ++ [some ⟨inst.model, denseTable d⟩] }
  | .destroyInstance index => do
      let _ ← findInstance s index
      return { s with instances := s.instances.set index none }
  | .setModel index model => do
      let inst ← findInstance s index
      if inst.model = model then return s
      let current ← findDesign s inst.model
      let new ← findDesign s model
      let pairs ← bitTermMap current.terms new.terms
      let table ← remap pairs inst.table
      return { s with instances := s.instances.set index (some ⟨model, table⟩) }

end Naja.InstTerms
