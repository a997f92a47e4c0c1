import Naja.Primitives.Term

/-! The flattened design: instances with their terminals numbered in one row, and the isos
that join the terminals of a net through the hierarchy. -/

namespace Naja.Metrics
open Naja.Primitives (Direction)

/-- A bit term is a scalar term or a bit of a bus. -/
inductive BitTermObject where
  | SNLScalarTerm (id : Nat)
  | SNLBusTermBit (busID : Nat) (bit : Int)
deriving DecidableEq, Repr

/-- The bits of a bus all have the ID of the bus. -/
def BitTermObject.getID : BitTermObject → Nat
  | .SNLScalarTerm id => id
  | .SNLBusTermBit busID _ => busID

/-- A bit term with the bit terms its model relates to it. -/
structure SNLBitTerm where
  object : BitTermObject
  direction : Direction
  clockRelatedInputs : List Nat
  clockRelatedOutputs : List Nat
  combinatorialInputs : List Nat
deriving DecidableEq, Repr

/-- The arcs of a terminal are those of its instance, given by their bit terms; those of the
model alone are in the bit term. An iso ID that is none is `DNLID_MAX`. -/
structure DNLTerminalFull where
  instanceID : Nat
  bitTerm : Nat
  topPort : Bool
  isoID : Option Nat
  combinatorialInputs : List Nat
  combinatorialOutputs : List Nat
deriving DecidableEq, Repr

/-- What stands behind the last terminal. -/
def DNLNullTerminal : DNLTerminalFull := ⟨0, 0, true, none, [], []⟩

/-- An instance without terminals has no indexes. The flags are those of its model. -/
structure DNLInstanceFull where
  termIndexes : Option (Nat × Nat)
  isSequential : Bool
  hasModeling : Bool
deriving DecidableEq, Repr

structure DNLIso where
  drivers : List Nat
  readers : List Nat
deriving DecidableEq, Repr

/-- The flattened design. Instance 0 is the top, and its terminals are the bit terms of the
top design. Of these an iso reads the outputs and is driven by the others; all that an iso
names is there. -/
structure DNLFull where
  snlBitTerm : Nat → SNLBitTerm
  terms : List DNLTerminalFull
  instances : List DNLInstanceFull
  leaves : List Nat
  isos : List DNLIso
  indexes_lt : ∀ inst ∈ instances, ∀ first second : Nat, inst.termIndexes = some (first, second) → second < terms.length
  port_drivers : ∀ iso ∈ isos, ∀ id ∈ iso.drivers, (terms[id]?).any (fun terminal =>
    !terminal.topPort || (snlBitTerm terminal.bitTerm).direction != .Output) = true
  port_readers : ∀ iso ∈ isos, ∀ id ∈ iso.readers, (terms[id]?).any (fun terminal =>
    !terminal.topPort || (snlBitTerm terminal.bitTerm).direction == .Output) = true

namespace DNLFull
variable (dnl : DNLFull)

def getDNLTerminalFromID (id : Nat) : DNLTerminalFull := (dnl.terms[id]?).getD DNLNullTerminal

def getSnlBitTerm (id : Nat) : SNLBitTerm := dnl.snlBitTerm (dnl.getDNLTerminalFromID id).bitTerm

/-- The terminals of an instance, by their indexes. -/
def instanceTerms (inst : Nat) : List Nat :=
  match (dnl.instances[inst]?).bind DNLInstanceFull.termIndexes with
  | some (first, second) => List.range' first (second + 1 - first)
  | none => []

theorem instanceTerms_lt (inst id : Nat) (member : id ∈ dnl.instanceTerms inst) : id < dnl.terms.length := by
  unfold instanceTerms at member
  split at member
  · next first second indexes =>
      obtain ⟨found, there, indexes⟩ := Option.bind_eq_some_iff.mp indexes
      have last := dnl.indexes_lt found (List.mem_of_getElem? there) first second indexes
      have inRange := List.mem_range'_1.mp member
      omega
  · nomatch member

/-- The iso of a terminal; the null iso is none. -/
def getIso (id : Nat) : Option DNLIso :=
  (dnl.getDNLTerminalFromID id).isoID.bind (fun iso => dnl.isos[iso]?)

theorem getIso_mem (id : Nat) (iso : DNLIso) (found : dnl.getIso id = some iso) : iso ∈ dnl.isos := by
  obtain ⟨index, -, there⟩ := Option.bind_eq_some_iff.mp found
  exact List.mem_of_getElem? there

def getDrivers (id : Nat) : List Nat := ((dnl.getIso id).map DNLIso.drivers).getD []

def getReaders (id : Nat) : List Nat := ((dnl.getIso id).map DNLIso.readers).getD []

def isTopPort (id : Nat) : Bool := (dnl.getDNLTerminalFromID id).topPort

/-- A terminal is sequential when a clock of its instance is related to it, or when it is
such a clock itself. -/
def isSequential (id : Nat) : Bool :=
  let self := (dnl.getDNLTerminalFromID id).bitTerm
  (dnl.instanceTerms (dnl.getDNLTerminalFromID id).instanceID).any (fun term =>
    let clock := dnl.getSnlBitTerm term
    clock.clockRelatedOutputs.contains self || clock.clockRelatedInputs.contains self
      || ((!clock.clockRelatedOutputs.isEmpty || !clock.clockRelatedInputs.isEmpty) && term == id))

end DNLFull

end Naja.Metrics
