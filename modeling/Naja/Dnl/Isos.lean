import Naja.Dnl.Nets
import Mathlib.Data.Finset.Insert
import Mathlib.Data.Finset.Erase

/-! The isos of the flat view: every net that is joined through the hierarchy gets one, with
the terminals that drive it and those that read it. They are built from the drivers on;
where a net has several drivers the isos of these are made shadows, and one more is built.
A last pass over the terminals builds those of the nets without a driver. -/

namespace Naja.Dnl
open Naja.Primitives (Direction)
open Naja.Netlist (NetType)

/-- The identifier of the null terminal. -/
def DNLID_MAX : Nat := 2 ^ 64 - 1

inductive IsoType where
  | STANDART | CONST0 | CONST1 | AMBIGUOUS | SHADOW | CONSTX | CONSTZ
deriving DecidableEq, Repr

/-- `DNLIso`; its identifier is its place. -/
structure Iso where
  drivers : List Nat
  readers : List Nat
  type : IsoType
deriving DecidableEq, Repr

def Iso.new : Iso := ⟨[], [], .STANDART⟩

def Iso.addDriver (driver : Nat) (iso : Iso) : Iso := { iso with drivers := iso.drivers ++ [driver] }

def Iso.addReader (reader : Nat) (iso : Iso) : Iso := { iso with readers := iso.readers ++ [reader] }

def Iso.setIsoType (type : IsoType) (iso : Iso) : Iso := { iso with type := type }

/-- `DNLIsoDB` with the iso identifiers of the terminals. The four sets of constant isos are kept
under the types of their isos. -/
structure IsoDB where
  isos : List Iso
  constantIsos : IsoType → Finset Nat
  shadowIsos : List Nat
  isoIDs : Nat → Option Nat

namespace IsoDB

def empty : IsoDB := ⟨[], fun _ => ∅, [], fun _ => none⟩

def modifyIso (iso : Nat) (f : Iso → Iso) (db : IsoDB) : IsoDB := { db with isos := db.isos.modify iso f }

def setIsoID (fid iso : Nat) (db : IsoDB) : IsoDB := { db with isoIDs := Function.update db.isoIDs fid (some iso) }

/-- A new iso, which is given to a terminal. -/
def addIso (db : IsoDB) (fid : Nat) : IsoDB := { db with isos := db.isos ++ [Iso.new] }.setIsoID fid db.isos.length

/-- `makeShadow` -/
def makeShadow (iso : Nat) (db : IsoDB) : IsoDB :=
  { db.modifyIso iso (fun _ => ⟨[], [], .SHADOW⟩) with shadowIsos := db.shadowIsos ++ [iso] }

end IsoDB

/-- The type a constant net gives its iso. -/
def constantType : NetType → IsoType
  | .Standard => .STANDART
  | .Assign0 | .Supply0 => .CONST0
  | .Assign1 | .Supply1 => .CONST1
  | .AssignX => .CONSTX
  | .AssignZ => .CONSTZ

/-- `handleConstant` -/
def handleConstant (iso : Nat) (netType : IsoType) (db : IsoDB) : IsoDB :=
  match db.isos[iso]? with
  | none => db
  | some here =>
      if here.type = .AMBIGUOUS ∨ netType = .STANDART then db
      else if here.type ≠ .STANDART ∧ here.type ≠ netType then
        { db with constantIsos := fun type => (db.constantIsos type).erase iso }.modifyIso iso (Iso.setIsoType .AMBIGUOUS)
      else
        { db with constantIsos := Function.update db.constantIsos netType (insert iso (db.constantIsos netType)) }.modifyIso
          iso (Iso.setIsoType netType)

inductive Role where
  | reader | driver | hierTerm
deriving DecidableEq, Repr

section View
variable (dnl : DNL)

def modelOf (id : Nat) : Option Nat := dnl.instances[id]?.bind (Node.model dnl.toHierarchy)

/-- The net of the bit terminal, inside the instance of the terminal. -/
def bitTermNet (fid : Nat) : Option (Nat × Nat) :=
  dnl.terms[fid]?.bind fun terminal => (modelOf dnl terminal.owner).bind fun design =>
    ((dnl.wiring design).netOfBitTerm terminal.bitTerm).map fun net => (terminal.owner, net)

/-- The net inside, unless the instance is an assign. -/
def innerNet (fid : Nat) : Option (Nat × Nat) :=
  (bitTermNet dnl fid).filter fun entry =>
    !(modelOf dnl entry.1).any (fun design => (dnl.wiring design).isAssign)

/-- The net of the instance terminal, inside the parent instance; a terminal of the top has none. -/
def outerNet (fid : Nat) : Option (Nat × Nat) :=
  dnl.terms[fid]?.bind fun terminal => terminal.instTerm.bind fun term =>
    (dnl.instances[terminal.owner]?.bind Node.parent).bind fun parent =>
      ((dnl.wiring term.object.design).netOfInstTerm (term.object.position, term.bitTerm)).map fun net => (parent, net)

def getID (terminal : Option Terminal) : Nat := (terminal.map Terminal.id).getD DNLID_MAX

/-- A net inside the instance `entry.1`, with the instance and its model. -/
def netAt (entry : Nat × Nat) : Option (Node × Nat × Net) :=
  dnl.instances[entry.1]?.bind fun node => (node.model dnl.toHierarchy).bind fun design =>
    ((dnl.wiring design).nets[entry.2]?).map fun net => (node, design, net)

/-- The terminals of the child instances on the net. -/
def instTermIDs (entry : Nat × Nat) : List Nat :=
  (netAt dnl entry).elim [] fun (node, design, net) => net.instTerms.map fun term =>
    getID ((getChildInstance dnl.toHierarchy dnl.toView node ⟨design, term.1⟩).bind fun child =>
      getTerminal dnl.toHierarchy dnl.toView child ⟨⟨design, term.1⟩, term.2⟩)

/-- The terminals of the instance itself on the net. -/
def bitTermIDs (entry : Nat × Nat) : List Nat :=
  (netAt dnl entry).elim [] fun (node, design, net) => net.bitTerms.map fun bitTerm =>
    getID (getTerminalFromBitTerm dnl.toHierarchy dnl.toView node design bitTerm)

/-- One of the two loops over a net: it leaves out the terminal `skip` and stops at one that was
visited, which it reports. -/
def pushTerminals (visited : List Nat) (skip : Option Nat) : List Nat → List Nat → Bool × List Nat
  | [], stack => (false, stack)
  | fid :: rest, stack =>
      if fid ∈ visited then (true, stack)
      else if skip = some fid then pushTerminals visited skip rest stack
      else pushTerminals visited skip rest (fid :: stack)

/-- The instance terminals of a net, and the bit terminals when none of them stopped the loop. -/
def pushNet (visited : List Nat) (skipInstTerm skipBitTerm : Option Nat) (entry : Nat × Nat) (stack : List Nat) :
    List Nat :=
  let first := pushTerminals visited skipInstTerm (instTermIDs dnl entry) stack
  if first.1 then first.2 else (pushTerminals visited skipBitTerm (bitTermIDs dnl entry) first.2).2

def pushOn (visited : List Nat) (skipInstTerm skipBitTerm : Option Nat) (entry : Option (Nat × Nat)) (stack : List Nat) :
    List Nat :=
  match entry with
  | some entry => pushNet dnl visited skipInstTerm skipBitTerm entry stack
  | none => stack

/-- What stands on the two nets of a terminal goes on the stack, but for the terminal itself. -/
def pushNets (visited : List Nat) (fid : Nat) (stack : List Nat) : List Nat :=
  pushOn dnl visited (some fid) none (outerNet dnl fid)
    (pushOn dnl visited none (some fid) (innerNet dnl fid) stack)

/-- What a terminal is for its iso. -/
def role (fid : Nat) : Role :=
  match dnl.terms[fid]?.bind (fun terminal => (modelOf dnl terminal.owner).map (terminal, ·)) with
  | none => .hierTerm
  | some (terminal, design) =>
      if terminal.owner = 0 then
        if (dnl.wiring design).direction terminal.bitTerm = .Output then .reader else .driver
      else if (dnl.design design).instances.isEmpty then
        if (dnl.wiring design).direction terminal.bitTerm = .Input then .reader else .driver
      else .hierTerm

/-- The type a net gives to an iso. -/
def typeOfNet (entry : Nat × Nat) : IsoType :=
  (netAt dnl entry).elim .STANDART fun (_, _, net) => constantType net.type

def handleNet (iso : Nat) (entry : Option (Nat × Nat)) (db : IsoDB) : IsoDB :=
  match entry with
  | some entry => handleConstant iso (typeOfNet dnl entry) db
  | none => db

/-- The first round over the drivers leaves them their own isos. -/
def addTerminal (updateDriver : Bool) (iso fid : Nat) (db : IsoDB) : IsoDB :=
  match role dnl fid with
  | .reader => (db.modifyIso iso (Iso.addReader fid)).setIsoID fid iso
  | .driver =>
      if updateDriver then (db.modifyIso iso (Iso.addDriver fid)).setIsoID fid iso
      else db.modifyIso iso (Iso.addDriver fid)
  | .hierTerm => db.setIsoID fid iso

def treatTerminal (updateDriver : Bool) (iso fid : Nat) (db : IsoDB) : IsoDB :=
  handleNet dnl iso (outerNet dnl fid)
    (handleNet dnl iso (innerNet dnl fid) (addTerminal dnl updateDriver iso fid db))

def netCost (entry : Option (Nat × Nat)) : Nat :=
  (entry.map fun entry => (instTermIDs dnl entry ++ bitTermIDs dnl entry).length).getD 0

/-- How much a terminal puts on the stack at most. -/
def treatCost (fid : Nat) : Nat :=
  netCost dnl (innerNet dnl fid) + netCost dnl (outerNet dnl fid)

/-- `treatDriver`; `none` when the fuel runs out. -/
def treatDriver (updateDriver : Bool) (iso start : Nat) (db : IsoDB) : Option IsoDB :=
  (Worklist.whileSome (Worklist.walkStep (pushNets dnl) (treatTerminal dnl updateDriver iso))
    (((List.range dnl.terms.length).map (treatCost dnl)).sum + 2) ⟨[start], [], db⟩).map (·.result)

/-! ### `DNLIsoDBBuilder::process` -/

def directionOf (fid : Nat) : Direction :=
  match dnl.terms[fid]?.bind (fun terminal => (modelOf dnl terminal.owner).map (terminal, ·)) with
  | none => .Undefined
  | some (terminal, design) => (dnl.wiring design).direction terminal.bitTerm

def termsOf (id : Nat) : List Nat := identifiers (dnl.instances[id]?.bind Node.terms)

/-- The leaf terminals that drive a net, and those of the top. -/
def drivers : List Nat :=
  dnl.leaves.flatMap (fun leaf => (termsOf dnl leaf).filter fun fid =>
    directionOf dnl fid != .Input && (outerNet dnl fid).isSome) ++
  (termsOf dnl 0).filter fun fid => directionOf dnl fid != .Output && (bitTermNet dnl fid).isSome

/-- The driver of a task has its iso. -/
def treatTask (updateDriver : Bool) (db : IsoDB) (fid : Nat) : Option IsoDB :=
  (db.isoIDs fid).bind fun iso => treatDriver dnl updateDriver iso fid db

def multiDriverIsos (db : IsoDB) : List Nat :=
  (List.range db.isos.length).filter fun iso => (db.isos[iso]?).any (fun iso => 1 < iso.drivers.length)

/-- The first driver of each of these isos, as a set; the isos become shadows. -/
def shadowStep (state : IsoDB × List Nat) (iso : Nat) : IsoDB × List Nat :=
  (state.1.makeShadow iso,
    match (state.1.isos[iso]?).bind (fun iso => iso.drivers.min?) with
    | some first => Registry.insertByKey id first state.2
    | none => state.2)

/-- A terminal that has a net and no iso gets one. -/
def treatDangling (db : IsoDB) (fid : Nat) : Option IsoDB :=
  let owner := dnl.terms[fid]?.bind fun terminal => dnl.instances[terminal.owner]?
  if (((bitTermNet dnl fid).isSome && !owner.any Node.isLeaf) || (outerNet dnl fid).isSome) &&
      (db.isoIDs fid).isNone then
    treatDriver dnl true db.isos.length fid (db.addIso fid)
  else some db

/-- The isos of the view. The tasks of both rounds are shared out among workers, in the order
of `schedule`. -/
def buildIsos (schedule : List Nat → List Nat) : Option IsoDB :=
  let tasks := drivers dnl
  ((schedule tasks).foldlM (treatTask dnl false) (tasks.foldl IsoDB.addIso IsoDB.empty)).bind fun first =>
    let shadowed := (multiDriverIsos first).foldl shadowStep (first, [])
    ((schedule shadowed.2).foldlM (treatTask dnl true) (shadowed.2.foldl IsoDB.addIso shadowed.1)).bind fun second =>
      (List.range dnl.terms.length).foldlM (treatDangling dnl) second

end View

end Naja.Dnl
