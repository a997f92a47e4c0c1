import Naja.Netlist.Objects
import Mathlib.Algebra.Ring.Nat

/-! The operations on the objects of a design: creation, destruction, renaming,
connection, and the change of the model of an instance. An exception may leave what
was done before it; a null or stale pointer that is followed ends the run. -/

namespace Naja.Netlist
open Naja.Primitives (Direction)
open Naja.Registry

/-- IDs of terms, nets and instances have 32 bits. -/
def idBound : Nat := 2 ^ 32

/-- The reasons of exceptions. -/
inductive Refusal where
  | nullDesign | nameTaken | idTaken | primitiveDesign | incompatibleDesigns | busWidth | termWidth
  | sizes | incompatibleTerminal | incompatibleNet
  | termCount | anonymous | termName | termID | termDirection | busBits | termType | parameterCount
  | parameterName | parameterType | termNotFound | parameterNotFound
  | primitiveClone | primitivesLibrary | designNameTaken
  | notBetween | nonConstantNet | netOnInstances | instTermConnected | bitConnected
deriving DecidableEq, Repr

inductive Outcome where
  | done (w : World)
  | thrown (reason : Refusal) (w : World)
  | undefined

namespace World
variable (w : World)

/-! ### Creation -/

/-- The checks before a creation: the name, and the ID when it is given. -/
def checkCreate {α : Type} (r : Index α) (id : Option Nat) (name : String) : Except Refusal Unit :=
  if ¬ name.isEmpty ∧ (r.getByName name).isSome then .error .nameTaken
  else match id with
    | none => .ok ()
    | some id => if (r.getByID (id % idBound)).isSome then .error .idTaken else .ok ()

/-- The ID that is given, or the one after the last. -/
def newID {α : Type} (r : Index α) (id : Option Nat) : Nat :=
  match id with
  | some id => id % idBound
  | none => r.nextID idBound

/-- The instances whose model is design `m` get terminals for new bits. -/
def appendTerminals (m : Nat) (bits : List BitTerm) (d : Design) : Design :=
  { d with instances := d.instances.mapData (fun e =>
      if e.data.model = m then { e.data with table := e.data.table ++ bits.map some } else e.data) }

def nextFlatID (d : Design) : Nat :=
  match d.terms.set.getLast? with
  | none => 0
  | some last => last.data.flatID + width last.data.range

def createTerm (m : Nat) (id : Option Nat) (name : String) (direction : Direction) (range : Option (Int × Int)) :
    Outcome :=
  match w.designs[m]? with
  | none => .thrown .nullDesign w
  | some d =>
      match checkCreate d.terms id name with
      | .error reason => .thrown reason w
      | .ok () =>
          let entry : Entry TermData := ⟨w.next, newID d.terms id, name, ⟨direction, range, nextFlatID d, []⟩⟩
          let added := w.designs.modify m (fun d => { d with terms := d.terms.add entry })
          let designs := if d.isPrimitive then added else added.map (appendTerminals m (bitsOf entry))
          .done { w with designs := designs, next := w.next + 1 }

def createNet (k : Nat) (id : Option Nat) (name : String) (range : Option (Int × Int)) : Outcome :=
  match w.designs[k]? with
  | none => .thrown .nullDesign w
  | some d =>
      match checkCreate d.nets id name with
      | .error reason => .thrown reason w
      | .ok () =>
          let entry : Entry NetData :=
            ⟨w.next, newID d.nets id, name, ⟨range, [], List.replicate (width range) .Standard⟩⟩
          let created := w.modifyDesign k (fun d => { d with nets := d.nets.add entry })
          .done { created with next := w.next + 1 }

def createInstance (k model : Nat) (id : Option Nat) (name : String) : Outcome :=
  match w.designs[k]?, w.designs[model]? with
  | some d, some m =>
      if d.isPrimitive then .thrown .primitiveDesign w
      else match checkCreate d.instances id name with
        | .error reason => .thrown reason w
        | .ok () =>
            let entry : Entry InstData :=
              ⟨w.next, newID d.instances id, name, ⟨model, m.getBitTerms.map some, []⟩⟩
            let created := w.modifyDesign k (fun d => { d with instances := d.instances.add entry })
            .done { created with next := w.next + 1 }
  | _, _ => .thrown .nullDesign w

def createParameter (k : Nat) (parameter : Parameter) : Outcome :=
  match w.designs[k]? with
  | none => .undefined
  | some d =>
      if d.parameters.any (fun p => p.name == parameter.name) then .thrown .nameTaken w
      else .done (w.modifyDesign k (fun d => { d with parameters := d.parameters ++ [parameter] }))

/-- The value an instance gives to a parameter of design `m`. -/
def createInstParameter (k : Nat) (inst : Address) (m : Nat) (parameter : InstParameter) : Outcome :=
  match (w.designs[k]?).bind (fun d => d.instances.entry inst), w.designs[m]? with
  | some i, some model =>
      if ¬ model.parameters.any (fun p => p.name == parameter.name) then .undefined
      else if m ≠ i.data.model then .thrown .incompatibleDesigns w
      else if i.data.parameters.any (fun p => p.name == parameter.name) then .done w
      else
        let give (data : InstData) : InstData := { data with parameters := data.parameters ++ [parameter] }
        .done (w.modifyDesign k (fun d => { d with instances := d.instances.modify inst give }))
  | _, _ => .undefined

/-! ### Names -/

/-- `setName` of an object kept in the index. -/
def setName {α : Type} (r : Index α) (object : Address) (name : String) : Option (Except Refusal (Index α)) :=
  (r.entry object).map (fun e =>
    if e.name = name then .ok r
    else if ¬ name.isEmpty ∧ (r.getByName name).isSome then .error .nameTaken
    else .ok (r.rename e name))

/-- Which index of a design is meant. -/
inductive ObjectKind where
  | term | net | inst
deriving DecidableEq, Repr

def rename (k : Nat) (kind : ObjectKind) (object : Address) (name : String) : Outcome :=
  match w.designs[k]? with
  | none => .undefined
  | some d =>
      let renamed := match kind with
        | .term => (setName d.terms object name).map (Except.map (fun terms => { d with terms := terms }))
        | .net => (setName d.nets object name).map (Except.map (fun nets => { d with nets := nets }))
        | .inst => (setName d.instances object name).map (Except.map (fun insts => { d with instances := insts }))
      match renamed with
      | none => .undefined
      | some (.error reason) => .thrown reason w
      | some (.ok d') => .done (w.setDesign k d')

/-! ### Connections -/

/-- A net argument with the design it belongs to. -/
inductive NetArgument where
  | bit (design : Nat) (n : BitNet)
  | bus (design : Nat) (net : Address)
deriving DecidableEq, Repr

def NetArgument.design : NetArgument → Nat
  | .bit design _ => design
  | .bus design _ => design

/-- `bus->getBit(bit)` of a net; `none` outside of the range and for a destroyed bit. -/
def getNetBit (e : Entry NetData) (bit : Int) : Option BitNet :=
  if bit ∈ e.data.getBits then some ⟨e.object, bit⟩ else none

def getTermBit (e : Entry TermData) (bit : Int) : Option BitTerm :=
  if bit ∈ e.data.getBits then some ⟨e.object, bit⟩ else none

/-- The components a caller can hold. -/
def holdsComponent (d : Design) : Component → Bool
  | .bitTerm b => (d.terms.entry b.term).any (fun e => b.bit ∈ e.data.getBits)
  | .instTerm inst slot => (d.instances.entry inst).any (fun e => (e.data.table[slot]?).join.isSome)

def holdsBitNet (d : Design) (n : BitNet) : Bool := (d.nets.entry n.net).any (fun e => n.bit ∈ e.data.getBits)

/-- `setNet` of one component; without a net it is disconnected. -/
def setComponentNet (k : Nat) (c : Component) (net : Option NetArgument) : Outcome :=
  match w.designs[k]? with
  | none => .undefined
  | some d =>
      if ¬ holdsComponent d c then .undefined
      else match net with
        | none => .done (w.setDesign k (w.setNet d c none))
        | some argument =>
            if argument.design ≠ k then .thrown .incompatibleDesigns w
            else match argument with
              | .bit _ n =>
                  if holdsBitNet d n then .done (w.setDesign k (w.setNet d c (some n)))
                  else .undefined
              | .bus _ net =>
                  match d.nets.entry net with
                  | none => .undefined
                  | some e =>
                      if width e.data.range ≠ 1 then .thrown .busWidth w
                      else .done (w.setDesign k (w.setNet d c (getNetBit e (bitAt e.data.range 0))))

/-- Several components of a design, one after the other. -/
def setNets (d : Design) (pairs : List (Component × Option BitNet)) : Design :=
  pairs.foldl (fun d pair => w.setNet d pair.1 pair.2) d

/-- `setNet` of a bus term. -/
def setBusTermNet (k : Nat) (term : Address) (net : Option NetArgument) : Outcome :=
  match w.designs[k]? with
  | none => .undefined
  | some d =>
      match d.terms.entry term with
      | none => .undefined
      | some t =>
          match net with
          | none =>
              .done (w.setDesign k (w.setNets d ((bitsOf t).map (fun b => (.bitTerm b, none)))))
          | some argument =>
              if argument.design ≠ k then .thrown .incompatibleDesigns w
              else match argument with
                | .bit _ n =>
                    if width t.data.range ≠ 1 then .thrown .termWidth w
                    else if ¬ holdsBitNet d n then .undefined
                    else match getTermBit t (bitAt t.data.range 0) with
                      | none => .undefined
                      | some b => .done (w.setDesign k (w.setNet d (.bitTerm b) (some n)))
                | .bus _ net =>
                    match d.nets.entry net with
                    | none => .undefined
                    | some e =>
                        if width t.data.range ≠ width e.data.range then .thrown .termWidth w
                        else
                          let pairs := ((rangeBits t.data.range).zip (rangeBits e.data.range)).filterMap
                            (fun (bit, netBit) => (getTermBit t bit).map (fun b =>
                              (Component.bitTerm b, getNetBit e netBit)))
                          .done (w.setDesign k (w.setNets d pairs))

/-- `setTermsNets`: the terminals are found by flat ID; a failed check leaves the pairs before it
connected. Terms and nets come with their designs. -/
def setTermsNets (k : Nat) (inst : Address) (d : Design) :
    List (Option (Nat × BitTerm) × Option (Nat × BitNet)) → Outcome
  | [] => .done (w.setDesign k d)
  | (none, _) :: _ => .undefined
  | (some (m, b), net) :: rest =>
      match d.instances.entry inst with
      | none => .undefined
      | some i =>
          if i.data.model ≠ m then .thrown .incompatibleTerminal (w.setDesign k d)
          else if net.any (fun n => n.1 != k) then .thrown .incompatibleNet (w.setDesign k d)
          else match ((w.designs[m]?).bind (fun model => model.getFlatID b)).bind
              (fun flatID => (i.data.table[flatID]?).join.map (fun _ => flatID)) with
            | none => .undefined
            | some flatID =>
                if net.all (fun n => holdsBitNet d n.2) then
                  setTermsNets k inst (w.setNet d (.instTerm inst flatID) (net.map Prod.snd)) rest
                else .undefined

/-- `setTermNet` over given bits of a term and of a net. -/
def setTermNet (k : Nat) (inst : Address) (m : Nat) (term : Address) (termBits : List Int)
    (net : Option (Nat × Address)) (netBits : List Int) : Outcome :=
  match w.designs[k]?, (w.designs[m]?).bind (fun model => model.terms.entry term) with
  | some d, some t =>
      let terms := termBits.map (fun bit => (getTermBit t bit).map (fun b => (m, b)))
      match net with
      | none => if terms.length ≠ 1 then .thrown .sizes w else w.setTermsNets k inst d (terms.map (fun b => (b, none)))
      | some (k', net) =>
          match (w.designs[k']?).bind (fun d => d.nets.entry net) with
          | none => .undefined
          | some e =>
              let nets := netBits.map (fun bit => (getNetBit e bit).map (fun n => (k', n)))
              if terms.length ≠ nets.length then .thrown .sizes w else w.setTermsNets k inst d (terms.zip nets)
  | _, _ => .undefined

/-- `setTermNet` of a whole term and a whole net: their bits that are left. -/
def setWholeTermNet (k : Nat) (inst : Address) (m : Nat) (term : Address) (k' : Nat) (net : Address) : Outcome :=
  match (w.designs[m]?).bind (fun model => model.terms.entry term),
      (w.designs[k']?).bind (fun d => d.nets.entry net) with
  | some t, some e =>
      if width t.data.range ≠ width e.data.range then .thrown .termWidth w
      else w.setTermNet k inst m term t.data.getBits (some (k', net)) e.data.getBits
  | _, _ => .undefined

def setNetType (k : Nat) (net : Address) (types : List NetType) : Outcome :=
  match w.designs[k]? with
  | none => .undefined
  | some _ =>
      let retype (data : NetData) : NetData := { data with types := types }
      .done (w.modifyDesign k (fun d => { d with nets := d.nets.modify net retype }))

/-! ### Destruction -/

/-- All components leave a bit net. -/
def disconnect (d : Design) (n : BitNet) : Design :=
  w.setNets d ((d.links.components n).map (fun c => (c, none)))

def destroyNet (k : Nat) (net : Address) : Outcome :=
  match w.designs[k]? with
  | none => .undefined
  | some d =>
      match d.nets.entry net with
      | none => .undefined
      | some e =>
          let cut := (bitNetsOf e).foldl w.disconnect d
          .done (w.setDesign k { cut with nets := cut.nets.remove e })

/-- `destroy` of one bit of a bus net. -/
def destroyNetBit (k : Nat) (n : BitNet) : Outcome :=
  match w.designs[k]? with
  | none => .undefined
  | some d =>
      if ¬ holdsBitNet d n then .undefined
      else
        let cut := w.disconnect d n
        let drop (data : NetData) : NetData := { data with removed := n.bit :: data.removed }
        .done (w.setDesign k { cut with nets := cut.nets.modify n.net drop })

def destroyInstance (k : Nat) (inst : Address) : Outcome :=
  match w.designs[k]? with
  | none => .undefined
  | some d =>
      match d.instances.entry inst with
      | none => .undefined
      | some i =>
          let slots := (List.range i.data.table.length).filter (fun slot => (i.data.table[slot]?).join.isSome)
          let cut := w.setNets d (slots.map (fun slot => (.instTerm inst slot, none)))
          .done (w.setDesign k { cut with instances := cut.instances.remove i })

def destroyParameter (k : Nat) (name : String) : Outcome :=
  match w.designs[k]? with
  | none => .undefined
  | some _ => .done (w.modifyDesign k (fun d => { d with parameters := d.parameters.filter (fun p => p.name != name) }))

/-- `removeInstTerm`: the terminal in the slot of the flat ID is destroyed. -/
def removeInstTerm (inst : Address) (d : Design) (flatID : Nat) : Option Design :=
  match (d.instances.entry inst).bind (fun e => e.data.table[flatID]?) with
  | none => none
  | some none => some d
  | some (some _) =>
      let drop (data : InstData) : InstData := { data with table := data.table.set flatID none }
      let cut := w.setNet d (.instTerm inst flatID) none
      some { cut with instances := cut.instances.modify inst drop }

/-- The terminals at the flat IDs, in all instances of design `m` in one design. -/
def removeTerminals (m : Nat) (flatIDs : List Nat) (d : Design) : Option Design :=
  let slaves := (d.instances.set.filter (fun e => e.data.model == m)).map Entry.object
  slaves.foldlM (fun d inst => flatIDs.foldlM (w.removeInstTerm inst) d) d

/-- The slave instances of design `m` lose the terminals of some of its bits. -/
def removeBits (m : Nat) (d : Design) (bits : List BitTerm) : Option (List Design) :=
  if d.isPrimitive then some w.designs
  else w.designs.mapM (w.removeTerminals m (bits.filterMap d.getFlatID))

/-- `destroy` of a term: its bits leave their nets, its terminals go, and so does its entry. -/
def destroyTerm (m : Nat) (term : Address) : Outcome :=
  match w.designs[m]? with
  | none => .undefined
  | some d =>
      match d.terms.entry term with
      | none => .undefined
      | some e =>
          let cut := w.setDesign m (w.setNets d ((bitsOf e).map (fun b => (.bitTerm b, none))))
          match cut.removeBits m d (bitsOf e) with
          | none => .undefined
          | some designs =>
              .done { cut with designs := designs.modify m (fun d => { d with terms := d.terms.remove e }) }

/-- `destroy` of one bit of a bus term. -/
def destroyTermBit (m : Nat) (b : BitTerm) : Outcome :=
  match w.designs[m]? with
  | none => .undefined
  | some d =>
      if ¬ holdsComponent d (.bitTerm b) then .undefined
      else
        let cut := w.setDesign m (w.setNet d (.bitTerm b) none)
        let drop (data : TermData) : TermData := { data with removed := b.bit :: data.removed }
        match cut.removeBits m d [b] with
        | none => .undefined
        | some designs =>
            .done { cut with designs := designs.modify m (fun d => { d with terms := d.terms.modify b.term drop }) }

/-! ### The model of an instance -/

/-- The checks of `setModel` on a term of the current and one of the new model. -/
def checkTerms (current new : Entry TermData) : Except Refusal Unit :=
  if current.name.isEmpty ≠ new.name.isEmpty then .error .anonymous
  else if ¬ current.name.isEmpty ∧ current.name ≠ new.name then .error .termName
  else if current.id ≠ new.id then .error .termID
  else if current.data.direction ≠ new.data.direction then .error .termDirection
  else match current.data.range, new.data.range with
    | some bus, some newBus => if bus ≠ newBus then .error .busBits else .ok ()
    | none, none => .ok ()
    | _, _ => .error .termType

def checkParameters (current new : Parameter) : Except Refusal Unit :=
  if current.name ≠ new.name then .error .parameterName
  else if current.type ≠ new.type then .error .parameterType
  else .ok ()

/-- The loop over the terminals: each moves to the bit that stands at the same place in the new model,
which may have lost it. A terminal of an unknown bit stops the loop. -/
def remapTable (current new : List (Entry TermData)) : List (Option BitTerm) → List (Option BitTerm) × Bool
  | [] => ([], true)
  | none :: rest =>
      let (later, all) := remapTable current new rest
      (none :: later, all)
  | some b :: rest =>
      match (current.zip new).find? (fun pair => b ∈ bitsOf pair.1) with
      | none => (some b :: rest, false)
      | some pair =>
          let (later, all) := remapTable current new rest
          (some ⟨pair.2.object, b.bit⟩ :: later, all)

def setModel (k : Nat) (inst : Address) (model : Nat) : Outcome :=
  match (w.designs[k]?).bind (fun d => d.instances.entry inst) with
  | none => .undefined
  | some i =>
      if i.data.model = model then .done w
      else match w.designs[i.data.model]?, w.designs[model]? with
        | some current, some new =>
            if current.terms.set.length ≠ new.terms.set.length then .thrown .termCount w
            else match (current.terms.set.zip new.terms.set).mapM (fun (t, t') => checkTerms t t') with
              | .error reason => .thrown reason w
              | .ok _ =>
                  if current.parameters.length ≠ new.parameters.length then .thrown .parameterCount w
                  else match (current.parameters.zip new.parameters).mapM (fun (p, p') => checkParameters p p') with
                    | .error reason => .thrown reason w
                    | .ok _ =>
                        let (table, all) := remapTable current.terms.set new.terms.set i.data.table
                        let remapped (data : InstData) : InstData := { data with table := table }
                        let moved := w.modifyDesign k (fun d => { d with instances := d.instances.modify inst remapped })
                        if ¬ all then .thrown .termNotFound moved
                        else if ¬ i.data.parameters.all (fun p => current.parameters.any (fun q => q.name == p.name)) then
                          .thrown .parameterNotFound moved
                        else
                          let rebound (data : InstData) : InstData := { data with model := model, table := table }
                          .done (w.modifyDesign k (fun d => { d with instances := d.instances.modify inst rebound }))
        | _, _ => .undefined

end World

end Naja.Netlist
