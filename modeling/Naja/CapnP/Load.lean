import Naja.CapnP.Message
import Naja.TruthTable.LibraryTables
import Mathlib.Data.String.Basic

/-! How a database is read from the two messages of a snapshot: every object is
created with the checks of its kind, and references are resolved in the databases in
memory. The first exception ends the loading. -/

namespace Naja.CapnP
open Naja.Primitives (Direction)
open Naja.Netlist (Parameter InstParameter NetType DesignType rangeBits)
open Naja.Registry

inductive PrimitiveConflictPolicy where
  | PreferExisting | ForbidConflicts
deriving DecidableEq, Repr

/-- The reasons of exceptions. -/
inductive LoadError where
  | libraryName | libraryType | libraryID | primitivesLoaded | truthTables
  | designType | designName | designID | parameterName | termName | termID
  | topDesign | topDesignDB | noDB | noLibrary | noDesign
  | noModel | primitiveDesign | instanceName | instanceID | instParameter
  | netName | netID | noNetBit | noTerm | noTermBit | noInstance
deriving DecidableEq, Repr

def loadName (name : Option String) : String := name.getD ""

/-- The checks of a creation with an ID, and the insertion. -/
def create {α : Type} (id : α → Nat) (name : α → String) (nameTaken idTaken : LoadError) (xs : List α) (x : α) :
    Except LoadError (List α) :=
  if ¬ (name x).isEmpty ∧ xs.any (fun y => name y == name x) then .error nameTaken
  else if xs.any (fun y => id y == id x) then .error idTaken
  else .ok (insertByKey id x xs)

/-! ### The interface -/

def loadTerm (terms : List Term) : TermMessage → Except LoadError (List Term)
  | .scalarTerm id name direction =>
      create Term.id Term.name .termName .termID terms ⟨id, loadName name, direction, none, []⟩
  | .busTerm id name msb lsb direction =>
      create Term.id Term.name .termName .termID terms ⟨id, loadName name, direction, some (msb, lsb), []⟩

def loadDesignParameter (parameters : List Parameter) (p : Parameter) : Except LoadError (List Parameter) :=
  if parameters.any (fun q => q.name == p.name) then .error .parameterName
  else .ok (insertByKey Parameter.name p parameters)

def loadDesignInterface (library : LibraryType) (designs : List Design) (m : DesignInterface) :
    Except LoadError (List Design) := do
  if (m.type = .Primitive) ≠ (library = .Primitives) then throw .designType
  let designs' ← create Design.id Design.name .designName .designID designs
    ⟨m.id, loadName m.name, m.type, none, [], [], [], []⟩
  let parameters ← m.parameters.foldlM loadDesignParameter []
  let terms ← m.terms.foldlM loadTerm []
  return designs'.map (fun d =>
    if d.id = m.id then { d with property := m.property, parameters := parameters, terms := terms } else d)

/-- The design as the readers of truth tables see it. -/
def Design.storage (d : Design) : TruthTable.Storage.Design :=
  { name := d.name
    isPrimitive := d.isPrimitive
    bitTerms := d.terms.flatMap (fun t => (List.range t.getBits.length).map (fun i => ⟨t.id, i, t.direction⟩))
    property := d.property }

/-- Whether the truth tables of a design can be read. -/
def Design.readable (d : Design) : Bool :=
  match TruthTable.LibraryTables.addDesignTruthTable d.storage with
  | .ok _ => true
  | .error _ => false

/-- `NLLibraryTruthTables::construct`, of which only the exceptions are seen here. -/
def construct (library : Library) : Except LoadError Unit :=
  if library.type = .Primitives ∧ ¬ library.flat.all (fun l => l.designs.all Design.readable) then
    .error .truthTables
  else .ok ()

/-- The IDs and names of the libraries in the database so far, at any depth. -/
structure Known where
  ids : List Nat
  names : List String

/-- `NLLibrary::create` in a database, or in a library of the given type beside others. -/
def checkLibrary (parent : Option LibraryType) (siblings : List Library) (known : Known) (id : Nat) (name : String)
    (type : LibraryType) : Except LoadError Unit :=
  match parent with
  | none =>
      if ¬ name.isEmpty ∧ name ∈ known.names then .error .libraryName
      else if id ∈ known.ids then .error .libraryID
      else .ok ()
  | some parentType =>
      if type ≠ parentType then .error .libraryType
      else if ¬ name.isEmpty ∧ siblings.any (fun l => l.name == name) then .error .libraryName
      else if id ∈ known.ids then .error .libraryID
      else .ok ()

section interface
variable (policy : PrimitiveConflictPolicy)

mutual

/-- A library of primitives that is there already may be kept instead. -/
def loadLibraryInterface (parent : Option LibraryType) (siblings : List Library) (known : Known) :
    LibraryInterface → Except LoadError (List Library × Known)
  | .mk id name type designs libraries =>
      if type = .Primitives ∧ id ∈ known.ids then
        match policy with
        | .PreferExisting => .ok (siblings, known)
        | .ForbidConflicts => .error .primitivesLoaded
      else do
        checkLibrary parent siblings known id (loadName name) type
        let loaded ← designs.foldlM (loadDesignInterface type) []
        let (inside, known) ←
          loadLibraryInterfaces (some type) [] ⟨id :: known.ids, loadName name :: known.names⟩ libraries
        let library := Library.mk id (loadName name) type loaded inside
        construct library
        return (insertByKey Library.id library siblings, known)

def loadLibraryInterfaces (parent : Option LibraryType) (siblings : List Library) (known : Known) :
    List LibraryInterface → Except LoadError (List Library × Known)
  | [] => .ok (siblings, known)
  | library :: rest => do
      let (siblings, known) ← loadLibraryInterface parent siblings known library
      loadLibraryInterfaces parent siblings known rest

end

/-- The state with a database put in, or in the place of the one with its ID. -/
def Universe.put (u : Universe) (db : Database) : Universe := db :: u.filter (fun other => other.id != db.id)

/-- For a database that is not number 0, whose models are made by another function. -/
def loadInterface (u : Universe) (m : DBInterface) : Except LoadError Universe := do
  let start := (Universe.getDB u m.id).getD ⟨m.id, [], none⟩
  let known : Known := ⟨start.getGlobalLibraries.map Library.id, start.getGlobalLibraries.map Library.name⟩
  let (libraries, _) ← loadLibraryInterfaces policy none start.libraries known m.libraries
  let db : Database := { start with libraries := libraries }
  match m.topDesignReference with
  | none => return Universe.put u db
  | some reference =>
      match Universe.getSNLDesign (Universe.put u db) reference with
      | none => throw .topDesign
      | some _ =>
          if reference.dbID ≠ m.id then throw .topDesignDB
          else return Universe.put u { db with top := some (reference.libraryID, reference.designID) }

end interface

/-! ### The implementation -/

def loadInstParameter (model : Design) (parameters : List InstParameter) (p : InstParameter) :
    Except LoadError (List InstParameter) :=
  if model.parameters.any (fun q => q.name == p.name) then .ok (insertByKey InstParameter.name p parameters)
  else .error .instParameter

def loadInstance (u : Universe) (d : Design) (m : InstanceMessage) : Except LoadError Design :=
  match Universe.getSNLDesign u m.modelReference with
  | none => .error .noModel
  | some model => do
      if d.isPrimitive then throw .primitiveDesign
      let name := loadName m.name
      let instances ← create Instance.id Instance.name .instanceName .instanceID d.instances
        ⟨m.id, name, m.modelReference, []⟩
      let parameters ← m.instParameters.foldlM (loadInstParameter model) []
      return { d with instances := instances.map (fun i =>
        if i.id = m.id then { i with parameters := parameters } else i) }

/-- The component a reference stands for. -/
def findComponent (u : Universe) (d : Design) : Component → Except LoadError Component
  | .bitTerm term bit =>
      match d.getTerm term with
      | none => .error .noTerm
      | some t =>
          match t.getBit bit with
          | none => .error .noTermBit
          | some bit => .ok (.bitTerm term bit)
  | .instTerm inst term bit =>
      match d.getInstance inst with
      | none => .error .noInstance
      | some i =>
          match (Universe.getSNLDesign u i.model).bind (fun model => model.getTerm term) with
          | none => .error .noTerm
          | some t =>
              match t.getBit bit with
              | none => .error .noTermBit
              | some bit => .ok (.instTerm inst term bit)

/-- The order of the components of a net: kind, ID of the term, ID of the instance, bit. -/
def Component.key : Component → Nat ×ₗ Nat ×ₗ Nat ×ₗ Int
  | .bitTerm term bit => toLex (0, toLex (term, toLex (0, bit)))
  | .instTerm inst term bit => toLex (1, toLex (term, toLex (inst, bit)))

def Net.detach (c : Component) (n : Net) : Net :=
  { n with bits := n.bits.map (Option.map (fun b => { b with components := b.components.filter (fun x => x != c) })) }

def Net.attach (c : Component) (position : Nat) (n : Net) : Net :=
  let join (b : NetBit) : NetBit := { b with components := insertByKey Component.key c b.components }
  { n with bits := n.bits.modify position (Option.map join) }

/-- `setNet`: the component leaves its net and joins bit `position` of another one. -/
def setNet (id position : Nat) (nets : List Net) (c : Component) : List Net :=
  nets.map (fun n => if n.id = id then (n.detach c).attach c position else n.detach c)

def loadComponent (u : Universe) (id position : Nat) (d : Design) (reference : Component) : Except LoadError Design := do
  let c ← findComponent u d reference
  return { d with nets := setNet id position d.nets c }

def Net.setType (position : Nat) (type : NetType) (n : Net) : Net :=
  { n with bits := n.bits.modify position (Option.map (fun b => { b with type := type })) }

def Net.destroyBit (position : Nat) (n : Net) : Net := { n with bits := n.bits.set position none }

def Design.modifyNet (d : Design) (id : Nat) (f : Net → Net) : Design :=
  { d with nets := d.nets.map (fun n => if n.id = id then f n else n) }

/-- A new net, all of whose bits are there. -/
def newNet (id : Nat) (name : String) (range : Option (Int × Int)) : Net :=
  ⟨id, name, range, (rangeBits range).map (fun _ => some ⟨.Standard, []⟩)⟩

def createNet (d : Design) (n : Net) : Except LoadError Design := do
  let nets ← create Net.id Net.name .netName .netID d.nets n
  return { d with nets := nets }

/-- A bit of the net with the given ID and range. -/
def loadBusNetBit (u : Universe) (id : Nat) (range : Int × Int) (d : Design) (m : BusNetBit) : Except LoadError Design :=
  match (rangeBits (some range)).idxOf? m.bit with
  | none => .error .noNetBit
  | some position =>
      if (d.nets.find? (fun n => n.id == id)).any (fun n => (n.bits[position]?).join.isNone) then .error .noNetBit
      else if m.destroyed then .ok (d.modifyNet id (Net.destroyBit position))
      else m.components.foldlM (loadComponent u id position) (d.modifyNet id (Net.setType position m.type))

def loadNet (u : Universe) (d : Design) : NetMessage → Except LoadError Design
  | .scalarNet id name type components => do
      let d ← createNet d (newNet id (loadName name) none)
      components.foldlM (loadComponent u id 0) (d.modifyNet id (Net.setType 0 type))
  | .busNet id name msb lsb bits => do
      let d ← createNet d (newNet id (loadName name) (some (msb, lsb)))
      bits.foldlM (loadBusNetBit u id (msb, lsb)) d

def loadDesignImplementation (u : Universe) (designs : List Design) (m : DesignImplementation) :
    Except LoadError (List Design) :=
  match designs.find? (fun d => d.id == m.id) with
  | none => .error .noDesign
  | some d => do
      let d ← m.instances.foldlM (loadInstance u) d
      let d ← m.nets.foldlM (loadNet u) d
      return designs.map (fun other => if other.id = m.id then d else other)

mutual

/-- The designs of the library with an ID are replaced. -/
def Library.setDesigns (id : Nat) (designs : List Design) : Library → Library
  | .mk id' name type designs' libraries =>
      .mk id' name type (if id' = id then designs else designs') (setDesignsIn id designs libraries)

def setDesignsIn (id : Nat) (designs : List Design) : List Library → List Library
  | [] => []
  | library :: rest => library.setDesigns id designs :: setDesignsIn id designs rest

end

/-- The libraries inside of the library are not looked at. -/
def loadLibraryImplementation (u : Universe) (db : Database) : LibraryImplementation → Except LoadError Database
  | .mk id designs _ =>
      match db.getLibrary id with
      | none => .error .noLibrary
      | some library => do
          let loaded ← designs.foldlM (loadDesignImplementation u) library.designs
          return { db with libraries := setDesignsIn id loaded db.libraries }

/-- Models are found in the databases as their interfaces are; what is loaded here does not change these. -/
def loadImplementation (u : Universe) (m : DBImplementation) : Except LoadError Universe :=
  match Universe.getDB u m.id with
  | none => .error .noDB
  | some db => do
      let db ← m.libraries.foldlM (loadLibraryImplementation u) db
      return Universe.put u db

/-- A snapshot is written and read. -/
def reload (policy : PrimitiveConflictPolicy) (u : Universe) (db : Database) (forceDBID : Nat) :
    Except LoadError Universe := do
  let u ← loadInterface policy u (dumpInterface db forceDBID)
  loadImplementation u (dumpImplementation db forceDBID)

end Naja.CapnP
