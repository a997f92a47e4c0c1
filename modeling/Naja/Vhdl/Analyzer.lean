import Naja.Vhdl.CheckExpression

/-! The analysis of a design file: context clauses, generics, ports, signals,
instantiations, assignments and clocked processes. The result is only ever added
to, so that it is the concatenation of the reports of its parts. -/

namespace Naja.Vhdl.Analyzer

structure UseClause where
  selectedName : List Name
  span : SourceSpan

/-- The library clauses are read for their names only. -/
structure ContextClause where
  libraries : List (List Name)
  uses : List UseClause

structure PortDeclaration where
  names : List Name
  type : TypeMark
  span : SourceSpan
  defaultValue : Option Expression

structure GenericDeclaration where
  names : List Name
  type : TypeMark
  defaultValue : Option Expression

structure ObjectDeclaration where
  names : List Name
  type : TypeMark
  span : SourceSpan
  initializer : Option Expression

structure Assignment extends Vhdl.Assignment where
  selector : Option Expression

structure ClockedProcess where
  sensitivity : Name
  eventSignal : Name
  levelSignal : Name
  assignments : List Assignment
  declarations : List ObjectDeclaration
  enableSignal : Option Name
  resetSignal : Option Name
  resetAssignments : List Assignment
  span : SourceSpan
  sensitivityList : List Name
  combinational : Bool

structure EntityDeclaration where
  name : Name
  generics : List GenericDeclaration
  ports : List PortDeclaration
  context : ContextClause

structure GenericAssociation where
  formal : Option Name
  actual : Expression
  span : SourceSpan

structure EntityInstantiation where
  label : Name
  library : Name
  entity : Name
  generics : List GenericAssociation
  actuals : List Name
  span : SourceSpan
  formals : List (Option Name)
  component : Bool
  actualIndices : List (List Expression)
  actualLiterals : List (Option Expression)
  actualOpen : List Bool

/-- Of the declarations the analyzer does not support only their presence is read. -/
structure ArchitectureBody where
  name : Name
  entity : Name
  assignments : List Assignment
  processes : List ClockedProcess
  signals : List ObjectDeclaration
  instantiations : List EntityInstantiation
  span : SourceSpan
  context : ContextClause
  hasFunctions : Bool
  hasEnumerationTypes : Bool
  hasRecordTypes : Bool
  hasConstants : Bool
  hasGenerates : Bool
  hasComponents : Bool

/-- The packages are read for their names only. -/
structure DesignFile where
  packages : List Name
  entities : List EntityDeclaration
  architectures : List ArchitectureBody

/-- Where an assigned value stands in the design file. -/
inductive Place where
  | concurrent (architecture index : Nat)
  | clocked (architecture process index : Nat)
  | reset (architecture process index : Nat)
deriving DecidableEq, Repr

inductive TypePlace where
  | port (entity index : Nat)
  | signal (architecture index : Nat)
deriving DecidableEq, Repr

/-- What the analysis reports: diagnostics, the types of the assigned values, the ranges of the
declarations, and the generic values and port ranges of the instantiations. -/
structure Report where
  diagnostics : List Diagnostic
  expressions : List (Place × Annotation)
  resolvedTypeRanges : List (TypePlace × DiscreteRange)
  genericValues : List ((Nat × Nat) × GenericValues)
  specializedTypeRanges : List ((Nat × Nat × Nat) × DiscreteRange)

namespace Report

def empty : Report := ⟨[], [], [], [], []⟩

def append (a b : Report) : Report :=
  ⟨a.diagnostics ++ b.diagnostics, a.expressions ++ b.expressions, a.resolvedTypeRanges ++ b.resolvedTypeRanges,
    a.genericValues ++ b.genericValues, a.specializedTypeRanges ++ b.specializedTypeRanges⟩

instance : Append Report := ⟨append⟩

def diagnose (message : String) (span : SourceSpan) : Report := { empty with diagnostics := [⟨message, span⟩] }

/-- A diagnostic under a condition. -/
def diagnoseIf (condition : Bool) (message : String) (span : SourceSpan) : Report :=
  if condition then diagnose message span else empty

def concat (reports : List Report) : Report := reports.foldr append empty

end Report

open Report

/-! ### Contexts and generics -/

/-- One use clause: the visibility it gives. -/
def analyzeUse (libraries : List String) (clause : UseClause) : (Visibility → Visibility) × Report :=
  match clause.selectedName with
  | [libraryName, packageName, last] =>
      if key last ≠ "all" then (id, diagnose "only whole-package use clauses are supported" clause.span)
      else if ¬ libraries.contains (key libraryName) then
        (id, diagnose ("use clause names library '" ++ libraryName.spelling ++ "' without a matching library clause")
          libraryName.span)
      else if key libraryName ≠ "ieee" then
        (id, diagnose "package imports are currently supported only from library 'ieee'" libraryName.span)
      else if key packageName = "std_logic_1164" then (fun v => { v with stdLogic1164 := true }, empty)
      else if key packageName = "numeric_std" then (fun v => { v with numericStd := true }, empty)
      else if key packageName = "math_real" then (id, empty)
      else (id, diagnose ("unsupported IEEE package '" ++ packageName.spelling ++ "'") packageName.span)
  | _ => (id, diagnose "only whole-package use clauses are supported" clause.span)

def analyzeContext (context : ContextClause) : Visibility × Report :=
  let libraries := ["std", "work"] ++ (context.libraries.flatMap (fun names => names.map key))
  let clauses := context.uses.map (analyzeUse libraries)
  (clauses.foldl (fun visibility clause => clause.1 visibility) ⟨false, false⟩, concat (clauses.map Prod.snd))

/-- The value is outside the subtype of the generic. -/
def outsideSubtype (type : TypeMark) (value : Int64) : Bool :=
  (type.name.canonical == "natural" && decide (value < 0)) || (type.name.canonical == "positive" && decide (value ≤ 0))

/-- The loop over the generics of an entity. -/
structure Generics where
  values : GenericValues
  names : List String
  report : Report

namespace Generics

def declareName (generic : GenericDeclaration) (s : Generics) (name : Name) : Generics :=
  if s.names.contains (key name) then
    { s with report := s.report ++ diagnose ("duplicate generic declaration '" ++ name.spelling ++ "'") name.span }
  else
    let named := { s with names := key name :: s.names }
    match generic.defaultValue with
    | none => named
    | some defaultValue =>
        match evaluateInteger s.values defaultValue with
        | none =>
            { named with report := s.report ++ diagnose ("generic default for '" ++ name.spelling ++
              "' is not a locally static integer expression") defaultValue.span }
        | some value =>
            if outsideSubtype generic.type value then
              { named with report := s.report ++ diagnose ("generic default for '" ++ name.spelling ++
                "' is outside its subtype") defaultValue.span }
            else { named with values := s.values ++ [(key name, value)] }

def declare (visibility : Visibility) (s : Generics) (generic : GenericDeclaration) : Generics :=
  let kind := (declarationType generic.type visibility []).kind
  let report := s.report ++
    diagnoseIf (!kind.isInteger) "entity generics currently require integer, natural, or positive type"
      generic.type.name.span
  generic.names.foldl (declareName generic) { s with report := report }

end Generics

def analyzeGenerics (visibility : Visibility) (generics : List GenericDeclaration) : Generics :=
  generics.foldl (Generics.declare visibility) ⟨[], [], empty⟩

/-! ### Entities -/

structure EntityInfo where
  declaration : EntityDeclaration
  visibility : Visibility
  defaults : GenericValues

/-- Names that are taken when they are declared are reported. -/
def duplicates (message : String → String) : List String → List Name → Report
  | _, [] => empty
  | taken, name :: rest =>
      diagnoseIf (taken.contains (key name)) (message name.spelling) name.span ++
        duplicates message (key name :: taken) rest

def unsupportedType (type : TypeMark) (checked : CheckedType) : Report :=
  diagnoseIf (checked.kind == .Unknown) ("unsupported or invisible type mark '" ++ type.name.spelling ++ "'")
    type.name.span

def recordRange (place : TypePlace) (checked : CheckedType) : Report :=
  match checked.range with
  | none => empty
  | some range => { empty with resolvedTypeRanges := [(place, range)] }

def analyzePort (visibility : Visibility) (defaults : GenericValues) (entity index : Nat) (port : PortDeclaration) :
    Report :=
  let checked := declarationType port.type visibility defaults
  unsupportedType port.type checked ++ recordRange (.port entity index) checked

def entityInfo (entity : EntityDeclaration) : EntityInfo :=
  let visibility := (analyzeContext entity.context).1
  ⟨entity, visibility, (analyzeGenerics visibility entity.generics).values⟩

def analyzeEntity (earlier : List EntityDeclaration) (index : Nat) (entity : EntityDeclaration) : Report :=
  let info := entityInfo entity
  let generics := analyzeGenerics info.visibility entity.generics
  concat (entity.ports.map (fun port =>
      diagnoseIf port.defaultValue.isSome "port defaults require RTL elaboration" port.span)) ++
    (analyzeContext entity.context).2 ++
    diagnoseIf (earlier.any (fun other => key other.name == key entity.name))
      ("duplicate entity declaration '" ++ entity.name.spelling ++ "'") entity.name.span ++
    generics.report ++
    concat (entity.ports.mapIdx (analyzePort info.visibility info.defaults index)) ++
    duplicates (fun spelling => "duplicate port declaration '" ++ spelling ++ "'") generics.names
      (entity.ports.flatMap PortDeclaration.names)

def analyzeEntities : List EntityDeclaration → List EntityDeclaration → Report
  | _, [] => empty
  | earlier, entity :: rest =>
      analyzeEntity earlier earlier.length entity ++ analyzeEntities (earlier ++ [entity]) rest

/-- The first entity of a name. -/
def findEntity (entities : List EntityDeclaration) (name : Name) : Option EntityInfo :=
  (entities.find? (fun entity => key entity.name == key name)).map entityInfo

/-! ### Scopes -/

/-- A declared name with its type mark, and the generic values its range is resolved with. -/
structure Object where
  name : String
  type : TypeMark
  visibility : Visibility
  values : GenericValues

def Object.checkedType (object : Object) : CheckedType :=
  declarationType object.type object.visibility object.values

def objectsOf (names : List Name) (type : TypeMark) (visibility : Visibility) (values : GenericValues) : List Object :=
  names.map (fun name => ⟨key name, type, visibility, values⟩)

/-- `declarations.emplace`: the first declaration of a name stays. -/
def emplace (declarations : Declarations) (object : Object) : Declarations :=
  if (declarations.lookup object.name).isSome then declarations
  else declarations ++ [(object.name, object.checkedType)]

def declareAll (declarations : Declarations) (objects : List Object) : Declarations :=
  objects.foldl emplace declarations

/-- The generics and ports of the entity of an architecture. -/
def entityObjects (info : EntityInfo) : List Object :=
  info.declaration.generics.flatMap (fun generic => objectsOf generic.names generic.type info.visibility []) ++
    info.declaration.ports.flatMap (fun port => objectsOf port.names port.type info.visibility info.defaults)

def signalObjects (info : EntityInfo) (architecture : ArchitectureBody) : List Object :=
  architecture.signals.flatMap (fun signal =>
    objectsOf signal.names signal.type (analyzeContext architecture.context).1 info.defaults)

/-- The objects in the scope of the concurrent statements. -/
def architectureObjects (info : EntityInfo) (architecture : ArchitectureBody) : List Object :=
  entityObjects info ++ signalObjects info architecture

/-- The variables of a process; their ranges are resolved without generic values. -/
def variableObjects (architecture : ArchitectureBody) (process : ClockedProcess) : List Object :=
  process.declarations.flatMap (fun declaration =>
    objectsOf declaration.names declaration.type (analyzeContext architecture.context).1 [])

def analyzeSignals (info : EntityInfo) (index : Nat) (architecture : ArchitectureBody) : Report :=
  concat (architecture.signals.mapIdx (fun place signal =>
      let checked := declarationType signal.type (analyzeContext architecture.context).1 info.defaults
      diagnoseIf signal.initializer.isSome "signal initialization requires RTL elaboration" signal.span ++
        unsupportedType signal.type checked ++ recordRange (.signal index place) checked)) ++
    duplicates (fun spelling => "duplicate signal declaration '" ++ spelling ++ "'")
      ((entityObjects info).map Object.name) (architecture.signals.flatMap ObjectDeclaration.names)

/-! ### Instantiations -/

/-- The loop that sorts the generic associations into named and positional ones. -/
structure Associations where
  named : List (String × GenericAssociation)
  positional : List GenericAssociation
  sawNamed : Bool
  report : Report

def associate (s : Associations) (association : GenericAssociation) : Associations :=
  match association.formal with
  | some formal =>
      let twice := (s.named.lookup (key formal)).isSome
      let report := s.report ++
        diagnoseIf twice ("duplicate generic association for '" ++ formal.spelling ++ "'") formal.span
      { s with sawNamed := true, report, named := if twice then s.named else s.named ++ [(key formal, association)] }
  | none =>
      let report := s.report ++
        diagnoseIf s.sawNamed "positional generic association cannot follow a named association" association.span
      { s with report, positional := s.positional ++ [association] }

def sortAssociations (associations : List GenericAssociation) : Associations :=
  associations.foldl associate ⟨[], [], false, empty⟩

/-- A generic of the model with the association it gets: by its name, else the next positional one. -/
structure Binding where
  generic : GenericDeclaration
  name : Name
  association : Option GenericAssociation

/-- The associations of the generics in order, and the positional ones that are left. -/
def bindGenerics (named : List (String × GenericAssociation)) :
    List (GenericDeclaration × Name) → List GenericAssociation → List Binding × List GenericAssociation
  | [], positional => ([], positional)
  | (generic, name) :: rest, positional =>
      match named.lookup (key name) with
      | some association =>
          let (bindings, left) := bindGenerics named rest positional
          (⟨generic, name, some association⟩ :: bindings, left)
      | none =>
          match positional with
          | [] =>
              let (bindings, left) := bindGenerics named rest []
              (⟨generic, name, none⟩ :: bindings, left)
          | first :: others =>
              let (bindings, left) := bindGenerics named rest others
              (⟨generic, name, some first⟩ :: bindings, left)

/-- The value of one generic: the actual is evaluated in the architecture, a default with the values
of the generics before it. -/
def bindValue (architectureValues values : GenericValues) (binding : Binding) : Option Int64 × SourceSpan :=
  match binding.association with
  | some association => (evaluateInteger architectureValues association.actual, association.actual.span)
  | none =>
      match binding.generic.defaultValue with
      | some defaultValue => (evaluateInteger values defaultValue, defaultValue.span)
      | none => (none, binding.name.span)

def bindOne (architectureValues : GenericValues) (s : GenericValues × Report) (binding : Binding) :
    GenericValues × Report :=
  match bindValue architectureValues s.1 binding with
  | (none, span) => (s.1, s.2 ++ diagnose ("generic '" ++ binding.name.spelling ++
      "' requires a locally static integer actual or default") span)
  | (some value, span) =>
      if outsideSubtype binding.generic.type value then
        (s.1, s.2 ++ diagnose ("generic actual for '" ++ binding.name.spelling ++ "' is outside its subtype") span)
      else if (s.1.lookup (key binding.name)).isSome then s
      else (s.1 ++ [(key binding.name, value)], s.2)

def modelGenerics (model : EntityDeclaration) : List (GenericDeclaration × Name) :=
  model.generics.flatMap (fun generic => generic.names.map (fun name => (generic, name)))

def bindings (model : EntityDeclaration) (instantiation : EntityInstantiation) :
    List Binding × List GenericAssociation :=
  let associations := sortAssociations instantiation.generics
  bindGenerics associations.named (modelGenerics model) associations.positional

/-- The generic values of an instance. -/
def instanceValues (architectureValues : GenericValues) (model : EntityDeclaration)
    (instantiation : EntityInstantiation) : GenericValues × Report :=
  (bindings model instantiation).1.foldl (bindOne architectureValues) ([], empty)

/-- The ports of the model as formals, with the types the instance gives them. -/
def formals (model : EntityInfo) (values : GenericValues) : List (Name × Object) :=
  model.declaration.ports.flatMap (fun port =>
    port.names.map (fun name => (name, ⟨key name, port.type, model.visibility, values⟩)))

def checkActual (declarations : Declarations) (formal : Name × Object) (actual : Name) : Report :=
  match declarations.lookup (key actual) with
  | none => diagnose ("no declaration for port-map actual '" ++ actual.spelling ++ "'") actual.span
  | some type =>
      diagnoseIf (!compatible formal.2.checkedType type)
        ("port-map type mismatch for formal '" ++ formal.1.spelling ++ "'") actual.span

/-- The checks of an instance once its model is known. -/
def analyzeModel (declarations : Declarations) (architectureValues : GenericValues) (architecture index : Nat)
    (model : EntityInfo) (instantiation : EntityInstantiation) : Report :=
  let associations := sortAssociations instantiation.generics
  let (values, reported) := instanceValues architectureValues model.declaration instantiation
  let names := (modelGenerics model.declaration).map (fun generic => key generic.2)
  let ports := formals model values
  associations.report ++ reported ++
    diagnoseIf (!(bindings model.declaration instantiation).2.isEmpty)
      ("too many positional generic actuals for entity '" ++ instantiation.entity.spelling ++ "'")
      instantiation.span ++
    concat (associations.named.map (fun (name, association) =>
      match association.formal with
      | none => empty
      | some formal =>
          diagnoseIf (!names.contains name) ("no generic named '" ++ formal.spelling ++ "' on entity '" ++
            instantiation.entity.spelling ++ "'") formal.span)) ++
    { empty with genericValues := [((architecture, index), values)] } ++
    concat (model.declaration.ports.mapIdx (fun place port =>
      match (declarationType port.type model.visibility values).range with
      | none => empty
      | some range => { empty with specializedTypeRanges := [((architecture, index, place), range)] })) ++
    if ports.length ≠ instantiation.actuals.length then
      diagnose ("port map for entity '" ++ instantiation.entity.spelling ++ "' has " ++
        toString instantiation.actuals.length ++ " actuals but " ++ toString ports.length ++ " are required")
        instantiation.span
    else concat (List.zipWith (checkActual declarations) ports instantiation.actuals)

def analyzeInstantiation (entities : List EntityDeclaration) (declarations : Declarations)
    (architectureValues : GenericValues) (architecture index : Nat) (instantiation : EntityInstantiation) : Report :=
  if key instantiation.library ≠ "work" then
    diagnose "only direct entity instantiation from library 'work' is supported" instantiation.library.span
  else
    match findEntity entities instantiation.entity with
    | none =>
        diagnose ("no entity declaration for instantiated entity '" ++ instantiation.entity.spelling ++ "'")
          instantiation.entity.span
    | some model => analyzeModel declarations architectureValues architecture index model instantiation

/-- What an instance has beyond positional names. -/
def needsElaboration (instantiation : EntityInstantiation) : Bool :=
  instantiation.actualOpen.any id || instantiation.actualLiterals.any Option.isSome ||
    instantiation.actualIndices.any (fun indices => !indices.isEmpty) || instantiation.component ||
    instantiation.formals.any Option.isSome

/-! ### Assignments and processes -/

def typeMismatch (target value : CheckedType) (span : SourceSpan) : Report :=
  diagnoseIf (target.kind != .Unknown && value.kind != .Unknown && !compatible target value)
    ("assignment type mismatch: target is '" ++ typeName target.kind ++ "' but value is '" ++
      typeName value.kind ++ "'") span

/-- The check of a value, recorded at its place. -/
def checkValue (declarations : Declarations) (visibility : Visibility) (place : Place) (expected : CheckedType)
    (value : Expression) : Option (CheckedType × Report) := do
  let ( annotation, diagnostics) ← checkExpression declarations visibility expected value
  return ( annotation.type, { empty with diagnostics := diagnostics, expressions := [(place, annotation)] })

def checkAssignment (declarations : Declarations) (visibility : Visibility) (place : Place)
    (assignment : Assignment) : Option Report :=
  if assignment.selector.isSome then some (diagnose "selected assignments require RTL elaboration" assignment.span)
  else if ¬ assignment.indices.isEmpty then
    some (diagnose "indexed assignments require RTL elaboration" assignment.span)
  else
    match declarations.lookup (key assignment.target) with
    | none => do
        let (_, reported) ← checkValue declarations visibility place .unknown assignment.value
        return diagnose ("no declaration for assignment target '" ++ assignment.target.spelling ++ "'")
          assignment.target.span ++ reported
    | some target => do
        let (value, reported) ← checkValue declarations visibility place target assignment.value
        return reported ++ typeMismatch target value assignment.span

def checkProcessAssignment (declarations : Declarations) (declared : List String) (visibility : Visibility)
    (place : Place) (assignment : Assignment) : Option Report :=
  if ¬ assignment.indices.isEmpty then
    some (diagnose "indexed assignments require RTL elaboration" assignment.span)
  else do
    let target := declarations.lookup (key assignment.target)
    let expected := target.getD .unknown
    let (value, reported) ← checkValue declarations visibility place expected assignment.value
    let found := match target with
      | none => diagnose ("no declaration for assignment target '" ++ assignment.target.spelling ++ "'")
          assignment.target.span
      | some _ =>
          diagnoseIf ((assignment.kind == .Variable) != declared.contains (key assignment.target))
            ("assignment operator does not match object class for '" ++ assignment.target.spelling ++ "'")
            assignment.target.span
    return found ++ reported ++ typeMismatch expected value assignment.span

/-- A name that has to be declared with a scalar logic type. -/
def checkLogicName (role : String) (declarations : Declarations) (name : Name) : Report :=
  match declarations.lookup (key name) with
  | none => diagnose ("no declaration for " ++ role ++ " name '" ++ name.spelling ++ "'") name.span
  | some type =>
      diagnoseIf (type.kind != .Bit && type.kind != .StdLogic)
        (role ++ " name must have scalar logic type: '" ++ name.spelling ++ "'") name.span

def checkLogicNames (declarations : Declarations) (process : ClockedProcess) : Report :=
  concat ([process.sensitivity, process.eventSignal, process.levelSignal].map (checkLogicName "clock" declarations)) ++
    concat (process.enableSignal.toList.map (checkLogicName "enable" declarations)) ++
    concat (process.resetSignal.toList.map (checkLogicName "reset" declarations))

def analyzeVariables (visibility : Visibility) (declarations : Declarations) (process : ClockedProcess) : Report :=
  let names := process.declarations.flatMap ObjectDeclaration.names
  concat (process.declarations.map (fun declaration =>
      unsupportedType declaration.type (declarationType declaration.type visibility []))) ++
    duplicates (fun spelling => "duplicate variable declaration '" ++ spelling ++ "'") [] names ++
    concat (names.map (fun name =>
      diagnoseIf (declarations.lookup (key name)).isSome
        ("variable shadowing is not supported: '" ++ name.spelling ++ "'") name.span))

def analyzeProcess (declarations : Declarations) (architecture : ArchitectureBody) (index place : Nat)
    (process : ClockedProcess) : Option Report := do
  if process.combinational ∨ ¬ process.sensitivityList.isEmpty then
    return diagnose "structured processes require RTL elaboration" process.span
  else
    let visibility := (analyzeContext architecture.context).1
    let scope := declareAll declarations (variableObjects architecture process)
    let declared := (process.declarations.flatMap ObjectDeclaration.names).map key
    let assigned ← (process.assignments.mapIdx (fun i assignment =>
      checkProcessAssignment scope declared visibility (.clocked index place i) assignment)).mapM id
    let reset ← (process.resetAssignments.mapIdx (fun i assignment =>
      checkProcessAssignment scope declared visibility (.reset index place i) assignment)).mapM id
    return analyzeVariables visibility declarations process ++ checkLogicNames declarations process ++
      concat assigned ++ concat reset

/-! ### Architectures -/

def unsupportedParts (architecture : ArchitectureBody) : Report :=
  diagnoseIf architecture.hasFunctions "architecture functions require RTL elaboration" architecture.span ++
    diagnoseIf architecture.hasEnumerationTypes "enumerated types require RTL elaboration" architecture.span ++
    diagnoseIf architecture.hasRecordTypes "record types require RTL elaboration" architecture.span ++
    diagnoseIf architecture.hasConstants "architecture constants require RTL elaboration" architecture.span ++
    diagnoseIf architecture.hasGenerates "generate statements require RTL elaboration" architecture.span ++
    concat (architecture.instantiations.map (fun instantiation =>
      diagnoseIf (needsElaboration instantiation) "named/component binding requires RTL elaboration"
        instantiation.span))

/-- The statements of an architecture once its entity is known. -/
def analyzeBody (entities : List EntityDeclaration) (index : Nat) (info : EntityInfo)
    (architecture : ArchitectureBody) : Option Report := do
  let visibility := (analyzeContext architecture.context).1
  let declarations := declareAll [] (architectureObjects info architecture)
  let assigned ← (architecture.assignments.mapIdx (fun i assignment =>
    checkAssignment declarations visibility (.concurrent index i) assignment)).mapM id
  let processes ← (architecture.processes.mapIdx (fun i process =>
    analyzeProcess declarations architecture index i process)).mapM id
  return analyzeSignals info index architecture ++
    duplicates (fun spelling => "duplicate instance label '" ++ spelling ++ "'") []
      (architecture.instantiations.map EntityInstantiation.label) ++
    concat (architecture.instantiations.mapIdx (fun i instantiation =>
      analyzeInstantiation entities declarations info.defaults index i instantiation)) ++
    concat assigned ++ concat processes

def analyzeArchitecture (entities : List EntityDeclaration) (earlier : List ArchitectureBody) (index : Nat)
    (architecture : ArchitectureBody) : Option Report := do
  let context := (analyzeContext architecture.context).2 ++
    diagnoseIf architecture.hasComponents "local components require RTL elaboration" architecture.span
  match findEntity entities architecture.entity with
  | none =>
      return context ++ diagnose ("no entity declaration for '" ++ architecture.entity.spelling ++ "'")
        architecture.entity.span
  | some info => do
      let body ← analyzeBody entities index info architecture
      let twice := earlier.any (fun other =>
        key other.entity == key architecture.entity && key other.name == key architecture.name)
      return context ++ diagnoseIf twice ("duplicate architecture '" ++ architecture.name.spelling ++
        "' for entity '" ++ architecture.entity.spelling ++ "'") architecture.name.span ++ body

def analyze (file : DesignFile) : Option Report := do
  let architectures ← (file.architectures.mapIdx (fun i architecture =>
    analyzeArchitecture file.entities (file.architectures.take i) i architecture)).mapM id
  return concat (file.packages.map (fun name => diagnose "packages require RTL elaboration" name.span)) ++
    concat (file.architectures.map unsupportedParts) ++ analyzeEntities [] file.entities ++ concat architectures

end Naja.Vhdl.Analyzer
