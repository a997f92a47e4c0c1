import Naja.TruthTable.SNLTruthTable

/-! Tables and sequential models that depend on the parameters of an instance, and the two
caches in which a design keeps what it found for its instances. Objects are their addresses,
so that the address of a destroyed instance can be that of a later one. -/

namespace Naja.Modeling
open TruthTable BitDependencies

/-! ### Parameter literals -/

def refuseIf (refused : Bool) (reason : String) : Except String Unit := if refused then .error reason else .ok ()

def widthMask (width : Nat) : Nat := if 64 ≤ width then 2 ^ 64 - 1 else 2 ^ width - 1

def digitValue (c : Char) : Option Nat :=
  if '0' ≤ c ∧ c ≤ '9' then some (c.toNat - '0'.toNat)
  else if 'a' ≤ c ∧ c ≤ 'f' then some (c.toNat - 'a'.toNat + 10)
  else none

def parseDigits (base : Nat) (literal : String) : Nat → List Char → Except String Nat
  | value, [] => .ok value
  | value, c :: rest =>
      let lower := c.toLower
      if lower = 'x' ∨ lower = 'z' ∨ lower = '?' then
        .error ("Unknown bits are not supported in truth-table parameter value <" ++ literal ++ ">")
      else
        match digitValue lower with
        | none => .error ("Invalid truth-table parameter value <" ++ literal ++ ">")
        | some digit =>
            if base ≤ digit ∨ (2 ^ 64 - 1 - digit) / base < value then
              .error ("Truth-table parameter value does not fit in 64 bits <" ++ literal ++ ">")
            else parseDigits base literal (value * base + digit) rest

def parseUnsignedDigits (digits : List Char) (base : Nat) (literal : String) : Except String Nat :=
  if digits.isEmpty then .error ("Empty truth-table parameter value <" ++ literal ++ ">")
  else parseDigits base literal 0 digits

def radixOf (c : Char) : Option Nat :=
  match c.toLower with
  | 'b' => some 2
  | 'o' => some 8
  | 'd' => some 10
  | 'h' => some 16
  | _ => none

def isSpace (c : Char) : Bool := c = ' ' ∨ (9 ≤ c.toNat ∧ c.toNat ≤ 13)

/-- What comes after the quote of a literal, without the sign letter. -/
def parseQuoted (literal : String) (width : Option Nat) (contextualWidth : Nat) (rest : List Char) :
    Except String Nat := do
  match rest with
  | [] => .error ("Invalid truth-table parameter value <" ++ literal ++ ">")
  | c :: digits =>
      if digits.isEmpty ∧ ['0', '1', 'x', 'X', 'z', 'Z', '?'].contains c then
        if c ≠ '0' ∧ c ≠ '1' then
          .error ("Unknown bits are not supported in truth-table parameter value <" ++ literal ++ ">")
        else return if c = '1' then widthMask contextualWidth else 0
      else
        match radixOf c with
        | none => .error ("Invalid truth-table parameter radix in <" ++ literal ++ ">")
        | some base =>
            let value ← parseUnsignedDigits digits base literal
            match width with
            | some width => return if width < 64 then value % 2 ^ width else value
            | none => return value

def quote : Char := Char.ofNat 39

def parseTruthTableParameterValue (literal : String) (contextualWidth : Nat) : Except String Nat := do
  let normalized := literal.toList.filter (fun c => c != '_' && !isSpace c)
  if normalized.isEmpty then .error "Empty truth-table parameter value"
  else if normalized.contains quote then
    let front := normalized.takeWhile (· != quote)
    let rest := normalized.drop (front.length + 1)
    let rest := if rest.head? = some 's' ∨ rest.head? = some 'S' then rest.drop 1 else rest
    if front.isEmpty then parseQuoted literal none contextualWidth rest
    else
      let width ← parseUnsignedDigits front 10 literal
      parseQuoted literal (some width) contextualWidth rest
  else if normalized.length > 2 ∧ (normalized.take 2 = ['0', 'x'] ∨ normalized.take 2 = ['0', 'X']) then
    parseUnsignedDigits (normalized.drop 2) 16 literal
  else parseUnsignedDigits normalized 10 literal

def getParameterTruthTableBits (value : String) (inputCount parameterBitOffset : Nat) : Except String Nat := do
  refuseIf (6 < inputCount) "Parameter-derived truth tables support at most 6 inputs"
  let tableBitCount := 2 ^ inputCount
  refuseIf (64 - tableBitCount < parameterBitOffset) "Parameter-derived truth table exceeds the 64-bit parameter range"
  let parameterValue ← parseTruthTableParameterValue value (parameterBitOffset + tableBitCount)
  if tableBitCount = 64 then return parameterValue
  return parameterValue / 2 ^ parameterBitOffset % 2 ^ tableBitCount

/-! ### Designs and instances -/

inductive ParameterType where
  | Decimal | Binary | Boolean | String
deriving DecidableEq, Repr

structure SNLParameter where
  name : String
  type : ParameterType
  value : Option String
deriving DecidableEq, Repr

def SNLParameter.getValue (p : SNLParameter) : Except String String :=
  match p.value with
  | some value => .ok value
  | none => .error ("SNLParameter " ++ p.name ++ " has no default value")

inductive Direction where
  | Input | Output | InOut
deriving DecidableEq, Repr

/-- A scalar term has no range. -/
structure SNLTerm where
  name : Option String
  id : Nat
  direction : Direction
  range : Option (Int × Int)
deriving DecidableEq, Repr

def SNLTerm.width (t : SNLTerm) : Nat :=
  match t.range with
  | none => 1
  | some (msb, lsb) => (msb - lsb).natAbs + 1

structure ParameterTruthTable where
  parameter : SNLParameter
  parameterBitOffset : Nat
  defaultTruthTable : SNLTruthTable

/-- The literals for which an entry of the table was selected, and the key of the entry. -/
structure CachedSequentialModel where
  values : List String
  entry : List Nat

structure SNLDesignModeling (Model : Type) where
  parameterized : Bool
  parameterTruthTables : List (Nat × ParameterTruthTable) := []
  instanceTruthTables : Nat → Nat → Option SNLTruthTable := fun _ _ => none
  sequentialModel : Option Model := none
  sequentialParameters : List String := []
  sequentialModels : List (List Nat × Model) := []
  instanceSequentialModels : Nat → Option CachedSequentialModel := fun _ => none

/-- The table of an output of a memory that is only read, from the parameters of the instance,
and the table of an output of the design are other parts of the library. -/
structure SNLDesign (Model : Type) where
  isPrimitive : Bool
  terms : List SNLTerm
  parameters : List SNLParameter
  readOnlyMemory : List (String × String) → Nat → Option (Except String SNLTruthTable)
  hasTruthTable : Bool
  truthTable : Nat → Except String SNLTruthTable
  modeling : Option (SNLDesignModeling Model)

/-- The set of the instance's parameter objects, under their names. -/
structure SNLInstance where
  model : Nat
  instParameters : List (String × Nat)

structure SNLInstParameter where
  instance_ : Nat
  parameter : String
  value : String

structure World (Model : Type) where
  designs : List (SNLDesign Model)
  instances : Nat → Option SNLInstance
  instParameters : Nat → Option SNLInstParameter

variable {Model : Type}

def SNLDesign.getParameter (d : SNLDesign Model) (name : String) : Option SNLParameter :=
  d.parameters.find? (fun p => p.name == name)

/-- The directions of the bits, by their order IDs. -/
def SNLDesign.bits (d : SNLDesign Model) : List Direction :=
  d.terms.flatMap (fun t => List.replicate t.width t.direction)

namespace World

/-- The values of the parameters of an instance, under their names. -/
def values (w : World Model) (x : SNLInstance) : List (String × String) :=
  x.instParameters.filterMap (fun p => (w.instParameters p.2).map (fun object => (p.1, object.value)))

def modifyModeling (w : World Model) (design : Nat) (f : SNLDesignModeling Model → SNLDesignModeling Model) : World Model :=
  { w with designs := w.designs.modify design (fun d => { d with modeling := d.modeling.map f }) }

def setModeling (w : World Model) (design : Nat) (m : SNLDesignModeling Model) : World Model :=
  { w with designs := w.designs.modify design (fun d => { d with modeling := some m }) }

def setInstance (w : World Model) (i : Nat) (x : Option SNLInstance) : World Model :=
  { w with instances := fun j => if j = i then x else w.instances j }

def setInstParameter (w : World Model) (o : Nat) (p : Option SNLInstParameter) : World Model :=
  { w with instParameters := fun o' => if o' = o then p else w.instParameters o' }

end World

/-! ### Caches -/

def SNLDesignModeling.withTruthTable (m : SNLDesignModeling Model) (i term : Nat) (table : SNLTruthTable) : SNLDesignModeling Model :=
  { m with
    instanceTruthTables := fun i' term' =>
      if i' = i ∧ term' = term then some table else m.instanceTruthTables i' term' }

def SNLDesignModeling.withSequentialModel (m : SNLDesignModeling Model) (i : Nat) (cached : CachedSequentialModel) : SNLDesignModeling Model :=
  { m with instanceSequentialModels := fun i' => if i' = i then some cached else m.instanceSequentialModels i' }

def SNLDesignModeling.forget (m : SNLDesignModeling Model) (i : Nat) : SNLDesignModeling Model :=
  { m with
    instanceTruthTables := fun i' term => if i' = i then none else m.instanceTruthTables i' term
    instanceSequentialModels := fun i' => if i' = i then none else m.instanceSequentialModels i' }

/-- `invalidateTruthTableCache` and `invalidateSequentialModelCache`, through the current model. -/
def World.invalidate (w : World Model) (i : Nat) : World Model :=
  match w.instances i with
  | none => w
  | some x => w.modifyModeling x.model (fun m => m.forget i)

/-- The table of an output from the values of the parameters. -/
def resolveTruthTable (values : List (String × String)) (table : ParameterTruthTable) : Except String SNLTruthTable := do
  let default ← table.parameter.getValue
  let value := (values.lookup table.parameter.name).getD default
  let bits ← getParameterTruthTableBits value table.defaultTruthTable.size table.parameterBitOffset
  SNLTruthTable.ofMask table.defaultTruthTable.size (BitVec.ofNat 64 bits) table.defaultTruthTable.dependencies

/-- `SNLDesignModeling::getTruthTable` of an instance and an output. -/
def World.getTruthTable (w : World Model) (i term : Nat) : Except String SNLTruthTable × World Model :=
  match w.instances i with
  | none => (.error "SNLDesignModeling::getTruthTable: null instance", w)
  | some x =>
      match w.designs[x.model]? with
      | none => (.error "SNLDesignModeling::getTruthTable: null instance", w)
      | some d =>
          match d.readOnlyMemory (w.values x) term with
          | some table => (table, w)
          | none =>
              match d.modeling.bind (fun m => (m.parameterTruthTables.lookup term).map (fun table => (m, table))) with
              | none => (d.truthTable term, w)
              | some (m, table) =>
                  match m.instanceTruthTables i term with
                  | some cached => (.ok cached, w)
                  | none =>
                      match resolveTruthTable (w.values x) table with
                      | .error e => (.error e, w)
                      | .ok resolved => (.ok resolved, w.modifyModeling x.model (fun m => m.withTruthTable i term resolved))

inductive SequentialFailure where
  | noModel
  | missingParameter (name : String)
  | literal (text : String)
  | noMatch (values : List Nat)
  | dangling
deriving DecidableEq, Repr

/-- The literals of the declared parameters: an override of the instance, or the default. -/
def sequentialLiterals (d : SNLDesign Model) (values : List (String × String)) :
    List String → Except SequentialFailure (List String)
  | [] => .ok []
  | name :: rest => do
      match d.getParameter name with
      | none => .error (.missingParameter name)
      | some parameter =>
          match (values.lookup name).or parameter.value with
          | none => .error (.missingParameter name)
          | some literal =>
              let literals ← sequentialLiterals d values rest
              return literal :: literals

def sequentialValues : List String → Except SequentialFailure (List Nat)
  | [] => .ok []
  | literal :: rest => do
      match parseTruthTableParameterValue literal 1 with
      | .error e => .error (.literal e)
      | .ok value =>
          let values ← sequentialValues rest
          return value :: values

def World.getSequentialModel (w : World Model) (i : Nat) : Except SequentialFailure Model × World Model :=
  match w.instances i with
  | none => (.error .noModel, w)
  | some x =>
      match w.designs[x.model]?.bind (fun d => d.modeling.map (fun m => (d, m))) with
      | none => (.error .noModel, w)
      | some (d, m) =>
          if m.sequentialModels.isEmpty then
            match m.sequentialModel with
            | none => (.error .noModel, w)
            | some model => (.ok model, w)
          else
            match sequentialLiterals d (w.values x) m.sequentialParameters with
            | .error e => (.error e, w)
            | .ok literals =>
                match (m.instanceSequentialModels i).filter (fun cached => cached.values == literals) with
                | some cached =>
                    match m.sequentialModels.lookup cached.entry with
                    | none => (.error .dangling, w)
                    | some model => (.ok model, w)
                | none =>
                    match sequentialValues literals with
                    | .error e => (.error e, w)
                    | .ok values =>
                        match m.sequentialModels.lookup values with
                        | none => (.error (.noMatch values), w)
                        | some model =>
                            (.ok model, w.modifyModeling x.model (fun m => m.withSequentialModel i ⟨literals, values⟩))

/-! ### Changes -/

/-- A bit term is a design and an order ID. -/
structure SNLBitTerm where
  design : Nat
  orderID : Nat
deriving DecidableEq, Repr

def checkInputs (design : Nat) (bits : List Direction) : Option Nat → List SNLBitTerm → Except String Unit
  | _, [] => .ok ()
  | last, input :: rest => do
      refuseIf (input.design ≠ design || bits[input.orderID]? = some .Output)
        "Parameter-derived truth table input is not an input of the design"
      refuseIf (last.any (fun last => decide (input.orderID ≤ last)))
        "Parameter-derived truth table inputs must follow design order"
      checkInputs design bits (some input.orderID) rest

def parameterTable (d : SNLDesign Model) (design : Nat) (output : SNLBitTerm) (inputs : List SNLBitTerm)
    (owner : Nat) (parameter : SNLParameter) (offset : Nat) : Except String (SNLDesignModeling Model) := do
  refuseIf (!d.isPrimitive) "Cannot add parameter-derived truth table on non-primitive design"
  refuseIf (output.design ≠ design || d.bits[output.orderID]? = some .Input)
    "Parameter-derived truth table output is not an output of the design"
  refuseIf (owner ≠ design) "Parameter-derived truth table parameter belongs to another design"
  refuseIf (inputs.isEmpty || 6 < inputs.length) "Parameter-derived truth tables require between 1 and 6 inputs"
  refuseIf d.hasTruthTable "Design already has a Truth Table"
  checkInputs design d.bits none inputs
  let default ← parameter.getValue
  let bits ← getParameterTruthTableBits default inputs.length offset
  let table ← SNLTruthTable.ofMask inputs.length (BitVec.ofNat 64 bits) (encodeBits (inputs.map SNLBitTerm.orderID))
  let m := d.modeling.getD { parameterized := false }
  refuseIf m.parameterized "Parameter-derived truth tables require non-parameterized timing arcs"
  refuseIf (m.parameterTruthTables.lookup output.orderID).isSome
    "Design output already has a parameter-derived truth table"
  return { m with parameterTruthTables := (output.orderID, ⟨parameter, offset, table⟩) :: m.parameterTruthTables }

def checkSelectors (d : SNLDesign Model) : List String → List String → Bool
  | _, [] => true
  | seen, name :: rest =>
      (d.getParameter name).any (fun p => decide (p.type ≠ .String)) && !seen.contains name &&
        checkSelectors d (name :: seen) rest

/-- Terms that connect to each other, and parameters that stand for each other, one by one. -/
def compatible (d d' : SNLDesign Model) : Bool :=
  d.terms.map (fun t => (t.name, t.id, t.direction, t.range)) ==
      d'.terms.map (fun t => (t.name, t.id, t.direction, t.range)) &&
    d.parameters.map (fun p => (p.name, p.type)) == d'.parameters.map (fun p => (p.name, p.type))

inductive Operation (Model : Type) where
  | createInstParameter (object i design : Nat) (name value : String)
  | setValue (object : Nat) (value : String)
  | destroyInstParameter (object : Nat)
  | setModel (i design : Nat)
  | createInstance (i design : Nat)
  | destroyInstance (i : Nat)
  | setTruthTableFromParameter (design : Nat) (output : SNLBitTerm) (inputs : List SNLBitTerm) (owner : Nat)
      (name : String) (offset : Nat)
  | setSequentialModelFromParameters (design : Nat) (parameters : List String) (models : List (List Nat × Model))
  | setSequentialModel (design : Nat) (model : Model)
  | getTruthTable (i term : Nat)
  | getSequentialModel (i : Nat)

namespace World

/-- The set keeps the object it has under a name. -/
def createInstParameter (w : World Model) (object i design : Nat) (name value : String) : Option (World Model) := do
  let x ← w.instances i
  let d ← w.designs[design]?
  if (w.instParameters object).isSome ∨ (d.getParameter name).isNone then none
  else if x.model ≠ design then some w
  else
    let linked := if (x.instParameters.lookup name).isSome then x.instParameters else x.instParameters ++ [(name, object)]
    some (((w.setInstParameter object (some ⟨i, name, value⟩)).setInstance i (some { x with instParameters := linked })).invalidate i)

def setValue (w : World Model) (object : Nat) (value : String) : Option (World Model) := do
  let p ← w.instParameters object
  let _ ← w.instances p.instance_
  some ((w.setInstParameter object (some { p with value := value })).invalidate p.instance_)

/-- The set gives up whatever object it has under the name of the destroyed one. -/
def destroyInstParameter (w : World Model) (object : Nat) : Option (World Model) := do
  let p ← w.instParameters object
  let x ← w.instances p.instance_
  let w := w.invalidate p.instance_
  let linked := x.instParameters.filter (fun entry => entry.1 != p.parameter)
  some ((w.setInstance p.instance_ (some { x with instParameters := linked })).setInstParameter object none)

def setModel (w : World Model) (i design : Nat) : Option (World Model) := do
  let x ← w.instances i
  let d ← w.designs[x.model]?
  let d' ← w.designs[design]?
  if x.model = design then some w
  else if !compatible d d' ∨ !x.instParameters.all (fun entry => (d.getParameter entry.1).isSome) then some w
  else some ((w.invalidate i).setInstance i (some { x with model := design }))

def createInstance (w : World Model) (i design : Nat) : Option (World Model) :=
  if (w.instances i).isSome ∨ w.designs[design]?.isNone then none
  else some (w.setInstance i (some ⟨design, []⟩))

def destroyInstance (w : World Model) (i : Nat) : Option (World Model) := do
  let x ← w.instances i
  let w := w.invalidate i
  some ((x.instParameters.foldl (fun w entry => w.setInstParameter entry.2 none) w).setInstance i none)

def setTruthTableFromParameter (w : World Model) (design : Nat) (output : SNLBitTerm) (inputs : List SNLBitTerm)
    (owner : Nat) (name : String) (offset : Nat) : Option (World Model) := do
  let d ← w.designs[design]?
  let d' ← w.designs[owner]?
  let parameter ← d'.getParameter name
  match parameterTable d design output inputs owner parameter offset with
  | .error _ => some w
  | .ok m => some (w.setModeling design m)

section
variable (validateModel : SNLDesign Model → Model → Bool)

def setSequentialModelFromParameters (w : World Model) (design : Nat) (parameters : List String)
    (models : List (List Nat × Model)) : Option (World Model) := do
  let d ← w.designs[design]?
  if !d.isPrimitive ∨ parameters.isEmpty ∨ models.isEmpty ∨ !checkSelectors d [] parameters ∨
      !models.all (fun entry => entry.1.length == parameters.length && validateModel d entry.2) then some w
  else
    let m := d.modeling.getD { parameterized := false }
    some (w.setModeling design { m with
      instanceSequentialModels := fun _ => none
      sequentialModel := none
      sequentialParameters := parameters
      sequentialModels := models })

def setSequentialModel (isValid : Model → Bool) (w : World Model) (design : Nat) (model : Model) : Option (World Model) := do
  let d ← w.designs[design]?
  if !d.isPrimitive ∨ !isValid model then some w
  else
    let m := d.modeling.getD { parameterized := false }
    some (w.setModeling design { m with
      sequentialParameters := []
      sequentialModels := []
      instanceSequentialModels := fun _ => none
      sequentialModel := some model })

/-- A call on an object that is not there has no meaning; a call that is refused changes nothing. -/
def step (isValid : Model → Bool) (w : World Model) : Operation Model → Option (World Model)
  | .createInstParameter object i design name value => w.createInstParameter object i design name value
  | .setValue object value => w.setValue object value
  | .destroyInstParameter object => w.destroyInstParameter object
  | .setModel i design => w.setModel i design
  | .createInstance i design => w.createInstance i design
  | .destroyInstance i => w.destroyInstance i
  | .setTruthTableFromParameter design output inputs owner name offset =>
      w.setTruthTableFromParameter design output inputs owner name offset
  | .setSequentialModelFromParameters design parameters models =>
      w.setSequentialModelFromParameters validateModel design parameters models
  | .setSequentialModel design model => setSequentialModel isValid w design model
  | .getTruthTable i term => some (w.getTruthTable i term).2
  | .getSequentialModel i => some (w.getSequentialModel i).2

def run (isValid : Model → Bool) (w : World Model) (operations : List (Operation Model)) : Option (World Model) :=
  operations.foldlM (step validateModel isValid) w

end

end World

end Naja.Modeling
