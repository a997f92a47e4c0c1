import Naja.TruthTable.Reduction

/-! The flattened netlist as the constant propagation sees it: leaf instances
with their terminals on isos, and the two engines that compute the output of a
leaf from the constants known so far. -/

namespace Naja.ConstantPropagation
open Naja.TruthTable
open Naja.Primitives (Direction)

/-- The iso ID of a terminal that is on no net. -/
def DNLID_MAX : Nat := 2 ^ 64 - 1

/-- A set of isos, in increasing order. -/
abbrev Isos := List Nat

def insertIso (iso : Nat) : Isos → Isos
  | [] => [iso]
  | head :: rest =>
      if iso < head then iso :: head :: rest
      else if iso = head then head :: rest
      else head :: insertIso iso rest

@[simp] theorem mem_insertIso (iso other : Nat) (isos : Isos) :
    other ∈ insertIso iso isos ↔ other = iso ∨ other ∈ isos := by
  induction isos with
  | nil => simp [insertIso]
  | cons head rest ih =>
      unfold insertIso
      split
      · rw [List.mem_cons]
      · split
        · next same =>
            rw [same, List.mem_cons]
            constructor
            · exact Or.inr
            · intro found
              rcases found with rfl | old
              · exact Or.inl rfl
              · exact old
        · rw [List.mem_cons, ih, List.mem_cons, or_left_comm]

/-- A terminal of a leaf: the ID and name of its bit term, its direction and its iso. -/
structure LeafTerm where
  id : Nat
  name : String
  direction : Direction
  iso : Nat
deriving DecidableEq, Repr

/-- The two NLDB0 families the engine evaluates through their own tables. -/
inductive VectorModel where
  | none
  | select (width selectWidth abits : Nat) (isSigned : Bool)
  | update (width updateWidth abits : Nat) (isSigned : Bool)
deriving DecidableEq, Repr

/-- A leaf instance. `model` stands for the model object, `modelID` for its ID in its library.
`tables` holds the declared truth table of each terminal that has one, in
the order of `terms`; `modelTable` is what the reading without an output gives for the model. -/
structure Leaf where
  model : Nat
  modelID : Nat
  modelName : String
  vector : VectorModel
  terms : List LeafTerm
  tables : List (Option SNLTruthTable)
  modelTable : Except String SNLTruthTable
deriving DecidableEq

namespace Leaf

/-- `SNLDesignModeling::getTruthTable(instance)`. -/
def getTruthTable (l : Leaf) : Except String SNLTruthTable :=
  if (l.tables.filter Option.isSome).length = 1 then
    match l.terms.findIdx? (fun t => t.direction != .Input) with
    | some position => .ok (((l.tables[position]?).join).getD {})
    | none => .ok {}
  else l.modelTable

def outputs (l : Leaf) : List LeafTerm := l.terms.filter (fun t => t.direction == .Output)

def inputs (l : Leaf) : List LeafTerm := l.terms.filter (fun t => t.direction == .Input)

/-- The last output named Q. -/
def q (l : Leaf) : Option LeafTerm := (l.outputs.filter (fun t => t.name == "Q")).getLast?

/-- The isos on which a change makes the analysis look at the leaf again. -/
def readIsos (l : Leaf) : List Nat := (l.terms.filter (fun t => t.direction != .Output)).map LeafTerm.iso

end Leaf

/-- The leaves, the readers of each iso (a leaf by its index, `none` for a top terminal), the
isos of constant nets, and the models that stand for logic 0 and 1 in the primitive library. -/
structure Netlist where
  leaves : List Leaf
  readers : List (List (Option Nat))
  constant0Isos : Isos
  constant1Isos : Isos
  logic0 : Option Nat
  logic1 : Option Nat

/-- `getIsoFromIsoIDconst(iso).getReaders()`; the null iso has none. -/
def Netlist.getReaders (n : Netlist) (iso : Nat) : List (Option Nat) :=
  if iso = DNLID_MAX then [] else n.readers.getD iso []

/-- `constants0_` and `constants1_`. -/
structure Constants where
  zero : Isos
  one : Isos
deriving DecidableEq, Repr

inductive GateType where
  | AND | OR | XOR | NAND | NOR | XNOR | INV | BUF | HA | DFF | MUX | OAI
deriving DecidableEq, Repr

def hasSubstring (name pattern : String) : Bool := decide (pattern.toList <:+: name.toList)

/-- The type a model name stands for: the first pattern found in it. -/
def nameType (name : String) : Option GateType :=
  if hasSubstring name "NAND" then some .NAND
  else if hasSubstring name "XNOR" then some .XNOR
  else if hasSubstring name "NOR" then some .NOR
  else if hasSubstring name "XOR" then some .XOR
  else if hasSubstring name "AND" then some .AND
  else if hasSubstring name "OR" then some .OR
  else if hasSubstring name "INV" then some .INV
  else if hasSubstring name "BUF" then some .BUF
  else if hasSubstring name "HA" then some .HA
  else if hasSubstring name "DFF" then some .DFF
  else if hasSubstring name "MUX" then some .MUX
  else if hasSubstring name "OAI" then some .OAI
  else none

/-- `designObjectID2Type_` after `initializeTypesID`: the last leaf of a model ID with a type
decides, whatever library its model is in. -/
def designObjectID2Type (n : Netlist) (modelID : Nat) : Option GateType :=
  ((n.leaves.filter (fun l => l.modelID == modelID)).filterMap (fun l => nameType l.modelName)).getLast?

section Engines
variable (k : Constants)

/-- A terminal read as 0 before 1. -/
def valueOf (t : LeafTerm) : Option Bool :=
  if t.iso ∈ k.zero then some false else if t.iso ∈ k.one then some true else none

/-- A terminal read as 1 before 0, as the name-based engine does for single pins. -/
def pinValue (t : LeafTerm) : Option Bool :=
  if t.iso ∈ k.one then some true else if t.iso ∈ k.zero then some false else none

/-- The value of the last input of that name; an input that is no constant leaves it alone. -/
def namedValue (l : Leaf) (name : String) : Option Bool :=
  ((l.inputs.filter (fun t => t.name == name)).filterMap (pinValue k)).getLast?

def allInputValues (l : Leaf) : Option (List Bool) := l.inputs.mapM (valueOf k)

def anyInput0 (l : Leaf) : Bool := l.inputs.any (fun t => decide (t.iso ∈ k.zero))

def anyInput1 (l : Leaf) : Bool := l.inputs.any (fun t => decide (t.iso ∈ k.one))

def countInput1 (l : Leaf) : Nat := l.inputs.countP (fun t => decide (t.iso ∈ k.one))

/-- Every terminal counts for an OR, the outputs included. -/
def anyTerm1 (l : Leaf) : Bool := l.terms.any (fun t => decide (t.iso ∈ k.one))

/-- The constant inputs of a leaf with the IDs of their bit terms. -/
def constTerms (l : Leaf) : List (Nat × Bool) :=
  l.inputs.filterMap (fun t => (valueOf k t).map (fun value => (t.id, value)))

/-- The truth-table engine; `none` stands for `(unsigned)-1`. -/
def computeOutputValue (l : Leaf) : Except String (Option Bool) :=
  match l.vector with
  | .select width selectWidth abits isSigned =>
      if selectWidth ≠ 1 then .ok none
      else match allInputValues k l with
        | none => .ok none
        | some inputs => do
            let p := Naja.Primitives.NLDB0.Signature.vectorSelect width selectWidth abits isSigned
            let table ← Naja.Primitives.NLDB0.getVectorSelectTruthTable width selectWidth abits isSigned
              (Naja.Primitives.NLDB0.getOrderID p ((Naja.Primitives.NLDB0.output 2 selectWidth).getBit 0))
            table.evaluateVectorSelect inputs
  | .update width updateWidth abits isSigned =>
      if width ≠ 1 then .ok none
      else match allInputValues k l with
        | none => .ok none
        | some inputs => do
            let p := Naja.Primitives.NLDB0.Signature.vectorUpdate width updateWidth abits isSigned
            let table ← Naja.Primitives.NLDB0.getVectorUpdateTruthTable width updateWidth abits isSigned
              (Naja.Primitives.NLDB0.getOrderID p ((Naja.Primitives.NLDB0.output 4 width).getBit 0))
            let value ← table.evaluateVectorUpdate inputs
            return some value
  | .none => do
      let truthTable ← l.getTruthTable
      if !truthTable.isInitialized then return none
      if truthTable.genericType = .VECTOR_UPDATE ∧ (constTerms k l).length ≠ truthTable.size then
        return none
      let reduced ← reduceTruthTable (l.inputs.map LeafTerm.id) truthTable (constTerms k l)
      return tableOutcome reduced

/-- The value of an or-and-invert cell, shared by both name-based functions. -/
def oaiValue (l : Leaf) : Option Bool :=
  let a := namedValue k l "A"
  let b1 := namedValue k l "B1"
  let b2 := namedValue k l "B2"
  if a = some true ∧ (b1 = some true ∨ b2 = some true) then some false
  else if a = some false ∨ b1 = some false ∧ b2 = some false then some true
  else none

/-- The first input named D decides, constant or not. -/
def dffValue (l : Leaf) : Option Bool :=
  (l.inputs.find? (fun t => t.name == "D")).bind (pinValue k)

def computeOutputValueForConstantInstance (type : Option GateType) (l : Leaf) :
    Except String (Option Bool) :=
  if l.vector ≠ .none then computeOutputValue k l
  else match type with
    | some .AND => .ok (some (!anyInput0 k l))
    | some .OR => .ok (some (anyTerm1 k l))
    | some .XOR => .ok (some (countInput1 k l % 2 == 1))
    | some .NAND => .ok (some (anyInput0 k l))
    | some .NOR => .ok (some (!anyInput1 k l))
    | some .XNOR => .ok (some (countInput1 k l % 2 == 0))
    | some .INV =>
        .ok (some (!decide (((l.inputs.getLast?).map LeafTerm.iso).getD DNLID_MAX ∈ k.one)))
    | some .BUF => .ok (some (decide (((l.terms.head?).map LeafTerm.iso).getD DNLID_MAX ∈ k.one)))
    | some .DFF => .ok (dffValue k l)
    | some .MUX =>
        .ok (if namedValue k l "S" = some false then namedValue k l "A" else namedValue k l "B")
    | some .OAI => .ok (oaiValue k l)
    | some .HA | none => .ok none

def computeOutputValueForPartiallyConstantInstance (type : Option GateType) (l : Leaf) : Option Bool :=
  match type with
  | some .AND => if anyInput0 k l then some false else none
  | some .OR => if anyTerm1 k l then some true else none
  | some .NAND => if anyInput0 k l then some true else none
  | some .NOR => if anyInput1 k l then some false else none
  | some .DFF => dffValue k l
  | some .MUX =>
      if namedValue k l "S" = some false then namedValue k l "A"
      else if namedValue k l "S" = some true then namedValue k l "B"
      else none
  | some .OAI => oaiValue k l
  | some .XOR | some .XNOR | some .INV | some .BUF | some .HA | none => none

end Engines

end Naja.ConstantPropagation
