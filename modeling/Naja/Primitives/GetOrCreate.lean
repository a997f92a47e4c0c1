import Naja.Primitives.Families
import Naja.Universe.Operations

/-! The designs of DB0 by library, and the functions that find or create them. Libraries
are known by their numbers and exist when a design needs them. Nothing is returned for an
exception, which leaves no new design, and a null pointer is nothing in the place of the
design. What a constructor does with the bits of its ports is left out. -/

namespace Naja.Primitives.DB0
open Registry
open Universe (newID nameFree designBound)
open NLDB0 (maxSize)

structure DesignData where
  parameters : List (String × String)
  ports : List Port
deriving DecidableEq, Repr

abbrev Design := Entry DesignData

structure DB0 where
  designs : Library → Index DesignData
  next : Nat

namespace Request

def data (x : Request) : DesignData := ⟨x.parameters, x.ports⟩

/-- The families that look for the name, not for the ID. -/
def byName : Request → Bool
  | .word (.nInputGate _ _) | .word (.nOutputGate _ _) | .word (.tableSelect _ _ _) | .word (.shift _ _ _ _)
  | .word (.vectorSelect _ _ _ _) | .word (.vectorUpdate _ _ _ _) | .memory _ => true
  | _ => false

/-- Created with DB0 and never later. -/
def builtin : Request → Bool
  | .word .assign | .word .fa => true
  | .word (.mux2 width) | .sequential _ width => width == 1
  | _ => false

/-- The families that return what the library finds after the creation. -/
def foundAgain : Request → Bool
  | .word (.mux2 _) | .word (.divMod _ _) | .word (.tableSelect _ _ _) | .sequential _ _ | .memory _ => true
  | _ => false

def find (designs : Index DesignData) (x : Request) : Option Design :=
  if x.byName then designs.getByName x.designName else x.designID.bind designs.getByID

end Request

/-! ### Creation -/

/-- `SNLDesign::create`, which throws when the name or the ID is taken. -/
def createDesign (s : DB0) (x : Request) : Option (DB0 × Design) :=
  let designs := s.designs x.library
  if nameFree designs x.designName then
    (newID designs designBound x.designID).map (fun id =>
      let design : Design := ⟨s.next, id, x.designName, x.data⟩
      (⟨Function.update s.designs x.library (designs.add design), s.next + 1⟩, design))
  else none

def getOrCreate (s : DB0) (x : Request) : Option (DB0 × Option Design) :=
  if x.accepted then
    match x.find (s.designs x.library) with
    | some design => some (s, some design)
    | none =>
        if x.builtin then some (s, none)
        else (createDesign s x).map (fun created =>
          (created.1, if x.foundAgain then x.find (created.1.designs x.library) else some created.2))
  else none

def sequentials : List Sequential :=
  [.DFF, .DLatch, .DFFN, .DFFRN, .DFFR, .DFFS, .DFFE, .DFFRE, .DFFSE, .DFFSR, .DFFSRN, .DFFSS, .DFFSSN, .DFFSRE,
    .DFFSRNE, .DFFSSE, .DFFSSNE]

/-- The primitives created with DB0. -/
def builtins : List Request :=
  [.word .assign, .word .fa, .word (.mux2 1)] ++ sequentials.map (fun family => .sequential family 1)

def createAll (s : DB0) (xs : List Request) : DB0 := xs.foldl (fun s x => (createDesign s x).elim s Prod.fst) s

/-- `NLDB0::create`. -/
def DB0.create : DB0 := createAll ⟨fun _ => .empty, 0⟩ builtins

/-! ### Parameters -/

def isSpace (c : Char) : Bool := c == ' ' || (decide (9 ≤ c.toNat) && decide (c.toNat ≤ 13))

def digitsValue (text : List Char) : Option Nat :=
  let digits := text.takeWhile Char.isDigit
  if digits.isEmpty then none
  else if Nat.ofDigitChars 10 digits 0 ≤ maxSize then some (Nat.ofDigitChars 10 digits 0) else none

def stoull (text : String) : Option Nat :=
  match text.toList.dropWhile isSpace with
  | '-' :: rest => (digitsValue rest).map (fun n => (maxSize + 1 - n) % (maxSize + 1))
  | '+' :: rest => digitsValue rest
  | rest => digitsValue rest

def parseBoolean (value : String) : Option Bool :=
  if value = "0" then some false else if value = "1" then some true else none

def getDecimal (parameters : List (String × String)) (name : String) : Option Nat :=
  (parameters.lookup name).bind stoull

def getBoolean (parameters : List (String × String)) (name : String) : Option Bool :=
  (parameters.lookup name).bind parseBoolean

def getMemoryResetMode (resetEnable resetAsync resetActiveLow : Bool) : MemoryResetMode :=
  if !resetEnable then .None
  else if resetAsync then (if resetActiveLow then .AsyncLow else .AsyncHigh)
  else if resetActiveLow then .SyncLow else .SyncHigh

/-- The parameters of a memory, of a design or given; a decimal is a `size_t`. -/
def memorySignature (parameters : List (String × String)) : Option MemorySignature := do
  let width ← getDecimal parameters "WIDTH"
  let depth ← getDecimal parameters "DEPTH"
  let abits ← getDecimal parameters "ABITS"
  let readPorts ← getDecimal parameters "RD_PORTS"
  let writePorts ← getDecimal parameters "WR_PORTS"
  let independentWriteClocks ←
    if (parameters.lookup "MULTI_CLOCK").isSome then getBoolean parameters "MULTI_CLOCK" else some false
  let resetEnable ← getBoolean parameters "RST_ENABLE"
  let resetAsync ← getBoolean parameters "RST_ASYNC"
  let resetActiveLow ← getBoolean parameters "RST_ACTIVE_LOW"
  if sized : depth ≤ maxSize then
    some ⟨width, depth, abits, readPorts, writePorts, getMemoryResetMode resetEnable resetAsync resetActiveLow,
      independentWriteClocks, sized⟩
  else none

def tableSelectSignature (parameters : List (String × String)) : Option Request := do
  let width ← getDecimal parameters "WIDTH"
  let depth ← getDecimal parameters "DEPTH"
  let abits ← getDecimal parameters "ABITS"
  some (.word (.tableSelect width depth abits))

def shiftSignature (parameters : List (String × String)) : Option Request := do
  let width ← getDecimal parameters "WIDTH"
  let countWidth ← getDecimal parameters "COUNT_WIDTH"
  let right ← getBoolean parameters "RIGHT"
  let arithmetic ← getBoolean parameters "ARITHMETIC"
  some (.word (.shift width countWidth right arithmetic))

def vectorSelectSignature (parameters : List (String × String)) : Option Request := do
  let width ← getDecimal parameters "WIDTH"
  let selectWidth ← getDecimal parameters "SELECT_WIDTH"
  let abits ← getDecimal parameters "ABITS"
  let isSigned ← getBoolean parameters "SIGNED"
  some (.word (.vectorSelect width selectWidth abits isSigned))

def vectorUpdateSignature (parameters : List (String × String)) : Option Request := do
  let width ← getDecimal parameters "WIDTH"
  let updateWidth ← getDecimal parameters "UPDATE_WIDTH"
  let abits ← getDecimal parameters "ABITS"
  let isSigned ← getBoolean parameters "SIGNED"
  some (.word (.vectorUpdate width updateWidth abits isSigned))

/-! ### The signature of a design -/

def startsWith (name head : String) : Bool := head.toList.isPrefixOf name.toList

def isWidthPrimitive (design : Design) (scalarName head : String) : Bool :=
  (design.id == 1 && design.name == scalarName) || startsWith design.name head

/-- The readers of the signatures; the width of multiplexers, latches and flip-flops is
their parameter, and that of a gate is the width of its bus. -/
def readSignature (library : Library) (design : Design) : Option Request :=
  let parameters := design.data.parameters
  let width := getDecimal parameters "WIDTH"
  match library with
  | .Root => if design.id = 1 then some (.word .fa) else none
  | .Assign => if design.id = 1 then some (.word .assign) else none
  | .Mux2 =>
      if isWidthPrimitive design "naja_mux2__w1" "naja_mux2__w" then width.map (fun width => .word (.mux2 width)) else none
  | .TableSelect => if startsWith design.name "naja_table_select__" then tableSelectSignature parameters else none
  | .Add => width.map (fun width => .word (.addSub width false))
  | .Subtract => width.map (fun width => .word (.addSub width true))
  | .Multiply => width.map (fun width => .word (.multiply width))
  | .DivModUnsigned | .DivModSigned =>
      if startsWith design.name "naja_divmod__" then do
        let width ← width
        let isSigned ← getBoolean parameters "SIGNED"
        some (.word (.divMod width isSigned))
      else none
  | .Shift => shiftSignature parameters
  | .Memory => (memorySignature parameters).map .memory
  | .Sequential family =>
      if isWidthPrimitive design family.name (family.name ++ "__w") then width.map (.sequential family) else none
  | .VectorUpdate =>
      if startsWith design.name "naja_vector_update__" then vectorUpdateSignature parameters else none
  | .VectorSelect =>
      if startsWith design.name "naja_vector_select__" then vectorSelectSignature parameters else none
  | .Gate type =>
      if type.isNInput then
        (design.data.ports[1]?.bind Port.getWidth).map (fun width => .word (.nInputGate type width))
      else (design.data.ports[0]?.bind Port.getWidth).map (fun width => .word (.nOutputGate type width))

/-! ### By library and design ID -/

def Library.all : List Library :=
  [.Root, .Assign, .Mux2, .TableSelect, .Add, .Subtract, .Multiply, .DivModUnsigned, .DivModSigned, .Shift, .Memory,
    .VectorUpdate, .VectorSelect] ++ sequentials.map .Sequential ++ gateTypes.map .Gate

def Library.ofID (libraryID : Nat) : Option Library := Library.all.find? (fun library => library.id == libraryID)

/-- What `getOrCreatePrimitive` asks for; it asks for nothing when it returns a null pointer. -/
def primitiveRequest (libraryID designID : Nat) (parameters : List (String × String)) : Option (Option Request) :=
  match Library.ofID libraryID with
  | none => some none
  | some .Root => some (if designID = 1 then some (.word .fa) else none)
  | some .Assign => some (some (.word .assign))
  | some .Mux2 => some (some (.word (.mux2 designID)))
  | some .TableSelect => (tableSelectSignature parameters).map some
  | some .Add => some (some (.word (.addSub designID false)))
  | some .Subtract => some (some (.word (.addSub designID true)))
  | some .Multiply => some (some (.word (.multiply designID)))
  | some .DivModUnsigned => some (some (.word (.divMod designID false)))
  | some .DivModSigned => some (some (.word (.divMod designID true)))
  | some .Shift => (shiftSignature parameters).map some
  | some .Memory => (memorySignature parameters).map (fun m => some (.memory m))
  | some (.Sequential family) => some (some (.sequential family designID))
  | some .VectorUpdate => (vectorUpdateSignature parameters).map some
  | some .VectorSelect => (vectorSelectSignature parameters).map some
  | some (.Gate type) =>
      if type.isNInput then some (some (.word (.nInputGate type designID)))
      else if type.isNOutput then some (some (.word (.nOutputGate type designID)))
      else some none

def getOrCreatePrimitive (s : DB0) (libraryID designID : Nat) (parameters : List (String × String)) :
    Option (DB0 × Option Design) :=
  match primitiveRequest libraryID designID parameters with
  | none => none
  | some none => some (s, none)
  | some (some x) => getOrCreate s x

end Naja.Primitives.DB0
