import Naja.Primitives.NLDB0

/-! Every family of primitives of DB0: the library of a signature, the name, the
parameters and the ports of its design. A port is wide as the signature states; its
range is what is left of that width in the signed 32 bits of a bit ID. -/

namespace Naja.Primitives.DB0
open NLDB0 (GateType Signature boolDigit maxBit maxDesignID maxSize)

/-- The latch and the flip-flops. -/
inductive Sequential where
  | DLatch | DFF | DFFN | DFFRN | DFFR | DFFS | DFFE | DFFRE | DFFSE | DFFSR | DFFSRN | DFFSS | DFFSSN | DFFSRE
  | DFFSRNE | DFFSSE | DFFSSNE
deriving DecidableEq, Repr

def Sequential.name : Sequential → String
  | .DLatch => "naja_dlatch"
  | .DFF => "naja_dff"
  | .DFFN => "naja_dffn"
  | .DFFRN => "naja_dffrn"
  | .DFFR => "naja_dffr"
  | .DFFS => "naja_dffs"
  | .DFFE => "naja_dffe"
  | .DFFRE => "naja_dffre"
  | .DFFSE => "naja_dffse"
  | .DFFSR => "naja_dffsr"
  | .DFFSRN => "naja_dffsrn"
  | .DFFSS => "naja_dffss"
  | .DFFSSN => "naja_dffssn"
  | .DFFSRE => "naja_dffsre"
  | .DFFSRNE => "naja_dffsrne"
  | .DFFSSE => "naja_dffsse"
  | .DFFSSNE => "naja_dffssne"

/-- The name of the reset or set input. -/
def Sequential.control : Sequential → Option String
  | .DLatch | .DFF | .DFFN | .DFFE => none
  | .DFFRN | .DFFSRN | .DFFSRNE => some "RN"
  | .DFFR | .DFFRE | .DFFSR | .DFFSRE => some "R"
  | .DFFS | .DFFSE | .DFFSS | .DFFSSE => some "S"
  | .DFFSSN | .DFFSSNE => some "SN"

def Sequential.enable : Sequential → Bool
  | .DFFE | .DFFRE | .DFFSE | .DFFSRE | .DFFSRNE | .DFFSSE | .DFFSSNE => true
  | _ => false

inductive MemoryResetMode where
  | None | AsyncLow | AsyncHigh | SyncLow | SyncHigh
deriving DecidableEq, Repr

def MemoryResetMode.suffix : MemoryResetMode → String
  | .None => "none"
  | .AsyncLow => "async_low"
  | .AsyncHigh => "async_high"
  | .SyncLow => "sync_low"
  | .SyncHigh => "sync_high"

/-- The depth is a `size_t`: nothing else bounds it. -/
structure MemorySignature where
  width : Nat
  depth : Nat
  abits : Nat
  readPorts : Nat
  writePorts : Nat
  resetMode : MemoryResetMode
  independentWriteClocks : Bool
  sized : depth ≤ maxSize
deriving DecidableEq, Repr

/-- What a primitive is asked for with. -/
inductive Request where
  | word (signature : Signature)
  | sequential (family : Sequential) (width : Nat)
  | memory (signature : MemorySignature)
deriving DecidableEq, Repr

inductive Library where
  | Root | Assign | Mux2 | TableSelect | Add | Subtract | Multiply | DivModUnsigned | DivModSigned | Shift | Memory
  | Sequential (family : Sequential)
  | VectorUpdate | VectorSelect
  | Gate (type : GateType)
deriving DecidableEq, Repr

def Sequential.libraryID : Sequential → Nat
  | .DLatch => 12
  | .DFF => 13
  | .DFFN => 14
  | .DFFRN => 15
  | .DFFR => 16
  | .DFFS => 17
  | .DFFE => 18
  | .DFFRE => 19
  | .DFFSE => 20
  | .DFFSR => 21
  | .DFFSRN => 22
  | .DFFSS => 23
  | .DFFSSN => 24
  | .DFFSRE => 25
  | .DFFSRNE => 26
  | .DFFSSE => 27
  | .DFFSSNE => 28

def gateLibraryIDBase : Nat := 31

def gateTypes : List GateType := [.And, .Nand, .Or, .Nor, .Xor, .Xnor, .Buf, .Not]

/-- The numbers of the snapshots; 7 is the library around those of divide and modulo. -/
def Library.id : Library → Nat
  | .Root => 0
  | .Assign => 1
  | .Mux2 => 2
  | .TableSelect => 3
  | .Add => 4
  | .Subtract => 5
  | .Multiply => 6
  | .DivModUnsigned => 8
  | .DivModSigned => 9
  | .Shift => 10
  | .Memory => 11
  | .Sequential family => family.libraryID
  | .VectorUpdate => 29
  | .VectorSelect => 30
  | .Gate type => gateLibraryIDBase + gateTypes.idxOf type

namespace Request

def library : Request → Library
  | .word .assign => .Assign
  | .word .fa => .Root
  | .word (.nInputGate type _) => .Gate type
  | .word (.nOutputGate type _) => .Gate type
  | .word (.mux2 _) => .Mux2
  | .word (.tableSelect _ _ _) => .TableSelect
  | .word (.divMod _ isSigned) => if isSigned then .DivModSigned else .DivModUnsigned
  | .word (.addSub _ subtract) => if subtract then .Subtract else .Add
  | .word (.multiply _) => .Multiply
  | .word (.shift _ _ _ _) => .Shift
  | .word (.vectorSelect _ _ _ _) => .VectorSelect
  | .word (.vectorUpdate _ _ _ _) => .VectorUpdate
  | .sequential family _ => .Sequential family
  | .memory _ => .Memory

def memoryCheck (m : MemorySignature) : Bool :=
  !(m.width == 0 || m.depth == 0 || m.abits == 0 || m.readPorts == 0 ||
    (m.writePorts == 0 && (m.resetMode != .None || m.independentWriteClocks)) ||
    (m.independentWriteClocks && m.resetMode != .None))

/-- The checks of the signature; one that fails throws. -/
def accepted : Request → Bool
  | .word signature => (NLDB0.checkSignature signature).isOk
  | .sequential _ width => width != 0 && decide (width ≤ maxDesignID)
  | .memory m => memoryCheck m

def memoryName (m : MemorySignature) : String :=
  "naja_mem__w" ++ toString m.width ++ "_d" ++ toString m.depth ++ "_a" ++ toString m.abits ++ "_r" ++
    toString m.readPorts ++ "_w" ++ toString m.writePorts ++ "_rst_" ++ m.resetMode.suffix ++
    (if m.independentWriteClocks then "_multi_clock" else "")

/-- The scalar latch and flip-flops have the name of the family alone. -/
def designName : Request → String
  | .word signature => NLDB0.designName signature
  | .sequential family width => if width = 1 then family.name else family.name ++ "__w" ++ toString width
  | .memory m => memoryName m

/-- The ID a design is created with; the other families take the next one. -/
def designID : Request → Option Nat
  | .word .assign => some 1
  | .word .fa => some 1
  | .word (.nInputGate _ nbInputs) => some nbInputs
  | .word (.nOutputGate _ nbOutputs) => some nbOutputs
  | .word (.mux2 width) => some width
  | .word (.divMod width _) => some width
  | .word (.addSub width _) => some width
  | .word (.multiply width) => some width
  | .sequential _ width => some width
  | .word (.tableSelect _ _ _) | .word (.shift _ _ _ _) | .word (.vectorSelect _ _ _ _) | .word (.vectorUpdate _ _ _ _)
  | .memory _ => none

/-! ### Parameters -/

def initValue (width : Nat) : String := toString width ++ "'b" ++ String.ofList (List.replicate width 'x')

def memoryParameters (m : MemorySignature) : List (String × String) :=
  [("WIDTH", toString m.width), ("DEPTH", toString m.depth), ("ABITS", toString m.abits),
    ("RD_PORTS", toString m.readPorts), ("WR_PORTS", toString m.writePorts),
    ("RST_ENABLE", boolDigit (m.resetMode != .None)),
    ("RST_ASYNC", boolDigit (m.resetMode == .AsyncLow || m.resetMode == .AsyncHigh)),
    ("RST_ACTIVE_LOW", boolDigit (m.resetMode == .AsyncLow || m.resetMode == .SyncLow)),
    ("INIT_ENABLE", "0"), ("INIT", "1'b0")] ++
    (if m.independentWriteClocks then [("MULTI_CLOCK", "1")] else [])

def parameters : Request → List (String × String)
  | .word .assign | .word .fa | .word (.nInputGate _ _) | .word (.nOutputGate _ _) => []
  | .word (.mux2 width) => [("WIDTH", toString width)]
  | .word (.tableSelect width depth abits) =>
      [("WIDTH", toString width), ("DEPTH", toString depth), ("ABITS", toString abits)]
  | .word (.divMod width isSigned) => [("WIDTH", toString width), ("SIGNED", boolDigit isSigned)]
  | .word (.addSub width _) => [("WIDTH", toString width)]
  | .word (.multiply width) => [("WIDTH", toString width)]
  | .word (.shift width countWidth right arithmetic) =>
      [("WIDTH", toString width), ("COUNT_WIDTH", toString countWidth), ("RIGHT", boolDigit right),
        ("ARITHMETIC", boolDigit arithmetic)]
  | .word (.vectorSelect width selectWidth abits isSigned) =>
      [("WIDTH", toString width), ("SELECT_WIDTH", toString selectWidth), ("ABITS", toString abits),
        ("SIGNED", boolDigit isSigned)]
  | .word (.vectorUpdate width updateWidth abits isSigned) =>
      [("WIDTH", toString width), ("UPDATE_WIDTH", toString updateWidth), ("ABITS", toString abits),
        ("SIGNED", boolDigit isSigned)]
  | .sequential .DLatch width => [("WIDTH", toString width)]
  | .sequential _ width => [("WIDTH", toString width), ("INIT", initValue width)]
  | .memory m => memoryParameters m

end Request

/-! ### Ports -/

/-- A port as the signature states it: a scalar, or a bus of a number of bits. -/
structure StatedPort where
  name : String
  direction : Direction
  bits : Option Nat
deriving DecidableEq, Repr

def StatedPort.width (port : StatedPort) : Nat := port.bits.getD 1

def scalarIn (name : String) : StatedPort := ⟨name, .Input, none⟩
def scalarOut (name : String) : StatedPort := ⟨name, .Output, none⟩
def busIn (name : String) (width : Nat) : StatedPort := ⟨name, .Input, some width⟩
def busOut (name : String) (width : Nat) : StatedPort := ⟨name, .Output, some width⟩

namespace Request

def memoryPorts (m : MemorySignature) : List StatedPort :=
  (if m.independentWriteClocks then [busIn "WCLK" m.writePorts, busIn "WMASK" (m.writePorts * m.width)] else []) ++
    (if m.writePorts = 0 then [] else [scalarIn "CLK", scalarIn "RST"]) ++
    [busIn "RADDR" (m.readPorts * m.abits), busOut "RDATA" (m.readPorts * m.width)] ++
    (if m.writePorts = 0 then []
      else [busIn "WADDR" (m.writePorts * m.abits), busIn "WDATA" (m.writePorts * m.width), busIn "WE" m.writePorts])

/-- The data ports of the one-bit primitives are scalars. -/
def dataBits (width : Nat) : Option Nat := if width = 1 then none else some width

def sequentialPorts (family : Sequential) (width : Nat) : List StatedPort :=
  match family with
  | .DLatch => [scalarIn "E", ⟨"D", .Input, dataBits width⟩, ⟨"Q", .Output, dataBits width⟩]
  | family =>
      [scalarIn "C", ⟨"D", .Input, dataBits width⟩] ++ (if family.enable then [scalarIn "E"] else []) ++
        family.control.toList.map scalarIn ++ [⟨"Q", .Output, dataBits width⟩]

/-- The ports by ID. -/
def statedPorts : Request → List StatedPort
  | .word .assign => [scalarIn "", scalarOut ""]
  | .word .fa => [scalarIn "A", scalarIn "B", scalarIn "CI", scalarOut "S", scalarOut "CO"]
  | .word (.nInputGate _ nbInputs) => [scalarOut "", busIn "" nbInputs]
  | .word (.nOutputGate _ nbOutputs) => [busOut "" nbOutputs, scalarIn ""]
  | .word (.mux2 width) => [busIn "A" width, busIn "B" width, scalarIn "S", busOut "Y" width]
  | .word (.tableSelect width depth abits) => [busIn "DATA" (width * depth), busIn "ADDR" abits, busOut "Y" width]
  | .word (.divMod width _) => [busIn "A" width, busIn "B" width, busOut "Q" width, busOut "R" width]
  | .word (.addSub width _) => [busIn "A" width, busIn "B" width, busOut "Y" width]
  | .word (.multiply width) => [busIn "A" width, busIn "B" width, busOut "Y" width]
  | .word (.shift width countWidth _ _) => [busIn "DATA" width, busIn "COUNT" countWidth, busOut "Y" width]
  | .word (.vectorSelect width selectWidth abits _) =>
      [busIn "DATA" width, busIn "OFFSET" abits, busOut "Y" selectWidth]
  | .word (.vectorUpdate width updateWidth abits _) =>
      [busIn "BASE" width, busIn "DATA" updateWidth, busIn "OFFSET" abits, scalarIn "EN", busOut "Y" width]
  | .sequential family width => sequentialPorts family width
  | .memory m => memoryPorts m

def statedWidths (x : Request) : List Nat := x.statedPorts.map StatedPort.width

/-- The stated ports of a combinational primitive are the terms of its truth tables. -/
theorem statedPorts_getTerms (signature : Signature) :
    (statedPorts (.word signature)).map (fun port => (port.direction, port.width)) =
      (NLDB0.getTerms signature).map (fun term => (term.direction, term.width)) := by
  cases signature <;> rfl

end Request

/-- A port of a design: a scalar, or a bus from `msb` down or up to `lsb`. -/
structure Port where
  name : String
  direction : Direction
  range : Option (Int × Int)
deriving DecidableEq, Repr

/-- `static_cast<NLID::Bit>`. -/
def toBit (n : Nat) : Int := (BitVec.ofNat 32 n).toInt

def StatedPort.create (port : StatedPort) : Port :=
  ⟨port.name, port.direction, port.bits.map (fun width => (toBit (width - 1), 0))⟩

/-- `std::abs(lsb - msb) + 1`; nothing when it overflows. -/
def Port.getWidth (port : Port) : Option Nat :=
  match port.range with
  | none => some 1
  | some (msb, lsb) => if (lsb - msb).natAbs + 1 ≤ maxBit then some ((lsb - msb).natAbs + 1) else none

namespace Request

def ports (x : Request) : List Port := x.statedPorts.map StatedPort.create

/-- Every stated width is a width that `getWidth` can return. -/
def Fits (x : Request) : Prop := ∀ width ∈ x.statedWidths, width ≤ maxBit

instance (x : Request) : Decidable x.Fits := inferInstanceAs (Decidable (∀ width ∈ x.statedWidths, width ≤ maxBit))

end Request

theorem toBit_small (n : Nat) (small : n ≤ maxBit) : toBit n = n := by
  unfold toBit
  rw [BitVec.toInt_ofNat', Int.bmod_eq_of_le]
  · unfold maxBit at small
    omega
  · unfold maxBit at small
    omega

theorem getWidth_create (port : StatedPort) (positive : 0 < port.width) :
    port.create.getWidth = some port.width ↔ port.width ≤ maxBit := by
  obtain ⟨name, direction, bits⟩ := port
  cases bits with
  | none =>
      have scalar : 1 ≤ maxBit := by decide
      exact iff_of_true rfl scalar
  | some width =>
      change 0 < width at positive
      change (if (0 - toBit (width - 1)).natAbs + 1 ≤ maxBit then some ((0 - toBit (width - 1)).natAbs + 1) else none) =
        some width ↔ width ≤ maxBit
      constructor
      · intro stated
        split at stated
        · next small =>
            rw [← Option.some.inj stated]
            exact small
        · contradiction
      · intro small
        have same : (0 - toBit (width - 1)).natAbs + 1 = width := by
          rw [toBit_small (width - 1) (by omega)]
          omega
        rw [same, if_pos small]

end Naja.Primitives.DB0
