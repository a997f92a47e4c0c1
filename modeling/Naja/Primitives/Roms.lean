import Naja.Netlist.Objects
import Naja.Primitives.Canonical
import Naja.Primitives.MemoryInit
import Naja.TruthTable.StorageRoundTrip

/-! Read-only memories: the instance that the writer makes of constant bits, and the table that the
reader makes of such an instance for one bit of its read data. -/

namespace Naja.Primitives.Roms
open Naja.Netlist (NetType)
open Naja.TruthTable (SNLTruthTable RomMetadata)
open Naja.TruthTable.BitDependencies (encodeBits decodeBits decodeBits_sorted mem_decodeBits_encodeBits countBitsForVector)
open DB0 MemoryInit
open NLDB0 (maxBit maxSize)
open Naja.Modeling (quote)

/-! ### Writing -/

/-- The width of a net is a bit ID. -/
structure Net where
  design : Nat
  width : Nat
  sized : width ≤ maxBit
deriving DecidableEq, Repr

structure BitNet where
  design : Nat
  type : NetType
deriving DecidableEq, Repr

namespace BitNet

def isConstant0 (bit : BitNet) : Bool := bit.type == .Assign0 || bit.type == .Supply0

def isConstant1 (bit : BitNet) : Bool := bit.type == .Assign1 || bit.type == .Supply1

def isConstantX (bit : BitNet) : Bool := bit.type == .AssignX

def isConstantZ (bit : BitNet) : Bool := bit.type == .AssignZ

def isConstant (bit : BitNet) : Bool := bit.isConstant0 || bit.isConstant1 || bit.isConstantX || bit.isConstantZ

def net (bit : BitNet) : Net := ⟨bit.design, 1, by decide⟩

def letter (bit : BitNet) : Char :=
  if bit.isConstant0 then '0' else if bit.isConstant1 then '1' else if bit.isConstantX then 'x' else 'z'

end BitNet

/-- A vector of bits, none of them null. -/
structure Bits where
  nets : List BitNet
  sized : nets.length ≤ maxSize
deriving DecidableEq, Repr

/-- The connections are the nets of `RADDR` by bit and that of `RDATA`. -/
structure Instance where
  library : Library
  model : Design
  parameters : List (String × String)
  readAddress : List BitNet
  readData : Net
deriving DecidableEq, Repr

def validNet (design : Nat) (net : Net) (width : Nat) : Bool := net.design == design && net.width == width

def validBits (design : Nat) (bits : List BitNet) : Bool := bits.all (fun bit => validNet design bit.net 1)

/-- The checks of `createROM`. -/
def romAccepted (design : Nat) (data address : Bits) (output : Net) : Bool :=
  !(output.width == 0 || !validNet design output output.width || data.nets.isEmpty || address.nets.isEmpty ||
    data.nets.length % output.width != 0 || !validBits design data.nets || !validBits design address.nets ||
    !data.nets.all BitNet.isConstant)

/-- The memory that `createROM` asks for. -/
def romSignature (data address : Bits) (output : Net) : MemorySignature :=
  ⟨output.width, data.nets.length / output.width, address.nets.length, 1, 0, .None, false,
    (Nat.div_le_self _ _).trans data.sized⟩

def copiedParameters : List String :=
  ["WIDTH", "DEPTH", "ABITS", "RD_PORTS", "WR_PORTS", "RST_ENABLE", "RST_ASYNC", "RST_ACTIVE_LOW"]

def copyParameters (model : Design) : Option (List (String × String)) :=
  copiedParameters.mapM (fun name => (model.data.parameters.lookup name).map (fun value => (name, value)))

/-- Nothing for an exception: a net is null, or a check fails, or the memory is not made. -/
def createROM (s : DB0) (design : Nat) (data address : Bits) (output : Option Net) : Option (DB0 × Instance) := do
  let output ← output
  if !romAccepted design data address output then none
  let contents := data.nets.reverse.map BitNet.letter
  let (s, model) ← getOrCreate s (.memory (romSignature data address output))
  let model ← model
  let parameters ← copyParameters model
  return (s, ⟨.Memory, model,
    parameters ++ [("INIT_ENABLE", "1"), ("INIT", memoryInit data.nets.length contents)], address.nets, output⟩)

/-! ### Reading -/

namespace Instance

/-- The parameter of the instance, else that of its model. -/
def getParameter (inst : Instance) (name : String) : Option String :=
  (inst.parameters.lookup name).or (inst.model.data.parameters.lookup name)

def getMemoryDecimalParameter (inst : Instance) (name : String) : Except String Nat :=
  match inst.getParameter name with
  | none => .error ("NLDB0 memory primitive is missing parameter " ++ name)
  | some value =>
      match stoull value with
      | some n => .ok n
      | none => .error "stoull"

def getBooleanParameter (inst : Instance) (name : String) : Except String Bool :=
  match inst.getParameter name with
  | none => .error ("NLDB0: missing boolean parameter " ++ name)
  | some value =>
      match parseBoolean value with
      | some b => .ok b
      | none => .error ("NLDB0: invalid boolean parameter " ++ name)

/-- The depth of a signature is what a `size_t` holds, which `stoull` returns. -/
def getMemorySignature (inst : Instance) : Except String MemorySignature := do
  if inst.library ≠ .Memory then throw "NLDB0::getMemorySignature: instance is not a memory primitive"
  let width ← inst.getMemoryDecimalParameter "WIDTH"
  let depth ← inst.getMemoryDecimalParameter "DEPTH"
  let abits ← inst.getMemoryDecimalParameter "ABITS"
  let readPorts ← inst.getMemoryDecimalParameter "RD_PORTS"
  let writePorts ← inst.getMemoryDecimalParameter "WR_PORTS"
  let independentWriteClocks ←
    if (inst.model.data.parameters.lookup "MULTI_CLOCK").isSome then inst.getBooleanParameter "MULTI_CLOCK" else .ok false
  let resetEnable ← inst.getBooleanParameter "RST_ENABLE"
  let resetAsync ← inst.getBooleanParameter "RST_ASYNC"
  let resetActiveLow ← inst.getBooleanParameter "RST_ACTIVE_LOW"
  if sized : depth ≤ maxSize then
    return ⟨width, depth, abits, readPorts, writePorts, getMemoryResetMode resetEnable resetAsync resetActiveLow,
      independentWriteClocks, sized⟩
  else throw "stoull"

end Instance

/-- The terms of a design: a term has the place of its port as its ID. -/
def getTerms (design : Design) : List Term :=
  design.data.ports.zipIdx.map (fun p => ⟨p.2, p.1.direction, p.1.getWidth.getD 0⟩)

def getBusTerm (design : Design) (name : String) : Option Term :=
  (design.data.ports.zipIdx.find? (fun p => p.1.name == name && p.1.range.isSome)).map
    (fun p => ⟨p.2, p.1.direction, p.1.getWidth.getD 0⟩)

def getOrderID (design : Design) (t : BitTerm) : Nat := orderID (bitTermsOf (getTerms design)) t

/-- The column of a lane; `depth` and `abits` are cast to 32 bits. -/
def romMetadata (signature : MemorySignature) (bits : List Bool) (lane : Nat) : RomMetadata :=
  { addressSize := signature.abits % 2 ^ 32, depth := signature.depth % 2 ^ 32,
    column := (List.range signature.depth).map (fun row => bits.getD (row * signature.width + lane) false) }

def romDependencies (design : Design) (raddr : Term) (signature : MemorySignature) (port : Nat) : List Nat :=
  (List.range signature.abits).map (fun k => getOrderID design (raddr.getBit (port * signature.abits + k)))

/-- What is left once the signature and the ports `RDATA` and `RADDR` are known. -/
def readRom (inst : Instance) (signature : MemorySignature) (rdata raddr : Term) (flatTermID : Nat) :
    Except String SNLTruthTable := do
  if signature.writePorts ≠ 0 then throw "NLDB0::getRomTruthTable: memory is not read-only"
  match (bitTermsOf (getTerms inst.model))[flatTermID]?.filter (fun term => term.id == rdata.id) with
  | none =>
      throw ("Term ID " ++ toString flatTermID ++ " is not a read-data bit in memory design <" ++ inst.model.name ++ ">")
  | some outputTerm =>
      if 64 ≤ signature.abits ∨ 2 ^ signature.abits < signature.depth then
        throw "NLDB0::getRomTruthTable: signature does not fit truth table metadata"
      let enabled ← inst.getBooleanParameter "INIT_ENABLE"
      if !enabled then return {}
      let bits ← decodeMemoryInitBits ((inst.getParameter "INIT").getD "") (signature.width * signature.depth % 2 ^ 64)
      match bits with
      | none => return {}
      | some bits =>
          SNLTruthTable.Rom (romMetadata signature bits (outputTerm.bit % signature.width))
            (encodeBits (romDependencies inst.model raddr signature (outputTerm.bit / signature.width)))

/-- A memory has a bus `RDATA`, a bus `RADDR` and the parameter `INIT`; the last branch is for null pointers. -/
def getRomTruthTable (inst : Instance) (flatTermID : Nat) : Except String SNLTruthTable := do
  if inst.library ≠ .Memory then throw "NLDB0::getRomTruthTable: instance is not a memory primitive"
  let signature ← inst.getMemorySignature
  match getBusTerm inst.model "RDATA", getBusTerm inst.model "RADDR" with
  | some rdata, some raddr => readRom inst signature rdata raddr flatTermID
  | _, _ => throw "NLDB0::getRomTruthTable: instance is not a memory primitive"

/-! ### The instance that was written -/

/-- An instance as `createROM` leaves it. -/
structure Built (inst : Instance) (data address : Bits) (output : Net) : Prop where
  library : inst.library = .Memory
  made : MadeFor inst.model (.memory (romSignature data address output))
  parameters : inst.parameters = (Request.memoryParameters (romSignature data address output)).take 8 ++
    [("INIT_ENABLE", "1"), ("INIT", memoryInit data.nets.length (data.nets.reverse.map BitNet.letter))]

theorem accepted_spec (design : Nat) (data address : Bits) (output : Net)
    (accepted : romAccepted design data address output = true) :
    0 < output.width ∧ 0 < data.nets.length ∧ 0 < address.nets.length ∧ output.width ∣ data.nets.length ∧
      ∀ bit ∈ data.nets, bit.isConstant = true := by
  simp only [romAccepted, Bool.not_eq_true', Bool.or_eq_false_iff, beq_eq_false_iff_ne, bne_eq_false_iff_eq,
    List.isEmpty_eq_false_iff, Bool.not_eq_false', List.all_eq_true] at accepted
  obtain ⟨⟨⟨⟨⟨⟨⟨width, -⟩, data_⟩, address_⟩, multiple⟩, -⟩, -⟩, constant⟩ := accepted
  exact ⟨Nat.pos_of_ne_zero width, List.length_pos_iff.mpr data_, List.length_pos_iff.mpr address_,
    Nat.dvd_of_mod_eq_zero multiple, constant⟩

theorem rom_fits (data address : Bits) (output : Net) (few : address.nets.length < 64) :
    (Request.memory (romSignature data address output)).Fits := by
  intro width stated
  have ports : (Request.memory (romSignature data address output)).statedWidths =
      [1 * address.nets.length, 1 * output.width] := rfl
  rw [ports] at stated
  have sized := output.sized
  simp only [List.mem_cons, List.not_mem_nil, or_false] at stated
  rcases stated with rfl | rfl
  · unfold maxBit
    omega
  · omega

theorem rom_request (design : Nat) (data address : Bits) (output : Net)
    (accepted : romAccepted design data address output = true) :
    (Request.memory (romSignature data address output)).accepted = true := by
  obtain ⟨width, data_, address_, multiple, -⟩ := accepted_spec design data address output accepted
  have depth : data.nets.length / output.width ≠ 0 :=
    Nat.ne_of_gt (Nat.div_pos (Nat.le_of_dvd data_ multiple) width)
  simp [Request.accepted, Request.memoryCheck, romSignature, Nat.ne_of_gt width, Nat.ne_of_gt address_, depth]

theorem createROM_built (design : Nat) (data address : Bits) (output : Net)
    (accepted : romAccepted design data address output = true) (few : address.nets.length < 64) (s : DB0)
    (reached : Reached s) (room : Room s (.memory (romSignature data address output))) :
    ∃ s' inst, createROM s design data address (some output) = some (s', inst) ∧ Built inst data address output := by
  obtain ⟨sound, present⟩ := reached.spec
  obtain ⟨s', model, returned, made, -⟩ := getOrCreate_returns s sound present _
    (rom_request design data address output accepted) (rom_fits data address output few) room
  have copied : copyParameters model = some ((Request.memoryParameters (romSignature data address output)).take 8) := by
    unfold copyParameters
    rw [made.data]
    rfl
  refine ⟨s', ⟨.Memory, model, (Request.memoryParameters (romSignature data address output)).take 8 ++
    [("INIT_ENABLE", "1"), ("INIT", memoryInit data.nets.length (data.nets.reverse.map BitNet.letter))], address.nets,
    output⟩, ?_, rfl, made, rfl⟩
  simp [createROM, accepted, returned, copied]

theorem boolean_of_lookup (inst : Instance) (name : String) (b : Bool)
    (found : inst.parameters.lookup name = some (NLDB0.boolDigit b)) : inst.getBooleanParameter name = .ok b := by
  unfold Instance.getBooleanParameter Instance.getParameter
  rw [found, Option.some_or]
  simp only [parseBoolean_boolDigit b]

def raddrTerm (address : Bits) : Term := ⟨0, .Input, address.nets.length⟩

def rdataTerm (output : Net) : Term := ⟨1, .Output, output.width⟩

section built
variable {inst : Instance} {data address : Bits} {output : Net} (built : Built inst data address output)
include built

/-- The parameters of the instance are those of the model but for the contents. -/
theorem Built.decimal (name : String) (n : Nat)
    (found : ((Request.memoryParameters (romSignature data address output)).take 8).lookup name = some (toString n))
    (small : n ≤ maxSize) : inst.getMemoryDecimalParameter name = .ok n := by
  have given : inst.getParameter name = some (toString n) := by
    unfold Instance.getParameter
    rw [built.parameters, List.lookup_append, found]
    rfl
  unfold Instance.getMemoryDecimalParameter
  rw [given]
  simp only [stoull_toString n small]

theorem Built.signature (few : address.nets.length < 64) :
    inst.getMemorySignature = .ok (romSignature data address output) := by
  have depth : data.nets.length / output.width ≤ maxSize := (romSignature data address output).sized
  have width : output.width ≤ maxSize := maxSize_of_maxBit _ output.sized
  have bits : address.nets.length ≤ maxSize := by
    unfold maxSize
    omega
  unfold Instance.getMemorySignature
  rw [built.library, built.decimal "WIDTH" output.width rfl width,
    built.decimal "DEPTH" (data.nets.length / output.width) rfl depth,
    built.decimal "ABITS" address.nets.length rfl bits, built.decimal "RD_PORTS" 1 rfl (by decide),
    built.decimal "WR_PORTS" 0 rfl (by decide),
    boolean_of_lookup inst "RST_ENABLE" false (by rw [built.parameters]; rfl),
    boolean_of_lookup inst "RST_ASYNC" false (by rw [built.parameters]; rfl),
    boolean_of_lookup inst "RST_ACTIVE_LOW" false (by rw [built.parameters]; rfl), built.made.data]
  change (if sized : data.nets.length / output.width ≤ maxSize then _ else _) = _
  rw [dif_pos depth]
  rfl

theorem Built.ports : inst.model.data.ports =
    [(busIn "RADDR" (1 * address.nets.length)).create, (busOut "RDATA" (1 * output.width)).create] := by
  rw [built.made.data]
  rfl

theorem Built.widths (wide : 0 < output.width) (addressed : 0 < address.nets.length) (few : address.nets.length < 64) :
    (busIn "RADDR" (1 * address.nets.length)).create.getWidth = some address.nets.length ∧
      (busOut "RDATA" (1 * output.width)).create.getWidth = some output.width := by
  have fits := built.made.fits
  have sized := output.sized
  have small : 1 * address.nets.length ≤ maxBit := by
    unfold maxBit
    omega
  constructor
  · have width := (getWidth_create (busIn "RADDR" (1 * address.nets.length)) (by simpa [StatedPort.width, busIn])).mpr small
    simpa [StatedPort.width, busIn] using width
  · have width := (getWidth_create (busOut "RDATA" (1 * output.width)) (by simpa [StatedPort.width, busOut])).mpr
      (by simpa [StatedPort.width, busOut] using sized)
    simpa [StatedPort.width, busOut] using width

theorem Built.terms (wide : 0 < output.width) (addressed : 0 < address.nets.length) (few : address.nets.length < 64) :
    getTerms inst.model = [raddrTerm address, rdataTerm output] ∧
      getBusTerm inst.model "RADDR" = some (raddrTerm address) ∧ getBusTerm inst.model "RDATA" = some (rdataTerm output) := by
  obtain ⟨raddr, rdata⟩ := built.widths wide addressed few
  unfold getTerms getBusTerm
  rw [built.ports]
  refine ⟨?_, ?_, ?_⟩
  · change [(⟨0, .Input, (busIn "RADDR" (1 * address.nets.length)).create.getWidth.getD 0⟩ : Term),
      ⟨1, .Output, (busOut "RDATA" (1 * output.width)).create.getWidth.getD 0⟩] = _
    rw [raddr, rdata]
    rfl
  · change some (⟨0, .Input, (busIn "RADDR" (1 * address.nets.length)).create.getWidth.getD 0⟩ : Term) = _
    rw [raddr]
    rfl
  · change some (⟨1, .Output, (busOut "RDATA" (1 * output.width)).create.getWidth.getD 0⟩ : Term) = _
    rw [rdata]
    rfl

end built

/-! ### The table -/

def romTerms (address : Bits) (output : Net) : List BitTerm := bitTermsOf [raddrTerm address, rdataTerm output]

theorem mem_romTerms (address : Bits) (output : Net) :
    (∀ k < address.nets.length, (raddrTerm address).getBit k ∈ romTerms address output) ∧
      ∀ j < output.width, (rdataTerm output).getBit j ∈ romTerms address output := by
  constructor
  · intro k inside
    exact List.mem_flatMap.mpr ⟨_, List.mem_cons_self, Term.getBit_mem _ k inside⟩
  · intro j inside
    exact List.mem_flatMap.mpr ⟨_, List.mem_cons_of_mem _ List.mem_cons_self, Term.getBit_mem _ j inside⟩

/-- The order IDs of the read address, one for each bit. -/
theorem addressIDs_nodup (address : Bits) (output : Net) :
    ((List.range address.nets.length).map
      (fun k => orderID (romTerms address output) ((raddrTerm address).getBit k))).Nodup := by
  refine List.Nodup.map_on ?_ List.nodup_range
  intro k inK k' inK' same
  have there := (mem_romTerms address output).1
  have bits := orderID_injective _ _ _ (there k (List.mem_range.mp inK)) (there k' (List.mem_range.mp inK')) same
  exact congrArg BitTerm.bit bits

theorem count_encodeBits (positions : List Nat) (nodup : positions.Nodup) :
    countBitsForVector (encodeBits positions) = positions.length := by
  have sorted := decodeBits_sorted (encodeBits positions)
  have perm : (decodeBits (encodeBits positions)).Perm positions :=
    (List.perm_ext_iff_of_nodup (sorted.imp Nat.ne_of_lt) nodup).mpr (mem_decodeBits_encodeBits positions)
  rw [← TruthTable.StorageRoundTrip.length_decodeBits, perm.length_eq]

/-- The metadata are valid when the depth was not cut. -/
theorem rom_table (rom : RomMetadata) (dependencies : List Nat) (nodup : dependencies.Nodup)
    (count : dependencies.length = rom.addressSize) (positive : 0 < rom.addressSize) (few : rom.addressSize < 64) :
    (rom.column.length = rom.depth → 0 < rom.depth → rom.depth ≤ 2 ^ rom.addressSize →
      SNLTruthTable.Rom rom (encodeBits dependencies) =
        .ok { size := rom.addressSize, dependencies := encodeBits dependencies, genericType := .ROM, rom := rom }) ∧
    (rom.column.length ≠ rom.depth → ∃ message, SNLTruthTable.Rom rom (encodeBits dependencies) = .error message) := by
  have counted : countBitsForVector (encodeBits dependencies) = rom.addressSize := by
    rw [count_encodeBits dependencies nodup, count]
  constructor
  · intro column depth fits
    simp [SNLTruthTable.Rom, counted, SNLTruthTable.validateGenericMetadata, SNLTruthTable.invalidRom, column,
      Nat.ne_of_gt positive, Nat.ne_of_gt depth, Nat.not_le.mpr few, Nat.not_lt.mpr fits, bind, Except.bind, pure, Except.pure]
  · intro column
    refine ⟨"Invalid ROM truth table metadata", ?_⟩
    simp [SNLTruthTable.Rom, counted, SNLTruthTable.validateGenericMetadata, SNLTruthTable.invalidRom, column, bind,
      Except.bind]

/-- A bit of the read data, with contents that are in use. -/
theorem readRom_found (inst : Instance) (signature : MemorySignature) (rdata raddr : Term) (flatTermID : Nat)
    (term : BitTerm) (init : String) (count lane port : Nat) (readOnly : signature.writePorts = 0)
    (found : (bitTermsOf (getTerms inst.model))[flatTermID]? = some term) (data : term.id = rdata.id)
    (fits : ¬(64 ≤ signature.abits ∨ 2 ^ signature.abits < signature.depth))
    (enabled : inst.getBooleanParameter "INIT_ENABLE" = .ok true) (given : inst.getParameter "INIT" = some init)
    (size : signature.width * signature.depth % 2 ^ 64 = count) (inLane : term.bit % signature.width = lane)
    (atPort : term.bit / signature.width = port) :
    readRom inst signature rdata raddr flatTermID =
      match decodeMemoryInitBits init count with
      | .error message => .error message
      | .ok none => .ok {}
      | .ok (some bits) =>
          SNLTruthTable.Rom (romMetadata signature bits lane) (encodeBits (romDependencies inst.model raddr signature port)) := by
  subst count lane port
  have kept : (some term).filter (fun term => term.id == rdata.id) = some term := by simp [data]
  unfold readRom
  rw [if_neg (not_not.mpr readOnly), found, kept, enabled, given]
  simp only [if_neg fits, Option.getD_some]
  cases decodeMemoryInitBits init (signature.width * signature.depth % 2 ^ 64) with
  | error message => rfl
  | ok bits => cases bits <;> rfl

/-! ### Contents -/

/-- A constant that is 0 or 1. -/
def BitNet.isKnown (bit : BitNet) : Bool := bit.isConstant0 || bit.isConstant1

theorem letter_spec (bit : BitNet) (constant : bit.isConstant = true) :
    (bit.letter = '0' ∨ bit.letter = '1' ∨ bit.letter = 'x' ∨ bit.letter = 'z') ∧ isUnknown bit.letter = !bit.isKnown ∧
      isOne bit.letter = bit.isConstant1 := by
  obtain ⟨design, type⟩ := bit
  cases type with
  | Standard => contradiction
  | _ =>
      simp [BitNet.letter, BitNet.isConstant0, BitNet.isConstant1, BitNet.isConstantX, BitNet.isKnown, isUnknown, isOne]

theorem decode_contents (data : List BitNet) (constant : ∀ bit ∈ data, bit.isConstant = true) :
    decodeMemoryInitBits (memoryInit data.length (data.reverse.map BitNet.letter)) data.length =
      if data.all BitNet.isKnown then .ok (some (data.map BitNet.isConstant1)) else .ok none := by
  by_cases known : data.all BitNet.isKnown = true
  · rw [if_pos known]
    rw [List.all_eq_true] at known
    have binary : ∀ c ∈ data.reverse.map BitNet.letter, isUnknown c = false := by
      intro c member
      obtain ⟨bit, inside, rfl⟩ := List.mem_map.mp member
      have there := List.mem_reverse.mp inside
      rw [(letter_spec bit (constant bit there)).2.1, known bit there]
      rfl
    have read := decode_known data.length (data.reverse.map BitNet.letter) binary
    rw [List.length_map, List.length_reverse] at read
    rw [read, ← List.map_reverse, List.reverse_reverse, List.map_map]
    congr 2
    refine List.map_congr_left ?_
    intro bit there
    exact (letter_spec bit (constant bit there)).2.2
  · rw [if_neg known]
    simp only [List.all_eq_true, not_forall] at known
    obtain ⟨bit, there, unknown⟩ := known
    refine decode_unknown data.length data.length (data.reverse.map BitNet.letter) ?_ ?_
    · intro c member
      obtain ⟨bit, inside, rfl⟩ := List.mem_map.mp member
      exact (letter_spec bit (constant bit (List.mem_reverse.mp inside))).1
    · refine ⟨bit.letter, List.mem_map_of_mem (List.mem_reverse.mpr there), ?_⟩
      rw [(letter_spec bit (constant bit there)).2.1]
      simpa using unknown

section built
variable {inst : Instance} {data address : Bits} {output : Net} (built : Built inst data address output)
  (wide : 0 < output.width) (addressed : 0 < address.nets.length) (few : address.nets.length < 64)
  (multiple : output.width ∣ data.nets.length) (fits : data.nets.length / output.width ≤ 2 ^ address.nets.length)
  (constant : ∀ bit ∈ data.nets, bit.isConstant = true) (j : Nat) (inside : j < output.width)
include built wide addressed few multiple fits constant inside

/-- What the reader makes of the instance for one bit of the read data. -/
theorem Built.getRomTruthTable_eq :
    getRomTruthTable inst (orderID (romTerms address output) ((rdataTerm output).getBit j)) =
      if data.nets.all BitNet.isKnown then
        SNLTruthTable.Rom (romMetadata (romSignature data address output) (data.nets.map BitNet.isConstant1) j)
          (encodeBits ((List.range address.nets.length).map
            (fun k => orderID (romTerms address output) ((raddrTerm address).getBit k))))
      else .ok {} := by
  obtain ⟨terms, raddr, rdata⟩ := built.terms wide addressed few
  have bits : bitTermsOf (getTerms inst.model) = romTerms address output := by
    rw [terms]
    rfl
  have there : (romTerms address output)[orderID (romTerms address output) ((rdataTerm output).getBit j)]? =
      some ((rdataTerm output).getBit j) := getElem?_orderID _ _ ((mem_romTerms address output).2 j inside)
  have enabled : inst.getBooleanParameter "INIT_ENABLE" = .ok true :=
    boolean_of_lookup inst "INIT_ENABLE" true (by rw [built.parameters]; rfl)
  have init : inst.getParameter "INIT" = some (memoryInit data.nets.length (data.nets.reverse.map BitNet.letter)) := by
    unfold Instance.getParameter
    rw [built.parameters]
    rfl
  have count : output.width * (data.nets.length / output.width) % 2 ^ 64 = data.nets.length := by
    have sized := data.sized
    unfold maxSize at sized
    rw [Nat.mul_div_cancel' multiple, Nat.mod_eq_of_lt (by omega)]
  have depth : ¬(64 ≤ address.nets.length ∨ 2 ^ address.nets.length < data.nets.length / output.width) := by omega
  have lane : j % output.width = j := Nat.mod_eq_of_lt inside
  have port : j / output.width = 0 := Nat.div_eq_of_lt inside
  have dependencies : romDependencies inst.model (raddrTerm address) (romSignature data address output) 0 =
      (List.range address.nets.length).map
        (fun k => orderID (romTerms address output) ((raddrTerm address).getBit k)) := by
    unfold romDependencies getOrderID
    rw [bits]
    refine List.map_congr_left ?_
    intro k _
    rw [Nat.zero_mul, Nat.zero_add]
  rw [← bits] at there
  unfold getRomTruthTable
  rw [built.library, built.signature few, raddr, rdata]
  change readRom inst (romSignature data address output) (rdataTerm output) (raddrTerm address) _ = _
  rw [← bits, readRom_found inst (romSignature data address output) (rdataTerm output) (raddrTerm address) _ _ _ _ _ _
    rfl there rfl depth enabled init count lane port, dependencies, decode_contents data.nets constant, bits]
  by_cases known : data.nets.all BitNet.isKnown = true
  · rw [if_pos known, if_pos known]
  · rw [if_neg known, if_neg known]

end built

/-! ### What survives -/

/-- The order ID of a bit of a bus of the model. -/
def Instance.orderIDOf (inst : Instance) (name : String) (bit : Nat) : Option Nat :=
  (getBusTerm inst.model name).map (fun term => getOrderID inst.model (term.getBit bit))

/-- A ROM table of one bit of every row, that depends on the bits of the read address. -/
structure HoldsColumn (inst : Instance) (data : List BitNet) (width abits j : Nat) (table : SNLTruthTable) : Prop where
  rom : table.genericType = .ROM
  rows : table.rom.column.length = data.length / width
  column : ∀ row < data.length / width, table.rom.column[row]? = data[row * width + j]?.map BitNet.isConstant1
  dependencies : ∀ position, position ∈ decodeBits table.dependencies ↔
    ∃ k < abits, inst.orderIDOf "RADDR" k = some position

/-- The contents of an instance are those it was made of. -/
structure Survives (inst : Instance) (data : List BitNet) (width abits : Nat) : Prop where
  known : (∀ bit ∈ data, bit.isKnown = true) → ∀ j < width, ∃ flatTermID table,
    inst.orderIDOf "RDATA" j = some flatTermID ∧ getRomTruthTable inst flatTermID = .ok table ∧
      HoldsColumn inst data width abits j table
  unknown : (∃ bit ∈ data, bit.isKnown = false) → ∀ j < width, ∃ flatTermID table,
    inst.orderIDOf "RDATA" j = some flatTermID ∧ getRomTruthTable inst flatTermID = .ok table ∧
      table.isInitialized = false

/-- Every literal without unknown digits is read for its bits. -/
def LiteralsRead : Prop :=
  ∀ front letter digits count, quote ∉ front → digitBits letter.toLower ≠ 0 → (∀ c ∈ digits, ¬ Unknown c) →
    Decoded front letter digits count

theorem literals_read : LiteralsRead := fun front letter digits count plain supported known =>
  decoded front plain letter supported digits known count

section built
variable {inst : Instance} {data address : Bits} {output : Net} (built : Built inst data address output)
  (wide : 0 < output.width) (addressed : 0 < address.nets.length) (few : address.nets.length < 64)
include built wide addressed few

theorem Built.orderIDs (bit : Nat) :
    inst.orderIDOf "RADDR" bit = some (orderID (romTerms address output) ((raddrTerm address).getBit bit)) ∧
      inst.orderIDOf "RDATA" bit = some (orderID (romTerms address output) ((rdataTerm output).getBit bit)) := by
  obtain ⟨terms, raddr, rdata⟩ := built.terms wide addressed few
  unfold Instance.orderIDOf getOrderID
  rw [raddr, rdata, terms]
  exact ⟨rfl, rfl⟩

variable (multiple : output.width ∣ data.nets.length) (fits : data.nets.length / output.width ≤ 2 ^ address.nets.length)
  (filled : 0 < data.nets.length) (constant : ∀ bit ∈ data.nets, bit.isConstant = true)
include multiple fits filled constant

/-- The depth of the table is what 32 bits leave of it. -/
theorem Built.known_iff (j : Nat) (inside : j < output.width) (known : ∀ bit ∈ data.nets, bit.isKnown = true) :
    (∃ flatTermID table, inst.orderIDOf "RDATA" j = some flatTermID ∧ getRomTruthTable inst flatTermID = .ok table ∧
      HoldsColumn inst data.nets output.width address.nets.length j table) ↔
      data.nets.length / output.width < 2 ^ 32 := by
  have read := built.getRomTruthTable_eq wide addressed few multiple fits constant j inside
  rw [if_pos (List.all_eq_true.mpr known)] at read
  have positive : 0 < data.nets.length / output.width := Nat.div_pos (Nat.le_of_dvd filled multiple) wide
  have size : (romMetadata (romSignature data address output) (data.nets.map BitNet.isConstant1) j).addressSize =
      address.nets.length := Nat.mod_eq_of_lt (few.trans (by decide))
  have rows : (romMetadata (romSignature data address output) (data.nets.map BitNet.isConstant1) j).column.length =
      data.nets.length / output.width := by simp [romMetadata, romSignature]
  have cut : (romMetadata (romSignature data address output) (data.nets.map BitNet.isConstant1) j).depth =
      data.nets.length / output.width % 2 ^ 32 := rfl
  obtain ⟨accepts, refuses⟩ := rom_table (romMetadata (romSignature data address output)
    (data.nets.map BitNet.isConstant1) j) _ (addressIDs_nodup address output) (by simp [size]) (by omega) (by omega)
  constructor
  · rintro ⟨flatTermID, table, given, made, -⟩
    rw [(built.orderIDs wide addressed few j).2] at given
    obtain rfl := Option.some.inj given
    by_contra deep
    obtain ⟨message, refused⟩ := refuses (by omega)
    rw [read, refused] at made
    contradiction
  · intro shallow
    refine ⟨_, _, (built.orderIDs wide addressed few j).2,
      read.trans (accepts (by omega) (by omega) (by rw [cut, size, Nat.mod_eq_of_lt shallow]; exact fits)), rfl, rows, ?_, ?_⟩
    · intro row below
      have within : row * output.width + j < data.nets.length := by
        have next : (row + 1) * output.width ≤ data.nets.length / output.width * output.width :=
          Nat.mul_le_mul_right _ below
        rw [Nat.div_mul_cancel multiple, Nat.succ_mul] at next
        omega
      simp [romMetadata, romSignature, below, within, List.getD_eq_getElem?_getD]
    · intro position
      change position ∈ decodeBits (encodeBits _) ↔ _
      rw [mem_decodeBits_encodeBits]
      simp only [List.mem_map, List.mem_range]
      constructor
      · rintro ⟨k, bound, rfl⟩
        exact ⟨k, bound, (built.orderIDs wide addressed few k).1⟩
      · rintro ⟨k, bound, given⟩
        rw [(built.orderIDs wide addressed few k).1] at given
        exact ⟨k, bound, Option.some.inj given⟩

theorem Built.survives_iff :
    Survives inst data.nets output.width address.nets.length ↔
      (∃ bit ∈ data.nets, bit.isKnown = false) ∨ data.nets.length / output.width < 2 ^ 32 := by
  constructor
  · intro survives
    by_cases known : ∀ bit ∈ data.nets, bit.isKnown = true
    · exact Or.inr ((built.known_iff wide addressed few multiple fits filled constant 0 wide known).mp
        (survives.known known 0 wide))
    · push Not at known
      obtain ⟨bit, there, unknown⟩ := known
      exact Or.inl ⟨bit, there, by simpa using unknown⟩
  · intro condition
    constructor
    · intro known j inside
      rcases condition with ⟨bit, there, unknown⟩ | shallow
      · rw [known bit there] at unknown
        contradiction
      · exact (built.known_iff wide addressed few multiple fits filled constant j inside known).mpr shallow
    · rintro ⟨bit, there, unknown⟩ j inside
      have read := built.getRomTruthTable_eq wide addressed few multiple fits constant j inside
      have notAll : ¬ data.nets.all BitNet.isKnown = true := by
        intro all
        rw [List.all_eq_true.mp all bit there] at unknown
        contradiction
      rw [if_neg notAll] at read
      exact ⟨_, _, (built.orderIDs wide addressed few j).2, read, by decide⟩

end built

/-- The contents survive when a bit is unknown or the rows are fewer than 2 ^ 32. -/
theorem createROM_survives (s : DB0) (reached : Reached s) (design : Nat) (data address : Bits) (output : Net)
    (accepted : romAccepted design data address output = true) (few : address.nets.length < 64)
    (fits : data.nets.length / output.width ≤ 2 ^ address.nets.length)
    (room : Room s (.memory (romSignature data address output))) :
    ∃ s' inst, createROM s design data address (some output) = some (s', inst) ∧
      (Survives inst data.nets output.width address.nets.length ↔
        (∃ bit ∈ data.nets, bit.isKnown = false) ∨ data.nets.length / output.width < 2 ^ 32) := by
  obtain ⟨s', inst, created, built⟩ := createROM_built design data address output accepted few s reached room
  obtain ⟨wide, filled, addressed, multiple, constant⟩ := accepted_spec design data address output accepted
  exact ⟨s', inst, created, built.survives_iff wide addressed few multiple fits filled constant⟩

theorem rom_contents_iff (s : DB0) (reached : Reached s) (design : Nat) (data address : Bits) (output : Net)
    (accepted : romAccepted design data address output = true) (few : address.nets.length < 64)
    (fits : data.nets.length / output.width ≤ 2 ^ address.nets.length)
    (room : Room s (.memory (romSignature data address output))) :
    ∃ s' inst, createROM s design data address (some output) = some (s', inst) ∧
      ((Survives inst data.nets output.width address.nets.length ∧ LiteralsRead) ↔
        (∃ bit ∈ data.nets, bit.isKnown = false) ∨ data.nets.length / output.width < 2 ^ 32) := by
  obtain ⟨s', inst, created, survives⟩ := createROM_survives s reached design data address output accepted few fits room
  refine ⟨s', inst, created, ?_⟩
  rw [← survives]
  exact and_iff_left literals_read

/-- Three rows of two bits. -/
def threeRows : Bits :=
  ⟨[⟨7, .Assign1⟩, ⟨7, .Assign0⟩, ⟨7, .Supply0⟩, ⟨7, .Supply1⟩, ⟨7, .Assign1⟩, ⟨7, .Assign1⟩], by decide⟩

def twoAddresses : Bits := ⟨[⟨7, .Standard⟩, ⟨7, .Standard⟩], by decide⟩

def pairOutput : Net := ⟨7, 2, by decide⟩

theorem threeRows_survive :
    ∃ s' inst, createROM DB0.create 7 threeRows twoAddresses (some pairOutput) = some (s', inst) ∧
      Survives inst threeRows.nets 2 2 := by
  obtain ⟨s', inst, created, survives⟩ := rom_contents_iff DB0.create Later.here 7 threeRows twoAddresses pairOutput
    (by decide +kernel) (by decide) (by decide) (room_create _)
  exact ⟨s', inst, created, (survives.mpr (Or.inr (by decide))).1⟩

/-- Rows of one bit that are all 0. -/
def zeroRows (rows : Nat) (small : rows ≤ maxSize) : Bits := ⟨List.replicate rows ⟨7, .Assign0⟩, by simpa using small⟩

def freeAddress (bits : Nat) (few : bits < 64) : Bits :=
  ⟨List.replicate bits ⟨7, .Standard⟩, by
    unfold maxSize
    rw [List.length_replicate]
    omega⟩

def bitOutput : Net := ⟨7, 1, by decide⟩

theorem zeroRows_accepted (rows : Nat) (small : rows ≤ maxSize) (bits : Nat) (few : bits < 64) (filled : 0 < rows)
    (addressed : 0 < bits) : romAccepted 7 (zeroRows rows small) (freeAddress bits few) bitOutput = true := by
  simp [romAccepted, zeroRows, freeAddress, bitOutput, validNet, validBits, BitNet.net, BitNet.isConstant,
    BitNet.isConstant0, Nat.mod_one, Nat.ne_of_gt filled, Nat.ne_of_gt addressed]

theorem zeroRows_lost (rows : Nat) (small : rows ≤ maxSize) (bits : Nat) (few : bits < 64) (addressed : 0 < bits)
    (fits : rows ≤ 2 ^ bits) (deep : 2 ^ 32 ≤ rows) :
    ∃ s' inst, createROM DB0.create 7 (zeroRows rows small) (freeAddress bits few) (some bitOutput) = some (s', inst) ∧
      ¬ Survives inst (zeroRows rows small).nets 1 bits := by
  have data : (zeroRows rows small).nets.length = rows := List.length_replicate
  have address : (freeAddress bits few).nets.length = bits := List.length_replicate
  obtain ⟨s', inst, created, survives⟩ := createROM_survives DB0.create Later.here 7 (zeroRows rows small)
    (freeAddress bits few) bitOutput (zeroRows_accepted rows small bits few (by omega) addressed) (by omega)
    (by rw [data, address]; exact (Nat.div_le_self _ _).trans fits) (room_create _)
  refine ⟨s', inst, created, ?_⟩
  rw [address] at survives
  rw [show (1 : Nat) = bitOutput.width from rfl, survives, data]
  rintro (⟨bit, there, unknown⟩ | shallow)
  · rw [List.eq_of_mem_replicate there] at unknown
    contradiction
  · rw [show bitOutput.width = 1 from rfl, Nat.div_one] at shallow
    omega

/-- A memory of 2 ^ 32 rows: its depth is 0 in 32 bits, and the reader throws. -/
theorem deepRom_lost :
    ¬ ∀ s, Reached s → ∀ design data address output, romAccepted design data address output = true →
      address.nets.length < 64 → data.nets.length / output.width ≤ 2 ^ address.nets.length →
      Room s (.memory (romSignature data address output)) →
      ∃ s' inst, createROM s design data address (some output) = some (s', inst) ∧
        Survives inst data.nets output.width address.nets.length ∧ LiteralsRead := by
  intro all
  have refuted (rows : Nat) (small : rows ≤ maxSize) (bits : Nat) (few : bits < 64) (addressed : 0 < bits)
      (fits : rows ≤ 2 ^ bits) (deep : 2 ^ 32 ≤ rows) : False := by
    have address : (freeAddress bits few).nets.length = bits := List.length_replicate
    have data : (zeroRows rows small).nets.length = rows := List.length_replicate
    obtain ⟨s', inst, created, lost⟩ := zeroRows_lost rows small bits few addressed fits deep
    obtain ⟨s₂, inst₂, created₂, survives, -⟩ := all DB0.create Later.here 7 (zeroRows rows small) (freeAddress bits few)
      bitOutput (zeroRows_accepted rows small bits few (by omega) addressed) (by omega)
      (by rw [data, address]; exact (Nat.div_le_self _ _).trans fits) (room_create _)
    rw [created] at created₂
    obtain ⟨-, rfl⟩ := Prod.mk.inj (Option.some.inj created₂)
    rw [address] at survives
    exact lost survives
  exact refuted (2 ^ 32) (by decide) 32 (by decide) (by decide) (Nat.le_refl _) (Nat.le_refl _)

end Naja.Primitives.Roms
