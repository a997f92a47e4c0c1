import Naja.Verilog.Naming
import Mathlib.Data.List.SplitBy

/-! Connections of instance ports. A window collects consecutive bits, constants or
bits of one bus, and is written as a literal, a part-select or single bits when a bit
of another kind comes. What is pending and what is written always cover the bits
seen so far. -/

namespace Naja.Verilog
open Netlist (NetType)

/-! ### Ranges of a bus -/

def getCanonicalRangeStep (bus : BusNet) : Int := if bus.msb > bus.lsb then -1 else 1

def isCanonicalFrom (bus : BusNet) : BusNetBit → List BusNetBit → Bool
  | _, [] => true
  | previous, current :: rest =>
      current.bus == bus && current.bit - previous.bit == getCanonicalRangeStep bus && isCanonicalFrom bus current rest

def isCanonicalBusRangeOrder : List BusNetBit → Bool
  | [] => true
  | first :: rest => isCanonicalFrom first.bus first rest

/-- A range in the order of its bus, from its first to its last bit. -/
def rangeExpression (naming : Naming) (first last : BusNetBit) : Expression :=
  let name := getNetName naming (.bus first.bus)
  if first.bit = first.bus.msb ∧ last.bit = first.bus.lsb then .name name
  else if first.bit = last.bit then .select name first.bit
  else .range name first.bit last.bit

/-! ### Constants -/

def getAssignConstantBitValue : NetType → Except String Char
  | .Assign0 => .ok '0'
  | .Assign1 => .ok '1'
  | .AssignX => .ok 'x'
  | .AssignZ => .ok 'z'
  | _ => .error "ERROR"

def hexDigits : List Char := "0123456789ABCDEF".toList

/-- The digit of four binary ones. -/
def hexDigit (a b c d : Char) : Except String Char :=
  if [a, b, c, d].all (fun bit => bit == '0' || bit == '1') then
    .ok (hexDigits.getD (8 * (a == '1').toNat + 4 * (b == '1').toNat + 2 * (c == '1').toNat + (d == '1').toNat) '0')
  else .error ("Error in binary to hexadecimal conversion: " ++ String.ofList [a, b, c, d] ++ " is not a convertible binary.")

def hexDigitsOf : List Char → Except String (List Char)
  | a :: b :: c :: d :: rest =>
      match hexDigit a b c d, hexDigitsOf rest with
      | .ok digit, .ok digits => .ok (digit :: digits)
      | .error e, _ => .error e
      | _, .error e => .error e
  | _ => .ok []

/-- Zeros are put in front to fill the last group of four. -/
def binStrToHexStr (binStr : List Char) : Except String (List Char) :=
  hexDigitsOf (List.replicate ((4 - binStr.length % 4) % 4) '0' ++ binStr)

def constantChars : List NetType → Except String (List Char)
  | [] => .ok []
  | type :: types =>
      match getAssignConstantBitValue type, constantChars types with
      | .ok c, .ok cs => .ok (c :: cs)
      | .error e, _ => .error e
      | _, .error e => .error e

/-- `dumpConstantRange`: short constants and those with `x` or `z` in binary, the others in hexadecimal. -/
def constantNumber (types : List NetType) : Except String BasedNumber :=
  match constantChars types with
  | .error e => .error e
  | .ok constantStr =>
      if constantStr.length < 4 || constantStr.any (fun c => c == 'x' || c == 'z') then
        .ok ⟨true, types.length, false, .BINARY, constantStr⟩
      else (binStrToHexStr constantStr).map (fun digits => ⟨true, types.length, false, .HEX, digits⟩)

/-! ### The connection -/

structure ConnectionState where
  contiguousBits : List BitNet := []
  firstElement : Bool := true
  concatenation : Bool := false
  connection : List Expression := []

/-- The separator before an element. -/
def ConnectionState.separate (s : ConnectionState) : ConnectionState :=
  if s.firstElement then { s with firstElement := false } else { s with concatenation := true }

def BitNet.asBusBit : BitNet → Option BusNetBit
  | .scalar _ => none
  | .busBit b => some b

/-- `dumpRangeWithNaming` -/
def dumpRange (naming : Naming) (s : ConnectionState) : Except String ConnectionState :=
  match s.contiguousBits with
  | [] => .ok s
  | first :: _ =>
      if first.isAssignConstant then
        (constantNumber (s.contiguousBits.map BitNet.type)).map (fun number =>
          let s := s.separate
          { s with connection := s.connection ++ [.literal number], contiguousBits := [] })
      else
        let bits := s.contiguousBits.filterMap BitNet.asBusBit
        let s := s.separate
        if !isCanonicalBusRangeOrder bits then
          .ok { s with
            concatenation := true
            connection := s.connection ++ bits.map (fun b => .select (getNetName naming (.bus b.bus)) b.bit)
            contiguousBits := [] }
        else
          match bits.head?, bits.getLast? with
          | some rangeMSB, some rangeLSB =>
              .ok { s with connection := s.connection ++ [rangeExpression naming rangeMSB rangeLSB], contiguousBits := [] }
          | _, _ => .ok { s with contiguousBits := [] }

/-- Write the window and an element of its own. -/
def dumpElement (naming : Naming) (s : ConnectionState) (e : Expression) : Except String ConnectionState :=
  (dumpRange naming s).map (fun s =>
    let s := s.separate
    { s with connection := s.connection ++ [e] })

/-- The bit goes on with the window. -/
def continues (s : ConnectionState) (net : BitNet) : Bool :=
  match s.contiguousBits.getLast? with
  | none => true
  | some previous =>
      if net.isAssignConstant then previous.isAssignConstant
      else
        match net, previous with
        | .busBit b, .busBit p =>
            !previous.isAssignConstant && b.bus == p.bus && (p.bit == b.bit + 1 || p.bit == b.bit - 1)
        | _, _ => false

/-- One bit of the port. -/
def dumpBit (naming : Naming) (s : ConnectionState) (t : InstTerm) : Except String ConnectionState :=
  match t.net with
  | none => dumpElement naming s (.name (getUnusedWireName naming t))
  | some net =>
      match net.isAssignConstant, net with
      | false, .scalar scalar => dumpElement naming s (.name (getNetName naming (.scalar scalar)))
      | _, _ =>
          if continues s net then .ok { s with contiguousBits := s.contiguousBits ++ [net] }
          else (dumpRange naming s).map (fun s => { s with contiguousBits := [net] })

def dumpBits (naming : Naming) : ConnectionState → List InstTerm → Except String ConnectionState
  | s, [] => dumpRange naming s
  | s, t :: rest =>
      match dumpBit naming s t with
      | .error e => .error e
      | .ok s => dumpBits naming s rest

/-- The elements, with braces around them or not. -/
structure Connection where
  braces : Bool
  parts : List Expression

/-- `dumpInsTermConnectivity`; nothing is written between the parentheses of an unconnected port. -/
def dumpInsTermConnectivity (naming : Naming) (port : List InstTerm) : Except String (Option Connection) :=
  if port.any (fun t => t.net.isSome) then
    (dumpBits naming {} port).map (fun s => some ⟨s.concatenation, s.connection⟩)
  else .ok none

/-- The bits of a connection; without braces it is one expression. -/
def Connection.bits (m : Module) (c : Connection) : Option (List (ConnectedBit Object)) :=
  if c.braces then (Expression.concat c.parts).bits (declared m)
  else
    match c.parts with
    | [e] => e.bits (declared m)
    | _ => none

/-- What a terminal is connected to: its net, or the wire declared for it. -/
def InstTerm.connected (t : InstTerm) : ConnectedBit Object :=
  match t.net with
  | none => .wire (.filler t.key)
  | some net => net.connected

/-- The connection written for a port stands for what its terminals are connected to, bit by bit. -/
def ConnectionExact (m : Module) (port : List InstTerm) : Prop :=
  ∃ c, dumpInsTermConnectivity (naming m) port = .ok (some c) ∧ c.bits m = some (port.map InstTerm.connected)

/-! ### Literals of constants -/

theorem constantChars_ok (types : List NetType) (constant : ∀ t ∈ types, isAssignType t = true) :
    constantChars types = .ok (types.map typeChar) := by
  induction types with
  | nil => rfl
  | cons type types ih =>
      have head : getAssignConstantBitValue type = .ok (typeChar type) := by
        have isType := constant type List.mem_cons_self
        revert isType
        cases type <;> decide
      rw [constantChars, head, ih (fun t mem => constant t (List.mem_cons_of_mem _ mem))]
      rfl

/-- The type a character stands for. -/
theorem digitBit_typeChar (type : NetType) (constant : isAssignType type = true) :
    digitBit (typeChar type).toLower 0 = type := by
  revert constant
  cases type <;> decide

theorem significant_of_plain (b : BasedNumber) (plain : ∀ c ∈ b.digits_, c ≠ '_') :
    significant b = b.digits_.map Char.toLower := by
  have kept : b.digits_.filter (fun c => c != '_') = b.digits_ :=
    List.filter_eq_self.mpr (fun c mem => bne_iff_ne.mpr (plain c mem))
  rw [significant, kept]

/-- A binary number of one digit for each bit. -/
theorem vector_binary (types : List NetType) (constant : ∀ t ∈ types, isAssignType t = true) :
    (vector ⟨true, types.length, false, .BINARY, types.map typeChar⟩).reverse = types := by
  rw [List.reverse_eq_iff]
  have plain : significant ⟨true, types.length, false, .BINARY, types.map typeChar⟩ =
      (types.map typeChar).map Char.toLower := by
    apply significant_of_plain
    intro c mem
    obtain ⟨type, -, rfl⟩ := List.mem_map.mp mem
    cases type <;> decide
  apply List.ext_getElem
  · simp [vector]
  intro k inVector inTypes
  have below : k < types.length := by simpa using inTypes
  have bit : (vector ⟨true, types.length, false, .BINARY, types.map typeChar⟩)[k] =
      literalBit ⟨true, types.length, false, .BINARY, types.map typeChar⟩ k := by simp [vector]
  rw [bit, literalBit, plain, if_neg (Base.noConfusion : ¬ Base.BINARY = Base.DECIMAL), positionalBit]
  change ((((types.map typeChar).map Char.toLower).reverse)[k / 1]?).elim _ (fun c => digitBit c (k % 1)) = _
  rw [Nat.div_one, Nat.mod_one, List.map_map, ← List.map_reverse, List.getElem?_map,
    List.getElem?_eq_getElem (by simpa using below), Option.map_some, Option.elim_some]
  exact digitBit_typeChar _ (constant _ (List.mem_reverse.mp (List.getElem_mem _)))

/-! A hexadecimal digit has four bits, so the groups of four are read back one by one. -/

/-- The bits of a hexadecimal digit, the most significant one first. -/
def digitTypes (c : Char) : List NetType := ((List.range 4).map (digitBit c.toLower)).reverse

theorem hexDigit_ok (a b c d : Bool) : ∃ digit,
    hexDigit (typeChar (typeOf a)) (typeChar (typeOf b)) (typeChar (typeOf c)) (typeChar (typeOf d)) = .ok digit ∧
      digit ≠ '_' ∧ digitTypes digit = [typeOf a, typeOf b, typeOf c, typeOf d] := by
  cases a <;> cases b <;> cases c <;> cases d <;> exact ⟨_, rfl, by decide, by decide⟩

theorem hexDigitsOf_types (groups : Nat) (bits : List Bool) (full : bits.length = 4 * groups) : ∃ digits,
    hexDigitsOf ((bits.map typeOf).map typeChar) = .ok digits ∧ (∀ c ∈ digits, c ≠ '_') ∧
      digits.flatMap digitTypes = bits.map typeOf := by
  induction groups generalizing bits with
  | zero =>
      rw [List.length_eq_zero_iff.mp (by omega : bits.length = 0)]
      exact ⟨[], rfl, nofun, rfl⟩
  | succ groups ih =>
      match bits, full with
      | a :: b :: c :: d :: rest, full =>
          have fullRest : rest.length = 4 * groups := by
            simp only [List.length_cons] at full
            omega
          obtain ⟨digit, isDigit, plain, types⟩ := hexDigit_ok a b c d
          obtain ⟨digits, isDigits, allPlain, allTypes⟩ := ih rest fullRest
          refine ⟨digit :: digits, ?_, ?_, ?_⟩
          · simp only [List.map_cons, hexDigitsOf]
            rw [isDigit, isDigits]
          · intro other mem
            rcases List.mem_cons.mp mem with here | later
            · exact here ▸ plain
            · exact allPlain other later
          · rw [List.flatMap_cons, types, allTypes]
            rfl

/-- Bits without `x` and `z` are those of a list of truth values. -/
theorem exists_bits (types : List NetType) (known : ∀ t ∈ types, t = .Assign0 ∨ t = .Assign1) :
    ∃ bits : List Bool, types = bits.map typeOf := by
  refine ⟨types.map (fun t => t == .Assign1), ?_⟩
  rw [List.map_map]
  calc types = types.map id := (List.map_id types).symm
    _ = types.map (typeOf ∘ fun t => t == .Assign1) := by
        refine List.map_congr_left (fun t mem => ?_)
        rcases known t mem with rfl | rfl <;> rfl

/-- A hexadecimal number of the groups of four bits, zeros in front. -/
theorem vector_hex (types : List NetType) (known : ∀ t ∈ types, t = .Assign0 ∨ t = .Assign1) : ∃ digits,
    binStrToHexStr (types.map typeChar) = .ok digits ∧
      (vector ⟨true, types.length, false, .HEX, digits⟩).reverse = types := by
  let pad := (4 - (types.map typeChar).length % 4) % 4
  obtain ⟨bits, padded⟩ := exists_bits (List.replicate pad .Assign0 ++ types) (by
    intro t mem
    rcases List.mem_append.mp mem with mem | mem
    · exact .inl (List.eq_of_mem_replicate mem)
    · exact known t mem)
  have length : bits.length = pad + types.length := by
    rw [← List.length_map (f := typeOf), ← padded, List.length_append, List.length_replicate]
  have full : bits.length = 4 * (bits.length / 4) := by
    have isPad : pad = (4 - types.length % 4) % 4 := by rw [← List.length_map (f := typeChar)]
    omega
  obtain ⟨digits, isDigits, plain, all⟩ := hexDigitsOf_types (bits.length / 4) bits full
  refine ⟨digits, ?_, ?_⟩
  · rw [binStrToHexStr, ← isDigits, ← padded, List.map_append, List.map_replicate]
    rfl
  · have significant_eq : significant ⟨true, types.length, false, .HEX, digits⟩ = digits.map Char.toLower :=
      significant_of_plain ⟨true, types.length, false, .HEX, digits⟩ plain
    -- the digits from the last one on give the bits from the least significant one on
    have reversed : digits.reverse.flatMap (fun c => (List.range 4).map (digitBit c.toLower)) =
        types.reverse ++ List.replicate pad .Assign0 := by
      rw [← List.reverse_replicate, ← List.reverse_append, padded, ← all, List.reverse_flatMap]
      refine congrArg (fun f => digits.reverse.flatMap f) (funext (fun c => ?_))
      exact (List.reverse_reverse _).symm
    rw [List.reverse_eq_iff]
    apply List.ext_getElem
    · simp [vector]
    intro k inVector inTypes
    have below : k < types.reverse.length := by simpa using inTypes
    have bit : (vector ⟨true, types.length, false, .HEX, digits⟩)[k] =
        literalBit ⟨true, types.length, false, .HEX, digits⟩ k := by simp [vector]
    have at_k := getElem?_flatMap_range 4 (by decide) (fun c : Char => digitBit c.toLower) digits.reverse k
    rw [reversed, List.getElem?_append_left below, List.getElem?_eq_getElem below] at at_k
    rw [bit, literalBit, significant_eq, if_neg (Base.noConfusion : ¬ Base.HEX = Base.DECIMAL), positionalBit]
    change ((digits.map Char.toLower).reverse[k / 4]?).elim _ (fun c => digitBit c (k % 4)) = _
    rw [← List.map_reverse, List.getElem?_map]
    cases digit : digits.reverse[k / 4]? with
    | none =>
        rw [digit] at at_k
        cases at_k
    | some c =>
        rw [digit] at at_k
        exact (Option.some.inj at_k).symm

/-- The literal of a window of constants has their types. -/
theorem constantNumber_vector (types : List NetType) (constant : ∀ t ∈ types, isAssignType t = true) : ∃ number,
    constantNumber types = .ok number ∧ (vector number).reverse = types := by
  unfold constantNumber
  rw [constantChars_ok types constant]
  simp only
  split
  · exact ⟨_, rfl, vector_binary types constant⟩
  · next long =>
      have known : ∀ t ∈ types, t = .Assign0 ∨ t = .Assign1 := by
        intro t mem
        have isType := constant t mem
        have plain : (typeChar t == 'x' || typeChar t == 'z') = false := by
          rw [Bool.or_eq_true, not_or, Bool.not_eq_true, Bool.not_eq_true, List.any_eq_false] at long
          simpa using long.2 (typeChar t) (List.mem_map_of_mem mem)
        clear long mem
        revert isType plain
        cases t <;> decide
      obtain ⟨digits, isDigits, same⟩ := vector_hex types known
      exact ⟨_, by rw [isDigits]; rfl, same⟩

/-! ### Ranges in the order of their bus -/

theorem run_succ_last (first step : Int) (n : Nat) : run first step (n + 1) = run first step n ++ [first + step * n] := by
  unfold run
  rw [List.range_succ, List.map_append, List.map_singleton]

theorem isCanonicalFrom_run (bus : BusNet) (previous : BusNetBit) (rest : List BusNetBit)
    (canonical : isCanonicalFrom bus previous rest = true) :
    (previous :: rest).map BusNetBit.bit = run previous.bit (getCanonicalRangeStep bus) (rest.length + 1) ∧
      ∀ b ∈ rest, b.bus = bus := by
  induction rest generalizing previous with
  | nil => exact ⟨by simp [run], nofun⟩
  | cons current rest ih =>
      rw [isCanonicalFrom, Bool.and_eq_true, Bool.and_eq_true, beq_iff_eq, beq_iff_eq] at canonical
      obtain ⟨⟨sameBus, step⟩, later⟩ := canonical
      obtain ⟨bits, buses⟩ := ih current later
      refine ⟨?_, ?_⟩
      · rw [List.map_cons, bits, List.length_cons, run_succ previous.bit, ← step]
        rw [show previous.bit + (current.bit - previous.bit) = current.bit by omega]
      · intro b mem
        rcases List.mem_cons.mp mem with here | mem
        · exact here ▸ sameBus
        · exact buses b mem

/-- What a bit of a bus stands for when it is no constant. -/
def BusNetBit.selected (b : BusNetBit) : ConnectedBit Object := .select (.net b.bus.id) b.bit

/-- Bits in the order of their bus are those between the first and the last one. -/
theorem canonical_range (first last : BusNetBit) (rest : List BusNetBit)
    (canonical : isCanonicalBusRangeOrder (first :: rest) = true) (isLast : (first :: rest).getLast? = some last) :
    (∀ b ∈ first :: rest, b.bus = first.bus) ∧
      (first :: rest).map BusNetBit.selected =
        (busBits first.bit last.bit).map (ConnectedBit.select (Object.net first.bus.id)) ∧
      SameDirection first.bus.msb first.bus.lsb first.bit last.bit := by
  obtain ⟨bits, buses⟩ := isCanonicalFrom_run first.bus first rest canonical
  have all : ∀ b ∈ first :: rest, b.bus = first.bus := by
    intro b mem
    rcases List.mem_cons.mp mem with rfl | mem
    · rfl
    · exact buses b mem
  have lastBit : last.bit = first.bit + getCanonicalRangeStep first.bus * rest.length := by
    have ends := congrArg List.getLast? bits
    rw [List.getLast?_map, isLast, run_succ_last, List.getLast?_concat] at ends
    exact Option.some.inj ends
  have range : busBits first.bit last.bit = run first.bit (getCanonicalRangeStep first.bus) (rest.length + 1) ∧
      SameDirection first.bus.msb first.bus.lsb first.bit last.bit := by
    rw [lastBit]
    exact run_eq_busBits first.bus.msb first.bus.lsb first.bit rest.length
  refine ⟨all, ?_, range.2⟩
  rw [range.1, ← bits, List.map_map]
  refine List.map_congr_left (fun b mem => ?_)
  change ConnectedBit.select (Object.net b.bus.id) b.bit = _
  rw [all b mem]
  rfl

section range
variable (m : Module) (first last : BusNetBit) (rest : List BusNetBit)
  (canonical : isCanonicalBusRangeOrder (first :: rest) = true) (isLast : (first :: rest).getLast? = some last)
  (mem : .bus first.bus ∈ m.nets) (shown : (Net.bus first.bus).shown m = true)
include canonical isLast mem shown

/-- Bits from the first to the last one of a bus are its name. -/
theorem name_bits (whole : first.bit = first.bus.msb ∧ last.bit = first.bus.lsb) :
    (Expression.name (getNetName (naming m) (.bus first.bus))).bits (declared m) =
      some ((first :: rest).map BusNetBit.selected) := by
  have isDeclared := declared_shown m (.bus first.bus) mem shown
  rw [Expression.bits, nameBits, isDeclared, (canonical_range first last rest canonical isLast).2.1, whole.1, whole.2]
  rfl

/-- Bits in the order of their bus are a part-select. -/
theorem range_bits : (Expression.range (getNetName (naming m) (.bus first.bus)) first.bit last.bit).bits (declared m) =
    some ((first :: rest).map BusNetBit.selected) := by
  obtain ⟨buses, selected, direction⟩ := canonical_range first last rest canonical isLast
  have isDeclared := declared_shown m (.bus first.bus) mem shown
  have inside : Inside first.bus.msb first.bus.lsb last.bit := buses last (List.mem_of_getLast? isLast) ▸ last.inside
  rw [Expression.bits, selectRange, isDeclared, selected]
  exact if_pos ⟨first.inside, inside, direction⟩

/-- A window in the order of its bus is written as one expression with its bits. -/
theorem rangeExpression_bits :
    (rangeExpression (naming m) first last).bits (declared m) = some ((first :: rest).map BusNetBit.selected) := by
  rw [rangeExpression]
  split
  · next whole => exact name_bits m first last rest canonical isLast mem shown whole
  split
  · next one =>
      obtain ⟨-, selected, -⟩ := canonical_range first last rest canonical isLast
      have isDeclared := declared_shown m (.bus first.bus) mem shown
      have inside : Inside first.bus.msb first.bus.lsb first.bit := first.inside
      rw [Expression.bits, selectBit, isDeclared, selected, ← one]
      have alone : busBits first.bit first.bit = [first.bit] := by simp [busBits]
      rw [alone]
      exact if_pos inside
  · exact range_bits m first last rest canonical isLast mem shown

end range

/-! ### The window and what is written -/

/-- The window has constants only, or bits of one declared bus. -/
def IsWindow (m : Module) (window : List BitNet) : Prop :=
  (∀ net ∈ window, net.isAssignConstant = true) ∨
    ∃ bus : BusNet, .bus bus ∈ m.nets ∧ ∃ bits : List BusNetBit, window = bits.map .busBit ∧
      ∀ b ∈ bits, b.bus = bus ∧ (BitNet.busBit b).isAssignConstant = false

/-- What is written and the window together stand for the bits so far. -/
structure Covers (m : Module) (s : ConnectionState) (bits : List (ConnectedBit Object)) : Prop where
  all : ∃ written, bitsOf (declared m) s.connection = some written ∧
    written ++ s.contiguousBits.map BitNet.connected = bits
  window : IsWindow m s.contiguousBits
  first : s.firstElement = true ↔ s.connection = []
  single : s.concatenation = false → s.connection.length ≤ 1

section connection
variable {m : Module} {s : ConnectionState} {bits : List (ConnectedBit Object)}

/-- Parts that stand for the window and for bits after it take its place. -/
theorem Covers.append (covers : Covers m s bits) (after : ConnectionState) (parts : List Expression)
    (rest more : List (ConnectedBit Object)) (isRest : bitsOf (declared m) parts = some rest)
    (whole : rest = s.contiguousBits.map BitNet.connected ++ more) (present : parts ≠ [])
    (connection : after.connection = s.connection ++ parts) (empty : after.contiguousBits = [])
    (started : after.firstElement = false)
    (braces : after.concatenation = false → s.separate.concatenation = false ∧ parts.length = 1) :
    Covers m after (bits ++ more) := by
  obtain ⟨written, isWritten, together⟩ := covers.all
  refine ⟨⟨written ++ rest, ?_, ?_⟩, ?_, ?_, ?_⟩
  · rw [connection]
    exact bitsOf_append _ _ _ _ _ isWritten isRest
  · rw [empty, ← together, whole, List.map_nil, List.append_nil, List.append_assoc]
  · rw [empty]
    exact .inl nofun
  · rw [started, connection]
    refine ⟨fun impossible => (Bool.false_ne_true impossible).elim, fun nothing => ?_⟩
    exact absurd (List.append_eq_nil_iff.mp nothing).2 present
  · intro none
    obtain ⟨separate, one⟩ := braces none
    unfold ConnectionState.separate at separate
    split at separate
    · next isFirst =>
        rw [connection, covers.first.mp isFirst, List.nil_append, one]
    · cases separate

theorem separate_fields (s : ConnectionState) : s.separate.connection = s.connection ∧
    s.separate.contiguousBits = s.contiguousBits ∧ s.separate.firstElement = false := by
  unfold ConnectionState.separate
  split
  · exact ⟨rfl, rfl, rfl⟩
  · next started => exact ⟨rfl, rfl, by simpa using started⟩

theorem filterMap_asBusBit (bits : List BusNetBit) : (bits.map BitNet.busBit).filterMap BitNet.asBusBit = bits := by
  rw [List.filterMap_map]
  exact List.filterMap_some

theorem connected_busBit (b : BusNetBit) (ordinary : (BitNet.busBit b).isAssignConstant = false) :
    (BitNet.busBit b).connected = b.selected := by
  rw [BitNet.connected, ordinary]
  rfl

theorem bitsOf_map {ι : Type} (f : ι → Expression) (g : ι → ConnectedBit Object) (l : List ι)
    (single : ∀ i ∈ l, (f i).bits (declared m) = some [g i]) : bitsOf (declared m) (l.map f) = some (l.map g) := by
  induction l with
  | nil => rfl
  | cons i l ih =>
      have head : bitsOf (declared m) [f i] = some [g i] := by
        rw [bitsOf_single]
        exact single i List.mem_cons_self
      exact bitsOf_append _ [f i] _ _ _ head (ih (fun j mem => single j (List.mem_cons_of_mem _ mem)))

theorem select_bits (b : BusNetBit) (mem : .bus b.bus ∈ m.nets) (ordinary : (BitNet.busBit b).isAssignConstant = false) :
    (Expression.select (getNetName (naming m) (.bus b.bus)) b.bit).bits (declared m) = some [b.selected] := by
  have isDeclared : declared m (getNetName (naming m) (.bus b.bus)) = some (.bus (.net b.bus.id) b.bus.msb b.bus.lsb) :=
    declared_net m _ mem (net_not_assignConstant (.busBit b) ordinary)
  have inside : Inside b.bus.msb b.bus.lsb b.bit := b.inside
  rw [Expression.bits, selectBit, isDeclared]
  simp only
  rw [if_pos inside]
  rfl

/-- Writing the window changes nothing about what is covered. -/
theorem dumpRange_covers (covers : Covers m s bits) : ∃ after,
    dumpRange (naming m) s = .ok after ∧ Covers m after bits ∧ after.contiguousBits = [] := by
  obtain ⟨sameConnection, -, started⟩ := separate_fields s
  unfold dumpRange
  cases window : s.contiguousBits with
  | nil => exact ⟨s, rfl, covers, window⟩
  | cons first rest =>
      simp only
      rw [← window]
      have firstMem : first ∈ s.contiguousBits := window ▸ List.mem_cons_self
      split
      · next isConstant =>
          have constant : ∀ net ∈ s.contiguousBits, net.isAssignConstant = true := by
            rcases covers.window with constants | ⟨bus, -, busBits, isBits, all⟩
            · exact constants
            · obtain ⟨b, inBits, rfl⟩ := List.mem_map.mp (isBits ▸ firstMem)
              exact absurd ((all b inBits).2.symm.trans isConstant) Bool.false_ne_true
          obtain ⟨number, isNumber, types⟩ := constantNumber_vector (s.contiguousBits.map BitNet.type) (by
            intro type mem
            obtain ⟨net, inWindow, rfl⟩ := List.mem_map.mp mem
            exact constant net inWindow)
          have isRest : bitsOf (declared m) [.literal number] = some (s.contiguousBits.map BitNet.connected) := by
            rw [bitsOf_single, Expression.bits, types, List.map_map]
            refine congrArg some (List.map_congr_left (fun net inWindow => ?_))
            exact (if_pos (constant net inWindow)).symm
          rw [isNumber]
          refine ⟨_, rfl, ?_, rfl⟩
          rw [← List.append_nil bits]
          exact covers.append _ _ _ [] isRest (List.append_nil _).symm (List.cons_ne_nil _ _)
            (congrArg (· ++ _) sameConnection) rfl started (fun none => ⟨none, rfl⟩)
      · next notConstant =>
          obtain ⟨bus, inNets, window_bits, isBits, all⟩ : ∃ bus : BusNet, .bus bus ∈ m.nets ∧ ∃ bits : List BusNetBit,
              s.contiguousBits = bits.map .busBit ∧ ∀ b ∈ bits, b.bus = bus ∧ (BitNet.busBit b).isAssignConstant = false := by
            rcases covers.window with constants | bus
            · exact absurd (constants first firstMem) notConstant
            · exact bus
          have connected : s.contiguousBits.map BitNet.connected = window_bits.map BusNetBit.selected := by
            rw [isBits, List.map_map]
            exact List.map_congr_left (fun b inBits => connected_busBit b (all b inBits).2)
          have present : window_bits ≠ [] := by
            rintro rfl
            rw [isBits] at window
            cases window
          rw [isBits, filterMap_asBusBit]
          split
          · have isRest := bitsOf_map (m := m)
              (fun b : BusNetBit => .select (getNetName (naming m) (.bus b.bus)) b.bit) BusNetBit.selected window_bits
              (fun b inBits => select_bits b ((all b inBits).1 ▸ inNets) (all b inBits).2)
            refine ⟨_, rfl, ?_, rfl⟩
            rw [← List.append_nil bits]
            exact covers.append _ _ _ [] isRest (by rw [connected, List.append_nil])
              (fun nothing => present (List.map_eq_nil_iff.mp nothing)) (congrArg (· ++ _) sameConnection) rfl started
              (fun none => absurd none.symm Bool.false_ne_true)
          · next canonical =>
              rw [Bool.not_eq_true, Bool.not_eq_false'] at canonical
              obtain ⟨head, tail, rfl⟩ := List.exists_cons_of_ne_nil present
              obtain ⟨last, isLast⟩ := Option.ne_none_iff_exists'.mp (fun nothing =>
                present (List.getLast?_eq_none_iff.mp nothing))
              have headBus := all head List.mem_cons_self
              have isRest : bitsOf (declared m) [rangeExpression (naming m) head last] =
                  some ((head :: tail).map BusNetBit.selected) := by
                rw [bitsOf_single]
                exact rangeExpression_bits m head last tail canonical isLast (headBus.1 ▸ inNets)
                  (shown_of_ordinary m _ (net_not_assignConstant (.busBit head) headBus.2))
              rw [isLast, List.head?_cons]
              refine ⟨_, rfl, ?_, rfl⟩
              rw [← List.append_nil bits]
              exact covers.append _ _ _ [] isRest (by rw [connected, List.append_nil]) (List.cons_ne_nil _ _)
                (congrArg (· ++ _) sameConnection) rfl started (fun none => ⟨none, rfl⟩)

/-- An element of its own after the window. -/
theorem dumpElement_covers (covers : Covers m s bits) (e : Expression) (bit : ConnectedBit Object)
    (isBit : e.bits (declared m) = some [bit]) : ∃ after,
    dumpElement (naming m) s e = .ok after ∧ Covers m after (bits ++ [bit]) := by
  obtain ⟨written, isWritten, covers', empty⟩ := dumpRange_covers covers
  obtain ⟨sameConnection, sameBits, started⟩ := separate_fields written
  unfold dumpElement
  rw [isWritten]
  refine ⟨_, rfl, ?_⟩
  apply covers'.append _ [e] [bit] [bit] (by rw [bitsOf_single, isBit])
  · rw [empty]
    rfl
  · exact List.cons_ne_nil _ _
  · exact congrArg (· ++ _) sameConnection
  · exact sameBits.trans empty
  · exact started
  · exact fun none => ⟨none, rfl⟩

/-- The window goes on with a bit that fits. -/
theorem covers_concat (covers : Covers m s bits) (net : BitNet) (window : IsWindow m (s.contiguousBits ++ [net])) :
    Covers m { s with contiguousBits := s.contiguousBits ++ [net] } (bits ++ [net.connected]) := by
  obtain ⟨written, isWritten, together⟩ := covers.all
  refine ⟨⟨written, isWritten, ?_⟩, window, covers.first, covers.single⟩
  rw [List.map_append, ← List.append_assoc, together]
  rfl

/-- A bit that is no scalar net makes a window of its own. -/
theorem window_single (net : BitNet) (attached : net.net ∈ m.nets)
    (fits : net.isAssignConstant = true ∨ ∃ b, net = .busBit b) : IsWindow m [net] := by
  cases constant : net.isAssignConstant with
  | true =>
      left
      intro other mem
      exact List.mem_singleton.mp mem ▸ constant
  | false =>
      right
      obtain isConstant | ⟨b, rfl⟩ := fits
      · exact absurd (constant.symm.trans isConstant) Bool.false_ne_true
      · refine ⟨b.bus, attached, [b], rfl, fun other mem => ?_⟩
        rw [List.mem_singleton.mp mem]
        exact ⟨rfl, constant⟩

theorem window_continues (covers : Covers m s bits) (net : BitNet) (attached : net.net ∈ m.nets)
    (fits : net.isAssignConstant = true ∨ ∃ b, net = .busBit b) (goesOn : continues s net = true) :
    IsWindow m (s.contiguousBits ++ [net]) := by
  unfold continues at goesOn
  cases last : s.contiguousBits.getLast? with
  | none =>
      rw [List.getLast?_eq_none_iff.mp last]
      exact window_single net attached fits
  | some previous =>
      have previousMem := List.mem_of_getLast? last
      rw [last] at goesOn
      simp only at goesOn
      cases constant : net.isAssignConstant with
      | true =>
          rw [constant, if_pos rfl] at goesOn
          left
          intro other mem
          rcases List.mem_append.mp mem with mem | here
          · rcases covers.window with constants | ⟨bus, -, busBits, isBits, all⟩
            · exact constants other mem
            · obtain ⟨b, inBits, rfl⟩ := List.mem_map.mp (isBits ▸ previousMem)
              exact absurd ((all b inBits).2.symm.trans goesOn) Bool.false_ne_true
          · exact List.mem_singleton.mp here ▸ constant
      | false =>
          obtain isConstant | ⟨b, rfl⟩ := fits
          · exact absurd (constant.symm.trans isConstant) Bool.false_ne_true
          rw [constant, if_neg Bool.false_ne_true] at goesOn
          cases previous with
          | scalar net => exact absurd goesOn Bool.false_ne_true
          | busBit p =>
              simp only [Bool.and_eq_true, Bool.not_eq_true', beq_iff_eq] at goesOn
              rcases covers.window with constants | ⟨bus, inNets, busBits, isBits, all⟩
              · exact absurd ((constants _ previousMem).symm.trans goesOn.1.1) Bool.true_eq_false.mp
              · right
                obtain ⟨p', inBits, same⟩ := List.mem_map.mp (isBits ▸ previousMem)
                cases same
                have sameBus : b.bus = bus := goesOn.1.2.trans (all p inBits).1
                refine ⟨bus, inNets, busBits ++ [b], by rw [isBits, List.map_append]; rfl, fun other mem => ?_⟩
                rcases List.mem_append.mp mem with mem | here
                · exact all other mem
                · rw [List.mem_singleton.mp here]
                  exact ⟨sameBus, constant⟩

/-- A terminal that can be written: its net is of the module, or it has a wire. -/
def Attached (m : Module) (t : InstTerm) : Prop :=
  (∀ net, t.net = some net → net.net ∈ m.nets) ∧ (t.net = none → t ∈ m.instances.flatMap unusedInstTerms)

theorem dumpBit_covers (covers : Covers m s bits) (t : InstTerm) (attached : Attached m t) : ∃ after,
    dumpBit (naming m) s t = .ok after ∧ Covers m after (bits ++ [t.connected]) := by
  have window_covers (net : BitNet) (inNets : net.net ∈ m.nets)
      (fits : net.isAssignConstant = true ∨ ∃ b, net = .busBit b) : ∃ after,
      (if continues s net then .ok { s with contiguousBits := s.contiguousBits ++ [net] }
        else (dumpRange (naming m) s).map (fun s => { s with contiguousBits := [net] })) = Except.ok after ∧
        Covers m after (bits ++ [net.connected]) := by
    split
    · next goesOn => exact ⟨_, rfl, covers_concat covers net (window_continues covers net inNets fits goesOn)⟩
    · obtain ⟨written, isWritten, covers', empty⟩ := dumpRange_covers covers
      rw [isWritten]
      refine ⟨_, rfl, ?_⟩
      have next := covers_concat covers' net (by
        rw [empty]
        exact window_single net inNets fits)
      rw [empty] at next
      exact next
  unfold dumpBit
  cases isNet : t.net with
  | none =>
      have isBit : (Expression.name (getUnusedWireName (naming m) t)).bits (declared m) = some [t.connected] := by
        rw [Expression.bits, nameBits, declared_unused m t (attached.2 isNet), InstTerm.connected, isNet]
      exact dumpElement_covers covers _ _ isBit
  | some net =>
      have inNets := attached.1 net isNet
      have isConnected : t.connected = net.connected := by rw [InstTerm.connected, isNet]
      rw [isConnected]
      simp only
      cases constant : net.isAssignConstant with
      | true => cases net <;> exact window_covers _ inNets (.inl constant)
      | false =>
          cases net with
          | busBit b => exact window_covers _ inNets (.inr ⟨b, rfl⟩)
          | scalar scalar =>
              have isDeclared : declared m (getNetName (naming m) (.scalar scalar)) = some (.wire (.net scalar.id)) :=
                declared_net m _ inNets constant
              have isBit : (Expression.name (getNetName (naming m) (.scalar scalar))).bits (declared m) =
                  some [(BitNet.scalar scalar).connected] := by
                rw [Expression.bits, nameBits, isDeclared, BitNet.connected, constant]
                rfl
              exact dumpElement_covers covers _ _ isBit

theorem dumpBits_covers (port : List InstTerm) (covers : Covers m s bits) (attached : ∀ t ∈ port, Attached m t) :
    ∃ after, dumpBits (naming m) s port = .ok after ∧ Covers m after (bits ++ port.map InstTerm.connected) ∧
      after.contiguousBits = [] := by
  induction port generalizing s bits with
  | nil =>
      rw [List.map_nil, List.append_nil]
      exact dumpRange_covers covers
  | cons t port ih =>
      obtain ⟨next, isNext, covers'⟩ := dumpBit_covers covers t (attached t List.mem_cons_self)
      obtain ⟨after, isAfter, covers'', empty⟩ := ih covers' (fun t mem => attached t (List.mem_cons_of_mem _ mem))
      rw [List.append_assoc] at covers''
      refine ⟨after, ?_, covers'', empty⟩
      rw [dumpBits, isNext]
      exact isAfter

end connection

/-! ### Ports of instances -/

section port
variable (m : Module) (inst : Instance) (port : List InstTerm)

theorem mem_of_port (isPort : port ∈ ports inst.instTerms) (t : InstTerm) (mem : t ∈ port) : t ∈ inst.instTerms := by
  rw [← List.flatten_splitBy (fun s t : InstTerm => s.term == t.term) inst.instTerms]
  exact List.mem_flatten.mpr ⟨port, isPort, mem⟩

/-- The unconnected bits of a connected port have wires. -/
theorem attached_of_port (mem : inst ∈ m.instances) (kind : inst.kind = .other) (isPort : port ∈ ports inst.instTerms)
    (connected : port.any (fun t => t.net.isSome) = true) : ∀ t ∈ port, Attached m t := by
  intro t inPort
  refine ⟨m.attached inst mem t (mem_of_port inst port isPort t inPort), fun unconnected => ?_⟩
  refine List.mem_flatMap.mpr ⟨inst, mem, ?_⟩
  rw [unusedInstTerms, kind]
  refine List.mem_flatMap.mpr ⟨port, isPort, ?_⟩
  rw [if_pos connected]
  refine List.mem_filter.mpr ⟨inPort, ?_⟩
  rw [isUnused, unconnected]
  rfl

end port

/-! A port of five bits: a constant, the two bits of an ascending bus against its order, a wire, and no net. -/

def exampleBus : BusNet := ⟨1, some "b", 0, 1, [.Standard, .Standard]⟩

def exampleTerms : List InstTerm :=
  [⟨0, 0, 0, some (.scalar ⟨0, none, .Assign1⟩)⟩,
    ⟨0, 1, 0, some (.busBit ⟨exampleBus, 1, by decide, by decide⟩)⟩,
    ⟨0, 2, 0, some (.busBit ⟨exampleBus, 0, by decide, by decide⟩)⟩,
    ⟨0, 3, 0, some (.scalar ⟨2, none, .Standard⟩)⟩,
    ⟨0, 4, 0, none⟩]

def exampleModule : Module where
  termNames := ["net_2"]
  nets := [.scalar ⟨0, none, .Assign1⟩, .bus exampleBus, .scalar ⟨2, none, .Standard⟩]
  instances := [⟨.other, exampleTerms⟩]
  ids := by decide
  names := by decide
  named := by decide
  keys := by decide
  attached := by decide

/-- No wire stands for the bit of a port that is not connected at all. -/
def openModule : Module where
  termNames := []
  nets := []
  instances := [⟨.other, [⟨0, 0, 0, none⟩]⟩]
  ids := by decide
  names := by decide
  named := by decide
  keys := by decide
  attached := by decide

end Naja.Verilog
