import Naja.Netlist.Objects
import Mathlib.Data.Nat.Bitwise

/-! The decoders of sized Verilog numbers: to bits, to types of constant nets, and
to the canonical text of a parameter value. Lists of bits start with the least
significant bit, digit strings with the most significant digit. -/

namespace Naja.Verilog
open Netlist (NetType)

inductive Base where
  | BINARY | OCTAL | DECIMAL | HEX
deriving DecidableEq, Repr

structure BasedNumber where
  hasSize_ : Bool
  size_ : Nat
  signed_ : Bool
  base_ : Base
  digits_ : List Char
deriving DecidableEq, Repr

inductive Value where
  | based (number : BasedNumber)
  | other
deriving DecidableEq, Repr

/-- `sign_` is true for a number without a minus. -/
structure Number where
  sign_ : Bool
  value_ : Value
deriving DecidableEq, Repr

/-- The exceptions of the decoders, with what their texts name; the last two are those of `std::stoul`. -/
inductive DecodeError where
  | unrecognizedBinary (c : Char)
  | unrecognizedHexadecimal (c : Char)
  | unsupportedFormat (base : Base)
  | invalidArgument
  | outOfRange
deriving DecidableEq, Repr

/-! ### numberToBits -/

def isSpace (c : Char) : Bool := c == ' ' || (decide (9 ≤ c.toNat) && decide (c.toNat ≤ 13))

def digitValue (c : Char) : Nat := if c.isDigit then c.toNat - 48 else c.toNat - 87

def decimalValue (digits : List Char) : Nat := digits.foldl (fun value c => 10 * value + digitValue c) 0

/-- `std::stoul`: blanks and a sign are skipped, and what follows the digits is ignored. -/
def stoul (text : List Char) : Except DecodeError Nat :=
  let body := text.dropWhile isSpace
  let negative := body.head? == some '-'
  let digits := (if negative || body.head? == some '+' then body.tail else body).takeWhile Char.isDigit
  if digits.isEmpty then .error .invalidArgument
  else if 2 ^ 64 ≤ decimalValue digits then .error .outOfRange
  else .ok (if negative then (2 ^ 64 - decimalValue digits) % 2 ^ 64 else decimalValue digits)

def setBit (bits : List Bool) (i : Nat) : List Bool := if i < bits.length then bits.set i true else bits

/-- The loop over the binary digits, from the last to the first; digit `i` is bit `i`. -/
def binaryLoop (digits : List Char) : Nat → List Bool → Except DecodeError (List Bool)
  | 0, bits => .ok bits
  | i + 1, bits =>
      let c := digits.getD i ' '
      if c.toUpper = '0' ∨ c.toUpper = 'X' then binaryLoop digits i bits
      else if c.toUpper = '1' then binaryLoop digits i (setBit bits i)
      else .error (.unrecognizedBinary c)

/-- The bits that a hexadecimal digit sets. -/
def hexOffsets (c : Char) : Option (List Nat) :=
  if c = '0' ∨ c = 'X' then some []
  else if c = '1' then some [0]
  else if c = '2' then some [1]
  else if c = '3' then some [1, 0]
  else if c = '4' then some [2]
  else if c = '5' then some [2, 0]
  else if c = '6' then some [2, 1]
  else if c = '7' then some [2, 1, 0]
  else if c = '8' then some [3]
  else if c = '9' then some [3, 0]
  else if c = 'A' then some [3, 1]
  else if c = 'B' then some [3, 1, 0]
  else if c = 'C' then some [3, 2]
  else if c = 'D' then some [3, 2, 0]
  else if c = 'E' then some [3, 2, 1]
  else if c = 'F' then some [3, 2, 1, 0]
  else none

/-- The loop over the hexadecimal digits, from the last to the first. -/
def hexLoop (size : Nat) : List Char → Nat → List Bool → Except DecodeError (List Bool)
  | [], _, bits => .ok bits
  | c :: rest, i, bits =>
      match hexOffsets c.toUpper with
      | none => .error (.unrecognizedHexadecimal c)
      | some offsets =>
          let bits := offsets.foldl (fun bits offset => setBit bits (i + offset)) bits
          if size < i + 4 then .ok bits else hexLoop size rest (i + 4) bits

def numberToBits (number : BasedNumber) : Except DecodeError (List Bool) :=
  match number.base_ with
  | .DECIMAL => (stoul number.digits_).map (fun value => (List.range number.size_).map value.testBit)
  | .BINARY => binaryLoop number.digits_ number.digits_.length (List.replicate number.size_ false)
  | .HEX => hexLoop number.size_ number.digits_.reverse 0 (List.replicate number.size_ false)
  | .OCTAL => .error (.unsupportedFormat .OCTAL)

/-! ### numberToNetTypes -/

def typeOf (bit : Bool) : NetType := if bit then .Assign1 else .Assign0

/-- Set the four bits from an offset on, as far as there are bits. -/
def setFour (offset : Nat) (type : Nat → NetType) (bits : List NetType) : List NetType :=
  (List.range 4).foldl (fun bits bit => bits.set (offset + bit) (type bit)) bits

def setHexDigit (offset : Nat) (digit : Char) (bits : List NetType) : Except DecodeError (List NetType) :=
  let upper := digit.toUpper
  if '0' ≤ upper ∧ upper ≤ '9' then .ok (setFour offset (fun bit => typeOf ((upper.toNat - 48).testBit bit)) bits)
  else if 'A' ≤ upper ∧ upper ≤ 'F' then
    .ok (setFour offset (fun bit => typeOf ((upper.toNat - 65 + 10).testBit bit)) bits)
  else if upper = 'X' ∨ upper = 'Z' then
    .ok (setFour offset (fun _ => if upper = 'X' then .AssignX else .AssignZ) bits)
  else .error (.unrecognizedHexadecimal digit)

def binaryType (upper : Char) : Option NetType :=
  if upper = '0' then some .Assign0
  else if upper = '1' then some .Assign1
  else if upper = 'X' then some .AssignX
  else if upper = 'Z' then some .AssignZ
  else none

def binaryTypesLoop : List Char → Nat → List NetType → Except DecodeError (List NetType)
  | [], _, bits => .ok bits
  | c :: rest, index, bits =>
      if index < bits.length then
        match binaryType c.toUpper with
        | none => .error (.unrecognizedBinary c)
        | some type => binaryTypesLoop rest (index + 1) (bits.set index type)
      else .ok bits

def hexTypesLoop : List Char → Nat → List NetType → Except DecodeError (List NetType)
  | [], _, bits => .ok bits
  | c :: rest, offset, bits =>
      if offset < bits.length then
        match setHexDigit offset c bits with
        | .error e => .error e
        | .ok bits => hexTypesLoop rest (offset + 4) bits
      else .ok bits

def numberToNetTypes (number : BasedNumber) : Except DecodeError (List NetType) :=
  match number.base_ with
  | .DECIMAL => (numberToBits number).map (fun bits => bits.map typeOf)
  | .BINARY => binaryTypesLoop number.digits_.reverse 0 (List.replicate number.size_ .Assign0)
  | .HEX => hexTypesLoop number.digits_.reverse 0 (List.replicate number.size_ .Assign0)
  | .OCTAL => .error (.unsupportedFormat .OCTAL)

/-! ### canonicalizeBasedNumber -/

def formatBitVectorValue (width : Nat) (msbToLsbDigits : List Char) (isSigned : Bool) : Except String String :=
  if width = 0 ∨ msbToLsbDigits.length ≠ width then .error "NLDB0::formatBitVectorValue: invalid width"
  else if (msbToLsbDigits.map Char.toLower).all (fun c => c == '0' || c == '1' || c == 'x' || c == 'z') then
    .ok (toString width ++ (if isSigned then "'sb" else "'b") ++ String.ofList (msbToLsbDigits.map Char.toLower))
  else .error "NLDB0::formatBitVectorValue: invalid digit"

def bitChar (bit : Bool) : Char := if bit then '1' else '0'

/-- The digits without underscores, in lower case. -/
def significant (number : BasedNumber) : List Char := (number.digits_.filter (fun c => c != '_')).map Char.toLower

/-- The bits of a digit in base `2 ^ bitsPerDigit`. -/
def digitChars (bitsPerDigit : Nat) (digit : Char) : Option (List Char) :=
  if digit = 'x' ∨ digit = 'z' then some (List.replicate bitsPerDigit digit)
  else
    let known := ('0' ≤ digit ∧ digit ≤ '9') ∨ bitsPerDigit = 4 ∧ 'a' ≤ digit ∧ digit ≤ 'f'
    if known ∧ digitValue digit < 2 ^ bitsPerDigit then
      some ((List.range bitsPerDigit).map (fun i => bitChar ((digitValue digit).testBit i)))
    else none

def digitsChars (bitsPerDigit : Nat) (digits : List Char) : Option (List Char) :=
  (digits.reverse.mapM (digitChars bitsPerDigit)).map List.flatten

/-- One digit of the division by two: the carry and the quotient so far. -/
def halveDigit (state : Nat × List Char) (c : Char) : Nat × List Char :=
  let current := state.1 * 10 + (c.toNat - 48)
  (current % 2, if state.2 ≠ [] ∨ 2 ≤ current then state.2 ++ [Char.ofNat (48 + current / 2)] else state.2)

def decimalLoop : Nat → List Char → List Char
  | 0, _ => []
  | width + 1, remaining =>
      if remaining = ['0'] then []
      else
        let halved := remaining.foldl halveDigit (0, [])
        bitChar (halved.1 != 0) :: decimalLoop width (if halved.2.isEmpty then ['0'] else halved.2)

def decimalChars (width : Nat) (digits : List Char) : Option (List Char) :=
  if digits = ['x'] ∨ digits = ['z'] then some digits
  else if digits.all Char.isDigit then some (decimalLoop width digits)
  else none

/-- The bits of all digits, least significant first. -/
def literalChars (based : BasedNumber) (digits : List Char) : Option (List Char) :=
  match based.base_ with
  | .BINARY => digitsChars 1 digits
  | .OCTAL => digitsChars 3 digits
  | .HEX => digitsChars 4 digits
  | .DECIMAL => decimalChars based.size_ digits

def canonicalizeBasedNumber (number : Number) : Except String (Option String) :=
  match number.value_ with
  | .other => .ok none
  | .based based =>
      if !based.hasSize_ || !number.sign_ then .ok none
      else
        let width := based.size_
        let digits := significant based
        if width = 0 ∨ digits = [] then .ok none
        else
          match literalChars based digits with
          | none => .ok none
          | some bits =>
              let first := digits.headD '0'
              let pad := if first = 'x' ∨ first = 'z' then first else '0'
              let sized := if bits.length < width then bits ++ List.replicate (width - bits.length) pad else bits.take width
              (formatBitVectorValue width sized.reverse based.signed_).map some

end Naja.Verilog
