import Mathlib.Data.List.GetD
import Naja.Modeling.ParameterLiterals

/-! The `INIT` literal of a memory: its digits as the writer makes them of contents, and the reader
of any hexadecimal or binary literal. -/

namespace Naja.Primitives.MemoryInit
open Naja.Modeling (quote digitValue IsDigit digitOf numberOf numberOf_cons)

/-! ### Reading -/

def unsupported (literal : String) : String := "NLDB0::getRomTruthTable: unsupported INIT literal " ++ literal

def digitBits (base : Char) : Nat := if base = 'h' then 4 else if base = 'b' then 1 else 0

def initDigit (base c : Char) : Option Nat :=
  if '0' ≤ c ∧ c ≤ '9' then some (c.toNat - '0'.toNat)
  else if base = 'h' ∧ 'a' ≤ c ∧ c ≤ 'f' then some (10 + (c.toNat - 'a'.toNat))
  else none

/-- The lowest `count` bits of a digit, most significant first. -/
def bitsOf (count digit : Nat) : List Bool := (List.range count).reverse.map digit.testBit

/-- The loop over the digits; nothing is left of an unknown one. -/
def readDigits (literal : String) (base : Char) : List Bool → List Char → Except String (Option (List Bool))
  | msbFirst, [] => .ok (some msbFirst)
  | msbFirst, c :: rest =>
      let c := c.toLower
      if c = '_' then readDigits literal base msbFirst rest
      else if c = 'x' ∨ c = 'z' then .ok none
      else
        match initDigit base c with
        | none => .error (unsupported literal)
        | some digit =>
            if 2 ^ digitBits base ≤ digit then .error (unsupported literal)
            else readDigits literal base (msbFirst ++ bitsOf (digitBits base) digit) rest

/-- The loop over the bits; the place of a bit is the number of those after it. -/
def placeBits (count : Nat) : List Bool → List Bool → Except String (List Bool)
  | bits, [] => .ok bits
  | bits, set :: rest =>
      if set then
        if count ≤ rest.length then .error "NLDB0::getRomTruthTable: INIT literal exceeds the memory contents"
        else placeBits count (bits.set rest.length true) rest
      else placeBits count bits rest

/-- The bits, or nothing when one is unknown. -/
def decodeMemoryInitBits (literal : String) (count : Nat) : Except String (Option (List Bool)) :=
  match literal.toList.dropWhile (· != quote) with
  | _ :: letter :: digits =>
      let base := letter.toLower
      if digitBits base = 0 then .error (unsupported literal)
      else
        match readDigits literal base [] digits with
        | .error message => .error message
        | .ok none => .ok none
        | .ok (some msbFirst) => (placeBits count (List.replicate count false) msbFirst).map some
  | _ => .error (unsupported literal)

/-! ### Writing -/

def hexDigit (digit : Nat) : Char := "0123456789abcdef".toList.getD digit '0'

def bitDigit (c : Char) : Nat := if c = '1' then 1 else 0

/-- Four characters make one digit. -/
def hexDigits : List Char → List Char
  | a :: b :: c :: d :: rest => hexDigit ([a, b, c, d].foldl (fun digit c => 2 * digit + bitDigit c) 0) :: hexDigits rest
  | _ => []

def pad (contents : List Char) : List Char := List.replicate ((4 - contents.length % 4) % 4) '0' ++ contents

def isUnknown (c : Char) : Bool := c == 'x' || c == 'z'

/-- The literal of contents that have their most significant bit first. -/
def memoryInit (size : Nat) (contents : List Char) : String :=
  if contents.any isUnknown then toString size ++ String.ofList (quote :: 'b' :: contents)
  else toString size ++ String.ofList (quote :: 'h' :: hexDigits (pad contents))

/-! ### Bits and numbers -/

/-- The number with these bits, most significant first. -/
def bitsValue : List Bool → Nat
  | [] => 0
  | bit :: rest => bit.toNat * 2 ^ rest.length + bitsValue rest

theorem bitsValue_lt (bits : List Bool) : bitsValue bits < 2 ^ bits.length := by
  induction bits with
  | nil => simp [bitsValue]
  | cons bit rest ih =>
      unfold bitsValue
      rw [List.length_cons, Nat.pow_succ]
      cases bit
      · simp only [Bool.toNat_false]
        omega
      · simp only [Bool.toNat_true]
        omega

theorem bitsValue_append (left right : List Bool) :
    bitsValue (left ++ right) = bitsValue left * 2 ^ right.length + bitsValue right := by
  induction left with
  | nil => simp [bitsValue]
  | cons bit rest ih =>
      simp only [List.cons_append, bitsValue, ih, List.length_append, Nat.pow_add]
      ring

theorem testBit_bitsValue (bits : List Bool) (i : Nat) : (bitsValue bits).testBit i = bits.reverse.getD i false := by
  induction bits generalizing i with
  | nil => simp [bitsValue]
  | cons bit rest ih =>
      have small := bitsValue_lt rest
      have shape : bitsValue (bit :: rest) = 2 ^ rest.length * bit.toNat + bitsValue rest := by
        rw [bitsValue, Nat.mul_comm]
      rw [shape, Nat.testBit_two_pow_mul_add _ small, List.reverse_cons]
      rcases Nat.lt_trichotomy i rest.length with below | same | above
      · rw [if_pos below, ih, List.getD_append _ _ _ _ (by simpa using below)]
      · subst same
        rw [if_neg (Nat.lt_irrefl _), List.getD_append_right _ _ _ _ (by simp)]
        cases bit <;> simp
      · rw [if_neg (by omega), List.getD_append_right _ _ _ _ (by simp; omega)]
        have later : i - rest.length = i - rest.length - 1 + 1 := by omega
        rw [List.length_reverse, later]
        cases bit <;> simp [Nat.testBit_succ]

theorem length_bitsOf (count digit : Nat) : (bitsOf count digit).length = count := by simp [bitsOf]

theorem bitsValue_bitsOf (count digit : Nat) (small : digit < 2 ^ count) : bitsValue (bitsOf count digit) = digit := by
  apply Nat.eq_of_testBit_eq
  intro i
  rw [testBit_bitsValue, bitsOf, ← List.map_reverse, List.reverse_reverse]
  by_cases inside : i < count
  · simp [List.getD_eq_getElem?_getD, inside]
  · have beyond : digit.testBit i = false :=
      Nat.testBit_lt_two_pow (small.trans_le (Nat.pow_le_pow_right (by omega) (by omega)))
    simp [List.getD_eq_getElem?_getD, inside, beyond]

/-! ### The digits of a literal -/

def written (digits : List Char) : List Char := digits.filter (fun c => c.toLower != '_')

def Unknown (c : Char) : Prop := c.toLower = 'x' ∨ c.toLower = 'z'

/-- The bits of digits that are all of the base. -/
def digitsBits (base : Char) (digits : List Char) : List Bool :=
  (written digits).flatMap (fun c => bitsOf (digitBits base) (digitOf c))

section base
variable (base : Char) (supported : digitBits base ≠ 0)
include supported

theorem base_cases : base = 'h' ∨ base = 'b' := by
  unfold digitBits at supported
  split at supported
  · next hexadecimal => exact Or.inl hexadecimal
  · split at supported
    · next binary => exact Or.inr binary
    · contradiction

/-- The reader takes the digits of the base, each for its value. -/
theorem initDigit_iff (c : Char) (digit : Nat) :
    (initDigit base c.toLower = some digit ∧ digit < 2 ^ digitBits base) ↔
      IsDigit (2 ^ digitBits base) c ∧ digitOf c = digit := by
  have letter (low : 'a' ≤ c.toLower) (high : c.toLower ≤ 'f') :
      10 + (c.toLower.toNat - 'a'.toNat) = c.toLower.toNat - 'a'.toNat + 10 := Nat.add_comm _ _
  unfold IsDigit digitOf digitValue initDigit
  by_cases decimal : '0' ≤ c.toLower ∧ c.toLower ≤ '9'
  · simp only [if_pos decimal, Option.some.injEq, Option.getD_some, exists_eq_left']
    constructor
    · rintro ⟨rfl, small⟩
      exact ⟨small, rfl⟩
    · rintro ⟨small, rfl⟩
      exact ⟨rfl, small⟩
  · simp only [if_neg decimal]
    by_cases alphabetic : 'a' ≤ c.toLower ∧ c.toLower ≤ 'f'
    · simp only [if_pos alphabetic, Option.some.injEq, Option.getD_some, exists_eq_left']
      rcases base_cases base supported with rfl | rfl
      · rw [if_pos ⟨rfl, alphabetic⟩, letter alphabetic.1 alphabetic.2, Option.some.injEq]
        constructor
        · rintro ⟨rfl, small⟩
          exact ⟨small, rfl⟩
        · rintro ⟨small, rfl⟩
          exact ⟨rfl, small⟩
      · rw [if_neg (fun given => absurd given.1 (by decide))]
        have two : 2 ^ digitBits 'b' = 2 := rfl
        rw [two]
        constructor
        · rintro ⟨given, -⟩
          cases given
        · rintro ⟨small, -⟩
          omega
    · rw [if_neg (fun given => alphabetic given.2)]
      simp only [if_neg alphabetic]
      simp

end base

/-! ### The loops of the reader -/

/-- The reader passes over one character: a separator, or a digit of the base. -/
theorem readDigits_pass (literal : String) (base : Char) (supported : digitBits base ≠ 0) (msbFirst : List Bool)
    (c : Char) (rest : List Char) (fine : c.toLower ≠ '_' → IsDigit (2 ^ digitBits base) c) :
    readDigits literal base msbFirst (c :: rest) = readDigits literal base (msbFirst ++ digitsBits base [c]) rest := by
  rw [readDigits]
  by_cases separator : c.toLower = '_'
  · have nothing : digitsBits base [c] = [] := by simp [digitsBits, written, separator]
    rw [nothing, List.append_nil]
    exact if_pos separator
  · obtain ⟨read, small⟩ := (initDigit_iff base supported c (digitOf c)).mpr ⟨fine separator, rfl⟩
    have known : ¬(c.toLower = 'x' ∨ c.toLower = 'z') := by
      rintro (same | same)
      all_goals
        rw [same] at read
        simp [initDigit] at read
    have one : digitsBits base [c] = bitsOf (digitBits base) (digitOf c) := by simp [digitsBits, written, separator]
    simp only [if_neg separator, if_neg known, read, if_neg (Nat.not_le.mpr small), one]

theorem digitsBits_cons (base c : Char) (rest : List Char) :
    digitsBits base (c :: rest) = digitsBits base [c] ++ digitsBits base rest := by
  unfold digitsBits
  rw [← List.flatMap_append, written, written, written, ← List.filter_append]
  rfl

/-- Digits of the base are read whatever comes after them. -/
theorem readDigits_append (literal : String) (base : Char) (supported : digitBits base ≠ 0) (msbFirst : List Bool)
    (front : List Char) (fine : ∀ c ∈ written front, IsDigit (2 ^ digitBits base) c) (rest : List Char) :
    readDigits literal base msbFirst (front ++ rest) =
      readDigits literal base (msbFirst ++ digitsBits base front) rest := by
  induction front generalizing msbFirst with
  | nil => simp [digitsBits, written]
  | cons c front ih =>
      have first (digit : c.toLower ≠ '_') : IsDigit (2 ^ digitBits base) c :=
        fine c (List.mem_filter.mpr ⟨List.mem_cons_self, by simpa using digit⟩)
      have others : ∀ d ∈ written front, IsDigit (2 ^ digitBits base) d := by
        intro d member
        obtain ⟨inFront, digit⟩ := List.mem_filter.mp member
        exact fine d (List.mem_filter.mpr ⟨List.mem_cons_of_mem _ inFront, digit⟩)
      rw [List.cons_append, readDigits_pass literal base supported msbFirst c (front ++ rest) first, ih _ others,
        digitsBits_cons base c front, List.append_assoc]

theorem readDigits_accepts (literal : String) (base : Char) (supported : digitBits base ≠ 0) (digits : List Char)
    (fine : ∀ c ∈ written digits, IsDigit (2 ^ digitBits base) c) :
    readDigits literal base [] digits = .ok (some (digitsBits base digits)) := by
  have whole := readDigits_append literal base supported [] digits fine []
  rw [List.append_nil] at whole
  rw [whole]
  rfl

/-- What the reader does with a character that is neither a separator nor a digit of the base. -/
theorem readDigits_refuses (literal : String) (base : Char) (supported : digitBits base ≠ 0) (msbFirst : List Bool)
    (c : Char) (rest : List Char) (digit : c.toLower ≠ '_') (bad : ¬ IsDigit (2 ^ digitBits base) c) :
    readDigits literal base msbFirst (c :: rest) =
      if c.toLower = 'x' ∨ c.toLower = 'z' then .ok none else .error (unsupported literal) := by
  rw [readDigits]
  simp only [if_neg digit]
  by_cases unknown : c.toLower = 'x' ∨ c.toLower = 'z'
  · rw [if_pos unknown, if_pos unknown]
  · rw [if_neg unknown, if_neg unknown]
    cases read : initDigit base c.toLower with
    | none => rfl
    | some value =>
        by_cases small : value < 2 ^ digitBits base
        · exact absurd ((initDigit_iff base supported c value).mp ⟨read, small⟩).1 bad
        · exact if_pos (Nat.not_lt.mp small)

/-- The first character that is neither a separator nor a digit decides. -/
theorem readDigits_stops (literal : String) (base : Char) (supported : digitBits base ≠ 0) (digits : List Char)
    (bad : ¬ ∀ c ∈ written digits, IsDigit (2 ^ digitBits base) c) :
    ∃ c ∈ written digits, ¬ IsDigit (2 ^ digitBits base) c ∧ readDigits literal base [] digits =
      if c.toLower = 'x' ∨ c.toLower = 'z' then .ok none else .error (unsupported literal) := by
  classical
  push Not at bad
  obtain ⟨d, member, notDigit⟩ := bad
  obtain ⟨inDigits, kept⟩ := List.mem_filter.mp member
  let stops (c : Char) : Bool := c.toLower != '_' && !decide (IsDigit (2 ^ digitBits base) c)
  have halts : (digits.find? stops).isSome := List.find?_isSome.mpr ⟨d, inDigits, by simpa [stops, notDigit] using kept⟩
  obtain ⟨c, found⟩ := Option.isSome_iff_exists.mp halts
  obtain ⟨first, front, rest, rfl, before⟩ := List.find?_eq_some_iff_append.mp found
  obtain ⟨digit, refused⟩ : c.toLower ≠ '_' ∧ ¬ IsDigit (2 ^ digitBits base) c := by simpa [stops] using first
  have fine : ∀ a ∈ written front, IsDigit (2 ^ digitBits base) a := by
    intro a inFront
    obtain ⟨there, notSeparator⟩ := List.mem_filter.mp inFront
    have passed := before a there
    simp only [stops, Bool.not_and, Bool.not_not, Bool.or_eq_true, decide_eq_true_eq] at passed
    rcases passed with separator | isDigit
    · rw [notSeparator] at separator
      contradiction
    · exact isDigit
  refine ⟨c, ?_, refused, ?_⟩
  · exact List.mem_filter.mpr ⟨List.mem_append_right _ List.mem_cons_self, by simpa using digit⟩
  · rw [readDigits_append literal base supported [] front fine,
      readDigits_refuses literal base supported _ c rest digit refused]

/-- The places are set when the number of the bits fits, and one is out of range when it does not. -/
theorem placeBits_spec (count : Nat) (msbFirst bits : List Bool) (sized : bits.length = count) :
    (bitsValue msbFirst < 2 ^ count → placeBits count bits msbFirst =
      .ok ((List.range count).map (fun i => bits.getD i false || (bitsValue msbFirst).testBit i))) ∧
    (2 ^ count ≤ bitsValue msbFirst → ∃ message, placeBits count bits msbFirst = .error message) := by
  induction msbFirst generalizing bits with
  | nil =>
      constructor
      · intro _
        rw [placeBits]
        congr 1
        refine List.ext_getElem (by simpa using sized) ?_
        intro i inside _
        simp [bitsValue, List.getD_eq_getElem?_getD, inside]
      · intro large
        have positive := Nat.two_pow_pos count
        simp only [bitsValue] at large
        omega
  | cons set rest ih =>
      have below := bitsValue_lt rest
      cases set with
      | false =>
          have same : bitsValue (false :: rest) = bitsValue rest := by simp [bitsValue]
          rw [placeBits, if_neg Bool.false_ne_true, same]
          exact ih bits sized
      | true =>
          have value : bitsValue (true :: rest) = 2 ^ rest.length + bitsValue rest := by simp [bitsValue]
          rw [placeBits, if_pos rfl, value]
          by_cases outside : count ≤ rest.length
          · have power : 2 ^ count ≤ 2 ^ rest.length := Nat.pow_le_pow_right (by omega) outside
            rw [if_pos outside]
            exact ⟨fun small => absurd small (by omega), fun _ => ⟨_, rfl⟩⟩
          · have power : 2 ^ (rest.length + 1) ≤ 2 ^ count := Nat.pow_le_pow_right (by omega) (by omega)
            rw [Nat.pow_succ] at power
            rw [if_neg outside]
            obtain ⟨accepts, -⟩ := ih (bits.set rest.length true) (by rw [List.length_set, sized])
            refine ⟨fun _ => ?_, fun large => absurd large (by omega)⟩
            rw [accepts (by omega)]
            congr 1
            refine List.map_congr_left ?_
            intro i member
            have inside : i < bits.length := by
              rw [sized]
              exact List.mem_range.mp member
            have split : 2 ^ rest.length + bitsValue rest = 2 ^ rest.length * 1 + bitsValue rest := by omega
            rw [split, Nat.testBit_two_pow_mul_add _ below, List.getD_eq_getElem?_getD, List.getElem?_set,
              List.getD_eq_getElem?_getD]
            rcases Nat.lt_trichotomy i rest.length with less | same | more
            · rw [if_neg (by omega), if_pos less]
            · subst same
              simp [inside]
            · have zero : bitsValue rest < 2 ^ i := below.trans_le (Nat.pow_le_pow_right (by omega) (by omega))
              have later : i - rest.length = i - rest.length - 1 + 1 := by omega
              rw [if_neg (by omega), if_neg (by omega), Nat.testBit_lt_two_pow zero, later, Nat.testBit_succ]
              simp

/-! ### Literals -/

/-- The text of a literal: what is before the quote, the letter of the base and the digits. -/
def literalOf (front : List Char) (letter : Char) (digits : List Char) : String :=
  String.ofList (front ++ quote :: letter :: digits)

/-- The number that the digits of a literal stand for. -/
def literalValue (letter : Char) (digits : List Char) : Nat :=
  numberOf (2 ^ digitBits letter.toLower) (written digits)

theorem bitsValue_flatMap (count : Nat) (digits : List Char) (fine : ∀ c ∈ digits, IsDigit (2 ^ count) c) :
    bitsValue (digits.flatMap (fun c => bitsOf count (digitOf c))) = numberOf (2 ^ count) digits := by
  induction digits with
  | nil => simp [bitsValue, numberOf]
  | cons c rest ih =>
      obtain ⟨digit, found, small⟩ := fine c List.mem_cons_self
      have read : digitOf c = digit := by
        unfold digitOf
        rw [found]
        rfl
      have length : (rest.flatMap (fun c => bitsOf count (digitOf c))).length = count * rest.length := by
        simp [List.length_flatMap, length_bitsOf, Nat.mul_comm]
      rw [List.flatMap_cons, bitsValue_append, ih (fun d member => fine d (List.mem_cons_of_mem _ member)),
        numberOf_cons, read, bitsValue_bitsOf _ digit small, length, Nat.pow_mul]

theorem decode_literal (front : List Char) (plain : quote ∉ front) (letter : Char)
    (supported : digitBits letter.toLower ≠ 0) (digits : List Char) (count : Nat) :
    decodeMemoryInitBits (literalOf front letter digits) count =
      match readDigits (literalOf front letter digits) letter.toLower [] digits with
      | .error message => .error message
      | .ok none => .ok none
      | .ok (some msbFirst) => (placeBits count (List.replicate count false) msbFirst).map some := by
  have found : (literalOf front letter digits).toList.dropWhile (· != quote) = quote :: letter :: digits := by
    unfold literalOf
    rw [String.toList_ofList, List.dropWhile_append_of_pos]
    · simp
    · intro c member
      have other : c ≠ quote := fun same => plain (same ▸ member)
      simpa using other
  unfold decodeMemoryInitBits
  rw [found]
  exact if_neg supported

/-- The bits of the literal, unless a digit is not of the base or a bit that is set is out of range. -/
structure Decoded (front : List Char) (letter : Char) (digits : List Char) (count : Nat) : Prop where
  bits : (∀ c ∈ written digits, IsDigit (2 ^ digitBits letter.toLower) c) → literalValue letter digits < 2 ^ count →
    decodeMemoryInitBits (literalOf front letter digits) count =
      .ok (some ((List.range count).map (literalValue letter digits).testBit))
  rejected : (¬ ∀ c ∈ written digits, IsDigit (2 ^ digitBits letter.toLower) c) ∨
      2 ^ count ≤ literalValue letter digits →
    ∃ message, decodeMemoryInitBits (literalOf front letter digits) count = .error message

theorem decoded (front : List Char) (plain : quote ∉ front) (letter : Char)
    (supported : digitBits letter.toLower ≠ 0) (digits : List Char) (known : ∀ c ∈ digits, ¬ Unknown c) (count : Nat) :
    Decoded front letter digits count := by
  have start := decode_literal front plain letter supported digits count
  by_cases fine : ∀ c ∈ written digits, IsDigit (2 ^ digitBits letter.toLower) c
  · have read := readDigits_accepts (literalOf front letter digits) letter.toLower supported digits fine
    obtain ⟨accepts, refuses⟩ := placeBits_spec count (digitsBits letter.toLower digits) (List.replicate count false)
      List.length_replicate
    unfold digitsBits at read accepts refuses
    rw [bitsValue_flatMap _ _ fine] at accepts refuses
    rw [read] at start
    constructor
    · intro _ small
      rw [start]
      simp only
      rw [accepts small]
      simp [Except.map, literalValue, List.getD_eq_getElem?_getD, List.getElem?_getD_replicate_default_eq]
    · rintro (bad | large)
      · exact absurd fine bad
      · obtain ⟨message, refused⟩ := refuses large
        refine ⟨message, ?_⟩
        rw [start]
        simp only
        rw [refused]
        rfl
  · obtain ⟨c, member, -, stopped⟩ :=
      readDigits_stops (literalOf front letter digits) letter.toLower supported digits fine
    have known' : ¬(c.toLower = 'x' ∨ c.toLower = 'z') := known c (List.mem_filter.mp member).1
    rw [if_neg known'] at stopped
    rw [stopped] at start
    exact ⟨fun all => absurd all fine, fun _ => ⟨_, start⟩⟩

/-! ### Written literals -/

theorem hexDigit_read (digit : Nat) (small : digit < 16) :
    digitValue (hexDigit digit).toLower = some digit ∧ (hexDigit digit).toLower ≠ '_' := by
  have all : ∀ d < 16, digitValue (hexDigit d).toLower = some d ∧ (hexDigit d).toLower ≠ '_' := by decide +kernel
  exact all digit small

def isOne (c : Char) : Bool := c == '1'

theorem bitDigit_eq (c : Char) : bitDigit c = (isOne c).toNat := by
  unfold bitDigit isOne
  by_cases one : c = '1'
  · simp [one]
  · rw [if_neg one, beq_eq_false_iff_ne.mpr one]
    rfl

theorem nibble_eq (a b c d : Char) :
    [a, b, c, d].foldl (fun digit c => 2 * digit + bitDigit c) 0 = bitsValue ([a, b, c, d].map isOne) := by
  simp only [List.foldl_cons, List.foldl_nil, List.map_cons, List.map_nil, bitsValue, List.length_cons, List.length_nil,
    bitDigit_eq]
  omega

theorem hexDigits_spec (chars : List Char) (groups : 4 ∣ chars.length) :
    (∀ c ∈ hexDigits chars, ∃ digit < 16, c = hexDigit digit) ∧ chars.length = 4 * (hexDigits chars).length ∧
      numberOf 16 (hexDigits chars) = bitsValue (chars.map isOne) := by
  induction chars using hexDigits.induct with
  | case1 a b c d rest ih =>
      obtain ⟨digits, length, value⟩ := ih (by simp only [List.length_cons] at groups; omega)
      have small : bitsValue ([a, b, c, d].map isOne) < 16 := bitsValue_lt _
      have read : digitOf (hexDigit (bitsValue ([a, b, c, d].map isOne))) = bitsValue ([a, b, c, d].map isOne) := by
        unfold digitOf
        rw [(hexDigit_read _ small).1]
        rfl
      have power : 2 ^ (rest.map isOne).length = 16 ^ (hexDigits rest).length := by
        rw [List.length_map, length, Nat.pow_mul]
      rw [hexDigits, nibble_eq]
      refine ⟨?_, by simp only [List.length_cons, length]; omega, ?_⟩
      · intro e member
        rcases List.mem_cons.mp member with rfl | later
        · exact ⟨_, small, rfl⟩
        · exact digits e later
      · have whole : (a :: b :: c :: d :: rest).map isOne = [a, b, c, d].map isOne ++ rest.map isOne := rfl
        rw [numberOf_cons, read, value, whole, bitsValue_append, power]
  | case2 chars short =>
      match chars, groups, short with
      | [], _, _ => exact ⟨nofun, rfl, rfl⟩
      | [_], groups, _ => simp at groups
      | [_, _], groups, _ => simp at groups
      | [_, _, _], groups, _ => simp at groups
      | a :: b :: c :: d :: rest, _, short => exact absurd rfl (short a b c d rest)

theorem pad_length (contents : List Char) : 4 ∣ (pad contents).length := by
  unfold pad
  rw [List.length_append, List.length_replicate]
  omega

theorem pad_value (contents : List Char) : bitsValue ((pad contents).map isOne) = bitsValue (contents.map isOne) := by
  have zeros (n : Nat) : bitsValue (List.replicate n false) = 0 := by
    induction n with
    | zero => rfl
    | succ n ih => simp [List.replicate_succ, bitsValue, ih]
  unfold pad
  rw [List.map_append, bitsValue_append, List.map_replicate]
  have padding : isOne '0' = false := by decide
  rw [padding, zeros, Nat.zero_mul, Nat.zero_add]

theorem quote_notMem_toString (size : Nat) : quote ∉ (toString size).toList := by
  intro member
  have digits : (toString size).toList = Nat.toDigits 10 size := by simp [toString, Nat.repr]
  rw [digits] at member
  have digit := Nat.isDigit_of_mem_toDigits (by omega) (by omega) member
  contradiction

/-- Known contents are read back, least significant bit first. -/
theorem decode_known (size : Nat) (contents : List Char) (binary : ∀ c ∈ contents, isUnknown c = false) :
    decodeMemoryInitBits (memoryInit size contents) contents.length = .ok (some (contents.reverse.map isOne)) := by
  have known : contents.any isUnknown = false := by simpa using binary
  have text : memoryInit size contents = literalOf (toString size).toList 'h' (hexDigits (pad contents)) := by
    unfold memoryInit literalOf
    rw [known, if_neg Bool.false_ne_true, String.ofList_append, String.ofList_toList]
  obtain ⟨digits, -, value⟩ := hexDigits_spec (pad contents) (pad_length contents)
  have plain : written (hexDigits (pad contents)) = hexDigits (pad contents) := by
    refine List.filter_eq_self.mpr ?_
    intro c member
    obtain ⟨digit, small, rfl⟩ := digits c member
    simpa using (hexDigit_read digit small).2
  have fine : ∀ c ∈ written (hexDigits (pad contents)), IsDigit 16 c := by
    rw [plain]
    intro c member
    obtain ⟨digit, small, rfl⟩ := digits c member
    exact ⟨digit, (hexDigit_read digit small).1, small⟩
  have stands : literalValue 'h' (hexDigits (pad contents)) = bitsValue (contents.map isOne) := by
    rw [← pad_value, ← value]
    exact congrArg (numberOf 16) plain
  have fits : bitsValue (contents.map isOne) < 2 ^ contents.length := by
    have bound := bitsValue_lt (contents.map isOne)
    rwa [List.length_map] at bound
  have numeric : ∀ c ∈ hexDigits (pad contents), ¬ Unknown c := by
    intro c member unknown
    obtain ⟨digit, small, rfl⟩ := digits c member
    have read := (hexDigit_read digit small).1
    rcases unknown with same | same
    all_goals
      rw [same] at read
      simp [digitValue] at read
  rw [text, (decoded _ (quote_notMem_toString size) 'h' (by decide) _ numeric contents.length).bits fine
    (by rw [stands]; exact fits), stands]
  congr 2
  refine List.ext_getElem (by simp) ?_
  intro i inside _
  have inside' : i < contents.length := by simpa using inside
  simp [testBit_bitsValue, List.getD_eq_getElem?_getD, ← List.map_reverse, inside']

/-- Contents with an unknown bit have no binary reading. -/
theorem decode_unknown (size count : Nat) (contents : List Char)
    (letters : ∀ c ∈ contents, c = '0' ∨ c = '1' ∨ c = 'x' ∨ c = 'z') (unknown : ∃ c ∈ contents, isUnknown c = true) :
    decodeMemoryInitBits (memoryInit size contents) count = .ok none := by
  have there : contents.any isUnknown = true := by simpa using unknown
  have text : memoryInit size contents = literalOf (toString size).toList 'b' contents := by
    unfold memoryInit literalOf
    rw [there, if_pos rfl, String.ofList_append, String.ofList_toList]
  have supported : digitBits 'b' ≠ 0 := by decide
  have refused (c : Char) (member : isUnknown c = true) : ¬ IsDigit 2 c ∧ c.toLower ≠ '_' := by
    have letter : c = 'x' ∨ c = 'z' := by simpa [isUnknown] using member
    rcases letter with rfl | rfl
    all_goals
      refine ⟨?_, by decide⟩
      rintro ⟨digit, found, -⟩
      simp [digitValue] at found
  have bad : ¬ ∀ c ∈ written contents, IsDigit (2 ^ digitBits 'b') c := by
    intro all
    obtain ⟨c, member, isUnknown⟩ := unknown
    exact (refused c isUnknown).1
      (all c (List.mem_filter.mpr ⟨member, by simpa using (refused c isUnknown).2⟩))
  obtain ⟨c, member, notDigit, stopped⟩ :=
    readDigits_stops (literalOf (toString size).toList 'b' contents) 'b' supported contents bad
  have letter : c.toLower = 'x' ∨ c.toLower = 'z' := by
    rcases letters c (List.mem_filter.mp member).1 with rfl | rfl | rfl | rfl
    · exact absurd ⟨0, by decide, by decide⟩ notDigit
    · exact absurd ⟨1, by decide, by decide⟩ notDigit
    · exact Or.inl (by decide)
    · exact Or.inr (by decide)
  rw [if_pos letter] at stopped
  have lower : Char.toLower 'b' = 'b' := by decide
  rw [text, decode_literal _ (quote_notMem_toString size) 'b' (by rw [lower]; exact supported), lower, stopped]

end Naja.Primitives.MemoryInit
