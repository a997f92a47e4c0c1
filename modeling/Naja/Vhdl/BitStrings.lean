import Naja.Vhdl.Ranges
import Mathlib.Data.Nat.Digits.Lemmas

/-! Bit-string literals: a length, a base and a string of digits, which the parser turns
into the bits they stand for. -/

namespace Naja.Vhdl.Parser

inductive TokenKind where
  | Identifier | ExtendedIdentifier | IntegerLiteral | RealLiteral | StringLiteral | CharacterLiteral | Symbol
  | Invalid | EndOfFile
deriving DecidableEq, Repr

structure Token where
  kind : TokenKind
  text : String
  canonical : String
  span : SourceSpan
deriving DecidableEq, Repr

def bitStringBase (token : Token) : Bool :=
  token.kind == .Identifier &&
    ["b", "o", "x", "d", "ub", "uo", "ux", "sb", "so", "sx"].contains token.canonical

/-! ### Digits -/

def bitChar (n : Nat) : Char := if n = 0 then '0' else '1'

/-- The pass over the bits of a decimal number, lowest first, that multiplies by ten and adds. -/
def timesTen : Nat → List Char → List Char × Nat
  | carry, [] => ([], carry)
  | carry, bit :: rest =>
      let sum := carry + (bit.toNat - '0'.toNat) * 10
      let (bits, last) := timesTen (sum / 2) rest
      (bitChar (sum % 2) :: bits, last)

def carryBits (carry : Nat) : List Char :=
  if carry = 0 then [] else bitChar (carry % 2) :: carryBits (carry / 2)
termination_by carry
decreasing_by omega

def tooLong (start : SourceSpan) : Diagnostic := ⟨"bit string length exceeds the supported range", start⟩

def decimalBits (start : SourceSpan) (literal : Token) : List Char → List Char → Except Diagnostic (List Char)
  | bits, [] => .ok bits
  | bits, c :: rest =>
      if c = '_' then decimalBits start literal bits rest
      else if ¬('0' ≤ c ∧ c ≤ '9') then .error ⟨"decimal bit string requires decimal digits", literal.span⟩
      else
        let product := timesTen (c.toNat - '0'.toNat) bits
        let bits := product.1 ++ carryBits product.2
        if bits.length > 65536 then .error (tooLong start) else decimalBits start literal bits rest

/-- The bits of a digit, highest first. -/
def digitBits : Nat → Nat → List Char
  | 0, _ => []
  | bit + 1, digit => bitChar (digit / 2 ^ bit % 2) :: digitBits bit digit

def expandDigit (width : Nat) (c : Char) : Option (List Char) :=
  if c = 'X' ∨ c = 'Z' then some (List.replicate width c) else (digit (2 ^ width) c).map (digitBits width)

def basedBits (start : SourceSpan) (literal : Token) (width : Nat) :
    List Char → List Char → Except Diagnostic (List Char)
  | bits, [] => .ok bits
  | bits, c :: rest =>
      if c = '_' then basedBits start literal width bits rest
      else
        match expandDigit width c.toUpper with
        | none => .error ⟨"invalid bit string digit", literal.span⟩
        | some expanded =>
            if (bits ++ expanded).length > 65536 then .error (tooLong start)
            else basedBits start literal width (bits ++ expanded) rest

/-! ### Literals -/

def statedLength (start : SourceSpan) : Option Token → Except Diagnostic (Option Nat)
  | none => .ok none
  | some token =>
      match (numeral 10 (lessUnderlines token.text)).filter (fun value => value ≤ 65536) with
      | none => .error (tooLong start)
      | some value => .ok (some value)

/-- What is between the quotes. -/
def inner (literal : Token) : List Char := (literal.text.toList.drop 1).dropLast

def signedBase (base : Token) : Bool := base.canonical.toList.head? == some 's'

def radix (base : Token) : Option Char := base.canonical.toList.getLast?

def widthOf (radix : Option Char) : Nat := if radix = some 'x' then 4 else if radix = some 'o' then 3 else 1

def adjacent (length : Option Token) (base literal : Token) : Bool :=
  (length.all (fun token => token.span.stop.offset == base.span.start.offset)) &&
    base.span.stop.offset == literal.span.start.offset

def misplacedUnderscore (literal : Token) : Bool :=
  literal.text.toList.length > 2 &&
    ((inner literal).head? == some '_' || (inner literal).getLast? == some '_' ||
      (literal.text.toList.zip (literal.text.toList.drop 1)).any (fun pair => pair == ('_', '_')))

def expandedBits (start : SourceSpan) (base literal : Token) : Except Diagnostic (List Char) :=
  if radix base = some 'd' then (decimalBits start literal ['0'] (inner literal)).map List.reverse
  else basedBits start literal (widthOf (radix base)) [] (inner literal)

def padOf (signed : Bool) (bits : List Char) : Char := if signed then bits.headD '0' else '0'

/-- Bits are added or dropped on the left; only padding is dropped. -/
def resize (pad : Char) (length : Nat) (bits : List Char) : Option (List Char) :=
  if length < bits.length then
    let excess := bits.length - length
    if ((bits.findIdx? (fun bit => bit != pad)).any (fun position => position < excess)) then none
    else some (bits.drop excess)
  else some (List.replicate (length - bits.length) pad ++ bits)

def resizeTo (signed : Bool) (length : Option Nat) (bits : List Char) : Option (List Char) :=
  match length with
  | none => some bits
  | some length => resize (padOf signed bits) length bits

def bitString (span : SourceSpan) (bits : List Char) : Expression :=
  .mk .BitStringLiteral ("\"" ++ String.ofList bits ++ "\"") "b" span none none none []

/-- The tokens of a length, if there is one, of a base and of a string. -/
def parseExtendedBitString (length : Option Token) (base literal : Token) : Except Diagnostic Expression :=
  let start := (length.getD base).span
  match statedLength start length with
  | .error e => .error e
  | .ok stated =>
      if ¬adjacent length base literal then .error ⟨"bit string length, base, and string must be adjacent", start⟩
      else if misplacedUnderscore literal then .error ⟨"bit string underscores must separate digits", literal.span⟩
      else
        match expandedBits start base literal with
        | .error e => .error e
        | .ok bits =>
            if signedBase base ∧ bits.isEmpty then .error ⟨"signed bit string cannot be empty", literal.span⟩
            else
              match resizeTo (signedBase base) stated bits with
              | none => .error ⟨"excess non-padding digits in bit string literal", literal.span⟩
              | some bits => .ok (bitString ⟨start.start, literal.span.stop⟩ bits)

/-! ### What is claimed -/

def digitsOf (literal : Token) : List Char := ((inner literal).filter (fun c => c != '_')).map Char.toUpper

/-- The number that digits stand for, if they are all digits of the base. -/
def positional (base : Nat) (digits : List Char) : Option Nat :=
  digits.foldlM (fun n c => (digit base c).map (fun d => n * base + d)) 0

/-- The base of the number system of a literal. -/
def baseOf (radix : Option Char) : Nat := if radix = some 'd' then 10 else 2 ^ widthOf radix

/-- The bits that a literal has without a stated length. -/
def expansion (radix : Option Char) (digits : List Char) : List Char :=
  if radix = some 'd' then
    match (positional 10 digits).getD 0 with
    | 0 => ['0']
    | n => ((Nat.digits 2 n).map bitChar).reverse
  else digits.flatMap (fun c => (expandDigit (widthOf radix) c).getD [])

/-- The number of so many bits in two's complement. -/
def twosComplement (length n : Nat) : Int := if 2 ^ length ≤ 2 * n then (n : Int) - 2 ^ length else n

/-- What the bits of a number, or its digits, stand for. -/
def valueOf (signed : Bool) (length : Nat) (number : Option Nat) : Option Int :=
  number.map (fun n => if signed then twosComplement length n else n)

/-- The bit at a position counted from the right, going on to the left with the padding. -/
def bitAt (signed : Bool) (bits : List Char) (position : Nat) : Char :=
  bits.reverse[position]?.getD (padOf signed bits)

/-- A literal and the bits it gives. -/
structure Denotes (length : Option Nat) (base literal : Token) (bits : List Char) : Prop where
  length : bits.length = length.getD (expansion (radix base) (digitsOf literal)).length
  value : ∀ v, valueOf (signedBase base) (expansion (radix base) (digitsOf literal)).length
      (positional (baseOf (radix base)) (digitsOf literal)) = some v →
    valueOf (signedBase base) bits.length (positional 2 bits) = some v
  digits : ∀ position, bitAt (signedBase base) bits position =
    bitAt (signedBase base) (expansion (radix base) (digitsOf literal)) position

/-- The first bit of a shortened signed literal is the one that was dropped. -/
def SignKept (length : Option Nat) (base literal : Token) : Prop :=
  signedBase base → ∀ n, length = some n → n < (expansion (radix base) (digitsOf literal)).length →
    (expansion (radix base) (digitsOf literal)).getD
        ((expansion (radix base) (digitsOf literal)).length - n) '0' =
      (expansion (radix base) (digitsOf literal)).headD '0'

/-! ### Numbers -/

def isBit (c : Char) : Prop := c = '0' ∨ c = '1'

theorem positional_from (base : Nat) (digits : List Char) (start : Nat) :
    digits.foldlM (fun n c => (digit base c).map (fun d => n * base + d)) start =
      (positional base digits).map (fun n => start * base ^ digits.length + n) := by
  unfold positional
  induction digits generalizing start with
  | nil => simp
  | cons c rest ih =>
      rw [List.foldlM_cons, List.foldlM_cons]
      cases digit base c with
      | none => rfl
      | some d =>
          simp only [Option.map_some, Option.bind_eq_bind, Option.bind_some]
          rw [ih (start * base + d), ih (0 * base + d), Option.map_map]
          congr 1
          funext n
          simp only [Function.comp, List.length_cons]
          ring

theorem positional_cons (base : Nat) (c : Char) (rest : List Char) :
    positional base (c :: rest) =
      (digit base c).bind (fun d => (positional base rest).map (fun n => d * base ^ rest.length + n)) := by
  have from_ (d : Nat) := positional_from base rest d
  unfold positional at *
  rw [List.foldlM_cons]
  cases digit base c with
  | none => rfl
  | some d =>
      simp only [Option.map_some, Option.bind_eq_bind, Option.bind_some, Nat.zero_mul, Nat.zero_add]
      exact from_ d

theorem positional_append (base : Nat) (first second : List Char) :
    positional base (first ++ second) =
      (positional base first).bind (fun m => (positional base second).map (fun n => m * base ^ second.length + n)) := by
  have from_ (m : Nat) := positional_from base second m
  unfold positional at *
  rw [List.foldlM_append]
  cases first.foldlM (fun n c => (digit base c).map (fun d => n * base + d)) 0 with
  | none => rfl
  | some m => exact from_ m

theorem digit_lt (base : Nat) (c : Char) (d : Nat) (given : digit base c = some d) : d < base := by
  obtain ⟨value, same⟩ : ∃ value, (if value < base then some value else none) = some d := ⟨_, given⟩
  split at same
  · next less => exact Option.some.inj same ▸ less
  · cases same

theorem digit_bitChar (n : Nat) (small : n < 2) : digit 2 (bitChar n) = some n := by
  obtain rfl | rfl : n = 0 ∨ n = 1 := by omega
  · decide
  · decide

theorem char_of_code (c c' : Char) (same : c.toNat = c'.toNat) : c = c' := Char.ext (UInt32.toNat_inj.mp same)

theorem digit_two (c : Char) (d : Nat) (given : digit 2 c = some d) : d < 2 ∧ c = bitChar d := by
  unfold digit at given
  simp only at given
  have code (letter : Char) (value : Nat) (same : letter.toNat = value) (below : letter ≤ c) : value ≤ c.toNat :=
    same ▸ below
  by_cases isDigit : c.isDigit = true
  · rw [if_pos isDigit] at given
    have zero : 48 ≤ c.toNat := by
      unfold Char.isDigit at isDigit
      simp only [Bool.and_eq_true, decide_eq_true_eq] at isDigit
      exact isDigit.1
    by_cases small : c.toNat - 48 < 2
    · rw [if_pos small] at given
      obtain rfl := Option.some.inj given
      refine ⟨small, char_of_code _ _ ?_⟩
      obtain none_ | one : c.toNat = 48 ∨ c.toNat = 49 := by omega
      · rw [none_]
        rfl
      · rw [one]
        rfl
    · rw [if_neg small] at given
      cases given
  · rw [if_neg isDigit] at given
    by_cases lower : 'a' ≤ c ∧ c ≤ 'f'
    · have above := code 'a' 97 rfl lower.1
      rw [if_pos lower, if_neg (by omega)] at given
      cases given
    · rw [if_neg lower] at given
      by_cases upper : 'A' ≤ c ∧ c ≤ 'F'
      · have above := code 'A' 65 rfl upper.1
        rw [if_pos upper, if_neg (by omega)] at given
        cases given
      · rw [if_neg upper, if_neg (by omega)] at given
        cases given

theorem positional_lt (bits : List Char) (n : Nat) (given : positional 2 bits = some n) : n < 2 ^ bits.length := by
  induction bits generalizing n with
  | nil =>
      cases given
      decide
  | cons c rest ih =>
      rw [positional_cons] at given
      obtain ⟨d, first, further⟩ := Option.bind_eq_some_iff.mp given
      obtain ⟨m, others, rfl⟩ := Option.map_eq_some_iff.mp further
      have small := (digit_two c d first).1
      have below := ih m others
      rw [List.length_cons, Nat.pow_succ]
      obtain rfl | rfl : d = 0 ∨ d = 1 := by omega
      · omega
      · omega

theorem length_digitBits (width d : Nat) : (digitBits width d).length = width := by
  induction width with
  | zero => rfl
  | succ width ih => rw [digitBits, List.length_cons, ih]

/-- The bits of a digit stand for it. -/
theorem positional_digitBits (width d : Nat) : positional 2 (digitBits width d) = some (d % 2 ^ width) := by
  induction width with
  | zero => simp [digitBits, positional, Nat.mod_one]
  | succ width ih =>
      rw [digitBits, positional_cons, digit_bitChar _ (Nat.mod_lt _ (by decide)), Option.bind_some, ih,
        length_digitBits, Option.map_some, Nat.mod_pow_succ]
      congr 1
      ring

/-! ### Based literals -/

theorem basedBits_ok (start : SourceSpan) (literal : Token) (width : Nat) (acc cs bits : List Char)
    (given : basedBits start literal width acc cs = .ok bits) :
    bits = acc ++ ((cs.filter (fun c => c != '_')).map Char.toUpper).flatMap (fun c => (expandDigit width c).getD []) ∧
      ∀ c ∈ (cs.filter (fun c => c != '_')).map Char.toUpper, (expandDigit width c).isSome := by
  fun_induction basedBits start literal width acc cs with
  | case1 acc =>
      cases given
      exact ⟨(List.append_nil _).symm, nofun⟩
  | case2 acc rest ih =>
      have skipped : ('_' :: rest).filter (fun c => c != '_') = rest.filter (fun c => c != '_') := rfl
      rw [skipped]
      exact ih given
  | case3 => cases given
  | case4 => cases given
  | case5 acc c rest other expanded found fits ih =>
      have kept : (c :: rest).filter (fun c => c != '_') = c :: rest.filter (fun c => c != '_') :=
        List.filter_cons_of_pos (by simpa using other)
      obtain ⟨whole, all⟩ := ih given
      rw [kept, List.map_cons, List.flatMap_cons, found, ← List.append_assoc]
      refine ⟨whole, ?_⟩
      intro c' member
      rcases List.mem_cons.mp member with rfl | inside
      · rw [found]
        rfl
      · exact all c' inside

/-- The digits and their bits stand for the same number. -/
theorem positional_expand (width : Nat) (positive : 0 < width) (small : width ≤ 4) (digits : List Char)
    (all : ∀ c ∈ digits, (expandDigit width c).isSome) :
    positional 2 (digits.flatMap (fun c => (expandDigit width c).getD [])) = positional (2 ^ width) digits ∧
      (digits.flatMap (fun c => (expandDigit width c).getD [])).length = width * digits.length := by
  induction digits with
  | nil => exact ⟨rfl, rfl⟩
  | cons c rest ih =>
      obtain ⟨number, length⟩ := ih (fun c' member => all c' (List.mem_cons_of_mem _ member))
      have one := all c List.mem_cons_self
      rw [List.flatMap_cons, positional_append, number, length, positional_cons, List.length_append, length]
      unfold expandDigit at one ⊢
      by_cases unknown : c = 'X' ∨ c = 'Z'
      · rw [if_pos unknown]
        have power : 2 ^ width ≤ 2 ^ 4 := Nat.pow_le_pow_right (by decide) small
        have noDigit (base : Nat) (bound : base ≤ 16) : digit base c = none := by
          rcases unknown with rfl | rfl
          · exact if_neg (by change ¬base < base; omega)
          · exact if_neg (by change ¬base < base; omega)
        have first : positional 2 (List.replicate width c) = none := by
          obtain ⟨width, rfl⟩ := Nat.exists_eq_add_one.mpr positive
          rw [List.replicate_succ, positional_cons, noDigit 2 (by decide)]
          rfl
        rw [Option.getD_some, first, noDigit (2 ^ width) (by omega), List.length_replicate, List.length_cons]
        exact ⟨rfl, by ring⟩
      · rw [if_neg unknown] at one ⊢
        cases found : digit (2 ^ width) c with
        | none =>
            rw [found] at one
            cases one
        | some d =>
            have bound := digit_lt (2 ^ width) c d found
            rw [Option.map_some, Option.getD_some, positional_digitBits, Nat.mod_eq_of_lt bound, Option.bind_some,
              Option.bind_some, length_digitBits, List.length_cons, Nat.pow_mul]
            exact ⟨rfl, by ring⟩

/-! ### Decimal literals -/

/-- The number of bits with the lowest first. -/
def low (bits : List Char) : Nat := Nat.ofDigits 2 (bits.map (fun c => c.toNat - '0'.toNat))

theorem code_bitChar (n : Nat) (small : n < 2) : (bitChar n).toNat - '0'.toNat = n := by
  obtain rfl | rfl : n = 0 ∨ n = 1 := by omega
  · rfl
  · rfl

theorem timesTen_low (carry : Nat) (bits : List Char) :
    low (timesTen carry bits).1 + 2 ^ bits.length * (timesTen carry bits).2 = carry + 10 * low bits ∧
      (timesTen carry bits).1.length = bits.length ∧ ∀ c ∈ (timesTen carry bits).1, isBit c := by
  induction bits generalizing carry with
  | nil => exact ⟨by simp [timesTen, low], rfl, nofun⟩
  | cons bit rest ih =>
      obtain ⟨value, length, bits⟩ := ih ((carry + (bit.toNat - '0'.toNat) * 10) / 2)
      have parts := Nat.mod_add_div (carry + (bit.toNat - '0'.toNat) * 10) 2
      refine ⟨?_, congrArg (· + 1) length, ?_⟩
      · unfold low at value ⊢
        rw [timesTen, List.map_cons, Nat.ofDigits_cons, List.map_cons, Nat.ofDigits_cons, List.length_cons,
          code_bitChar _ (Nat.mod_lt _ (by decide)), Nat.pow_succ]
        change _ + 2 * _ + 2 ^ rest.length * 2 * (timesTen ((carry + (bit.toNat - '0'.toNat) * 10) / 2) rest).2 = _
        nlinarith
      · intro c member
        rcases List.mem_cons.mp member with rfl | inside
        · unfold isBit bitChar
          split
          · exact .inl rfl
          · exact .inr rfl
        · exact bits c inside

theorem carryBits_digits (carry : Nat) : carryBits carry = (Nat.digits 2 carry).map bitChar := by
  fun_induction carryBits carry with
  | case1 => rfl
  | case2 carry positive ih =>
      rw [Nat.digits_def' (by decide) (Nat.pos_of_ne_zero positive), List.map_cons, ih]

/-- The bits of a number with the lowest first, without leading zeros. -/
def lowBits (n : Nat) : List Char := if n = 0 then ['0'] else (Nat.digits 2 n).map bitChar

/-- Bits that end with a one are those of their number. -/
theorem lowBits_of_last (bits : List Char) (all : ∀ c ∈ bits, isBit c) (last : bits.getLast? = some '1') :
    lowBits (low bits) = bits ∧ 2 ^ bits.length ≤ 2 * low bits := by
  have codes : ∀ n ∈ bits.map (fun c => c.toNat - '0'.toNat), n < 2 := by
    intro n member
    obtain ⟨c, inside, rfl⟩ := List.mem_map.mp member
    rcases all c inside with rfl | rfl
    · decide
    · decide
  obtain ⟨front, rfl⟩ : ∃ front, bits = front ++ ['1'] := by
    obtain ⟨front, whole⟩ := List.getLast?_eq_some_iff.mp last
    exact ⟨front, whole⟩
  have digits : Nat.digits 2 (low (front ++ ['1'])) = (front ++ ['1']).map (fun c => c.toNat - '0'.toNat) := by
    refine Nat.digits_ofDigits 2 (by decide) _ codes ?_
    intro some_
    simp
  have large : 2 ^ (front ++ ['1']).length ≤ 2 * low (front ++ ['1']) := by
    unfold low
    rw [List.map_append, Nat.ofDigits_append, List.length_append, Nat.pow_add]
    simp [Nat.ofDigits]
    omega
  have positive : low (front ++ ['1']) ≠ 0 := by
    intro zero
    rw [zero] at large
    have power := Nat.two_pow_pos (front ++ ['1']).length
    omega
  refine ⟨?_, large⟩
  rw [lowBits, if_neg positive, digits, List.map_map]
  refine (List.map_congr_left ?_).trans (List.map_id _)
  intro c member
  rcases all c member with rfl | rfl
  · rfl
  · rfl

theorem last_carryBits (carry : Nat) (positive : carry ≠ 0) : (carryBits carry).getLast? = some '1' := by
  rw [carryBits_digits, List.getLast?_map]
  have some_ : Nat.digits 2 carry ≠ [] := Nat.digits_ne_nil_iff_ne_zero.mpr positive
  rw [List.getLast?_eq_some_getLast some_, Option.map_some]
  have nonzero := Nat.getLast_digit_ne_zero 2 positive
  unfold bitChar
  rw [if_neg nonzero]

theorem isBit_bitChar (n : Nat) : isBit (bitChar n) := by
  unfold isBit bitChar
  split
  · exact .inl rfl
  · exact .inr rfl

theorem low_append (first second : List Char) : low (first ++ second) = low first + 2 ^ first.length * low second := by
  unfold low
  rw [List.map_append, Nat.ofDigits_append, List.length_map]

theorem low_carryBits (n : Nat) : low (carryBits n) = n := by
  rw [carryBits_digits, low, List.map_map]
  have codes : (Nat.digits 2 n).map ((fun c => c.toNat - '0'.toNat) ∘ bitChar) = Nat.digits 2 n := by
    refine (List.map_congr_left ?_).trans (List.map_id _)
    intro digit member
    exact code_bitChar digit (Nat.digits_lt_base (by decide) member)
  rw [codes, Nat.ofDigits_digits]

theorem isBit_carryBits (n : Nat) : ∀ c ∈ carryBits n, isBit c := by
  rw [carryBits_digits]
  intro c member
  obtain ⟨digit, -, rfl⟩ := List.mem_map.mp member
  exact isBit_bitChar digit

theorem low_lt (bits : List Char) (all : ∀ c ∈ bits, isBit c) : low bits < 2 ^ bits.length := by
  have below := Nat.ofDigits_lt_base_pow_length (b := 2) (l := bits.map (fun c => c.toNat - '0'.toNat)) (by decide) (by
    intro n member
    obtain ⟨c, inside, rfl⟩ := List.mem_map.mp member
    rcases all c inside with rfl | rfl
    · decide
    · decide)
  rwa [List.length_map] at below

/-- One digit more. -/
theorem lowBits_step (n d : Nat) :
    (timesTen d (lowBits n)).1 ++ carryBits (timesTen d (lowBits n)).2 = lowBits (10 * n + d) := by
  by_cases zero : n = 0
  · subst zero
    have first : (timesTen d (lowBits 0)).1 ++ carryBits (timesTen d (lowBits 0)).2 = bitChar (d % 2) :: carryBits (d / 2) := rfl
    rw [first, Nat.mul_zero, Nat.zero_add]
    by_cases none_ : d = 0
    · subst none_
      rw [carryBits]
      rfl
    · rw [lowBits, if_neg none_, ← carryBits_digits]
      conv => rhs; rw [carryBits, if_neg none_]
  · have same : lowBits n = carryBits n := by rw [lowBits, if_neg zero, carryBits_digits]
    obtain ⟨value, length, bits⟩ := timesTen_low d (lowBits n)
    have large := (lowBits_of_last (carryBits n) (isBit_carryBits n) (last_carryBits n zero)).2
    rw [same, low_carryBits] at value
    rw [low_carryBits] at large
    have below := low_lt _ bits
    rw [length] at below
    rw [same] at below
    have carried : (timesTen d (carryBits n)).2 ≠ 0 := by
      intro none_
      rw [none_] at value
      omega
    have whole : low ((timesTen d (lowBits n)).1 ++ carryBits (timesTen d (lowBits n)).2) = 10 * n + d := by
      rw [low_append, low_carryBits, length, same, value, Nat.add_comm]
    have last : ((timesTen d (lowBits n)).1 ++ carryBits (timesTen d (lowBits n)).2).getLast? = some '1' := by
      rw [List.getLast?_append, same, last_carryBits _ carried]
      rfl
    have all : ∀ c ∈ (timesTen d (lowBits n)).1 ++ carryBits (timesTen d (lowBits n)).2, isBit c := by
      intro c member
      rcases List.mem_append.mp member with left | right
      · exact bits c left
      · exact isBit_carryBits _ c right
    rw [← whole]
    exact (lowBits_of_last _ all last).1.symm

theorem decimalBits_ok (start : SourceSpan) (literal : Token) (n : Nat) (bits cs result : List Char)
    (accumulated : bits = lowBits n) (given : decimalBits start literal bits cs = .ok result) :
    ∃ m, ((cs.filter (fun c => c != '_')).map Char.toUpper).foldlM
      (fun n c => (digit 10 c).map (fun d => n * 10 + d)) n = some m ∧ result = lowBits m := by
  fun_induction decimalBits start literal bits cs generalizing n with
  | case1 bits =>
      cases given
      exact ⟨n, rfl, accumulated⟩
  | case2 bits rest ih =>
      have skipped : ('_' :: rest).filter (fun c => c != '_') = rest.filter (fun c => c != '_') := rfl
      rw [skipped]
      exact ih n accumulated given
  | case3 => cases given
  | case4 => cases given
  | case5 bits c rest other isDigit product next fits ih =>
      have kept : (c :: rest).filter (fun c => c != '_') = c :: rest.filter (fun c => c != '_') :=
        List.filter_cons_of_pos (by simpa using other)
      have bounds : '0' ≤ c ∧ c ≤ '9' := not_not.mp isDigit
      have low48 : 48 ≤ c.toNat := bounds.1
      have high57 : c.toNat ≤ 57 := bounds.2
      have upper : c.toUpper = c := by
        refine dif_neg ?_
        intro lower
        have code : 97 ≤ c.toNat := lower.1
        omega
      have isDigit' : c.isDigit = true := by
        unfold Char.isDigit
        simp only [Bool.and_eq_true, decide_eq_true_eq]
        exact bounds
      have found : digit 10 c = some (c.toNat - '0'.toNat) := by
        unfold digit
        rw [if_pos isDigit']
        exact if_pos (by change c.toNat - 48 < 10; omega)
      rw [kept, List.map_cons, List.foldlM_cons, upper, found]
      have step : next = lowBits (n * 10 + (c.toNat - '0'.toNat)) := by
        rw [Nat.mul_comm]
        subst accumulated
        exact lowBits_step n _
      exact ih _ step given

theorem positional_reverse (bits : List Char) (all : ∀ c ∈ bits, isBit c) :
    positional 2 bits.reverse = some (low bits) := by
  induction bits with
  | nil => rfl
  | cons c rest ih =>
      have one : positional 2 [c] = some (c.toNat - '0'.toNat) := by
        rcases all c List.mem_cons_self with rfl | rfl
        · decide
        · decide
      rw [List.reverse_cons, positional_append, ih (fun c' member => all c' (List.mem_cons_of_mem _ member)), one]
      unfold low
      rw [List.map_cons, Nat.ofDigits_cons]
      simp only [Option.bind_some, Option.map_some, List.length_singleton]
      congr 1
      rw [Nat.pow_one, Nat.mul_comm, Nat.add_comm]

/-- The bits of an accepted literal are its expansion, and the number of its digits. -/
theorem expandedBits_ok (start : SourceSpan) (base literal : Token) (bits : List Char)
    (given : expandedBits start base literal = .ok bits) :
    bits = expansion (radix base) (digitsOf literal) ∧
      positional 2 bits = positional (baseOf (radix base)) (digitsOf literal) := by
  unfold expandedBits at given
  unfold expansion baseOf digitsOf
  by_cases decimal : radix base = some 'd'
  · rw [if_pos decimal] at given
    rw [if_pos decimal, if_pos decimal]
    cases read : decimalBits start literal ['0'] (inner literal) with
    | error e =>
        rw [read] at given
        cases given
    | ok result =>
        rw [read] at given
        obtain rfl := Except.ok.inj given
        obtain ⟨m, number, rfl⟩ := decimalBits_ok start literal 0 ['0'] _ result rfl read
        have total : positional 10 (((inner literal).filter (fun c => c != '_')).map Char.toUpper) = some m := number
        rw [total, Option.getD_some]
        by_cases zero : m = 0
        · subst zero
          exact ⟨rfl, by decide⟩
        · have same : lowBits m = carryBits m := by rw [lowBits, if_neg zero, carryBits_digits]
          constructor
          · split
            · exact absurd rfl zero
            · rw [lowBits, if_neg zero]
          · rw [same, positional_reverse _ (isBit_carryBits m), low_carryBits]
  · rw [if_neg decimal] at given
    rw [if_neg decimal, if_neg decimal]
    obtain ⟨whole, all⟩ := basedBits_ok start literal _ [] _ bits given
    have widths : 0 < widthOf (radix base) ∧ widthOf (radix base) ≤ 4 := by
      unfold widthOf
      split
      · decide
      · split
        · decide
        · decide
    rw [List.nil_append] at whole
    exact ⟨whole, whole ▸ (positional_expand _ widths.1 widths.2 _ all).1⟩

/-! ### Padding -/

theorem positional_of_not_bit (first second : List Char) (c : Char) (other : ¬isBit c) :
    positional 2 (first ++ c :: second) = none := by
  have none_ : digit 2 c = none := by
    cases found : digit 2 c with
    | none => rfl
    | some d =>
        rw [(digit_two c d found).2] at other
        exact absurd (isBit_bitChar d) other
  rw [positional_append, positional_cons, none_]
  cases positional 2 first <;> rfl

theorem positional_zeros (count : Nat) : positional 2 (List.replicate count '0') = some 0 := by
  induction count with
  | zero => rfl
  | succ count ih =>
      have zero : digit 2 '0' = some 0 := by decide
      rw [List.replicate_succ, positional_cons, zero, ih]
      simp

theorem positional_ones (count : Nat) : positional 2 (List.replicate count '1') = some (2 ^ count - 1) := by
  induction count with
  | zero => rfl
  | succ count ih =>
      have one : digit 2 '1' = some 1 := by decide
      have power := Nat.two_pow_pos count
      rw [List.replicate_succ, positional_cons, one, ih, Option.bind_some, Option.map_some, List.length_replicate,
        Nat.pow_succ]
      congr 1
      omega

/-- The first bit is the sign. -/
theorem sign_bound (c : Char) (rest : List Char) (n : Nat) (given : positional 2 (c :: rest) = some n) :
    (c = '0' → 2 * n < 2 ^ (c :: rest).length) ∧ (c = '1' → 2 ^ (c :: rest).length ≤ 2 * n) := by
  rw [positional_cons] at given
  obtain ⟨d, first, further⟩ := Option.bind_eq_some_iff.mp given
  obtain ⟨m, others, rfl⟩ := Option.map_eq_some_iff.mp further
  have below := positional_lt rest m others
  rw [List.length_cons, Nat.pow_succ]
  constructor
  · rintro rfl
    have zero : digit 2 '0' = some 0 := by decide
    obtain rfl := Option.some.inj (zero.symm.trans first)
    omega
  · rintro rfl
    have one : digit 2 '1' = some 1 := by decide
    obtain rfl := Option.some.inj (one.symm.trans first)
    omega

section padding
variable (signed : Bool) (count : Nat) (pad : Char) (part : List Char)

/-- Padding with the sign of what follows does not change the value. -/
theorem valueOf_pad (bit : isBit pad) (kept : padOf signed part = pad) :
    valueOf signed (List.replicate count pad ++ part).length (positional 2 (List.replicate count pad ++ part)) =
      valueOf signed part.length (positional 2 part) := by
  have total : (List.replicate count pad ++ part).length = count + part.length := by
    rw [List.length_append, List.length_replicate]
  rw [total, positional_append]
  cases number : positional 2 part with
  | none => cases positional 2 (List.replicate count pad) <;> rfl
  | some m =>
      have power := Nat.two_pow_pos part.length
      have powers : 2 ^ (count + part.length) = 2 ^ count * 2 ^ part.length := Nat.pow_add 2 count part.length
      have grown : 2 ^ part.length ≤ 2 ^ (count + part.length) := Nat.pow_le_pow_right (by decide) (by omega)
      rcases bit with rfl | rfl
      · rw [positional_zeros]
        simp only [Option.bind_some, Option.map_some, Nat.zero_mul, Nat.zero_add, valueOf]
        cases signed with
        | false => rfl
        | true =>
            have small : 2 * m < 2 ^ part.length := by
              cases part with
              | nil =>
                  cases number
                  decide
              | cons c rest => exact (sign_bound c rest m number).1 kept
            simp only [if_true, twosComplement]
            rw [if_neg (by omega), if_neg (by omega)]
      · cases signed with
        | false =>
            change ('0' : Char) = '1' at kept
            exact absurd kept (by decide)
        | true =>
            have large : 2 ^ part.length ≤ 2 * m := by
              cases part with
              | nil => exact absurd kept (by decide)
              | cons c rest => exact (sign_bound c rest m number).2 kept
            have ones := Nat.two_pow_pos count
            rw [positional_ones]
            simp only [Option.bind_some, Option.map_some, valueOf, if_true, twosComplement]
            have sum : (2 ^ count - 1) * 2 ^ part.length + m + 2 ^ part.length = 2 ^ (count + part.length) + m := by
              rw [powers, Nat.sub_mul, Nat.one_mul]
              have less : 2 ^ part.length ≤ 2 ^ count * 2 ^ part.length := Nat.le_mul_of_pos_left _ ones
              omega
            rw [if_pos large, if_pos (by omega)]
            congr 1
            have cast : (((2 ^ count - 1) * 2 ^ part.length + m : Nat) : Int) + (2 ^ part.length : Nat) =
                (2 ^ (count + part.length) : Nat) + m := by exact_mod_cast sum
            push_cast at cast ⊢
            omega

theorem bitAt_pad (kept : padOf signed (List.replicate count pad ++ part) = pad) :
    (∀ position, bitAt signed part position = bitAt signed (List.replicate count pad ++ part) position) ↔
      padOf signed part = pad := by
  have far (bits : List Char) (position : Nat) (beyond : bits.length ≤ position) :
      bitAt signed bits position = padOf signed bits := by
    unfold bitAt
    rw [List.getElem?_eq_none (by rwa [List.length_reverse])]
    rfl
  constructor
  · intro same
    have there := same (List.replicate count pad ++ part).length
    rw [far part _ (by rw [List.length_append]; omega), far _ _ (Nat.le_refl _), kept] at there
    exact there
  · intro own position
    unfold bitAt
    rw [kept, own, List.reverse_append, List.reverse_replicate, List.getElem?_append, List.length_reverse]
    split
    · rfl
    · next beyond =>
        rw [List.getElem?_eq_none (by rw [List.length_reverse]; omega), List.getElem?_replicate]
        split
        · rfl
        · rfl

end padding

/-! ### Stated lengths -/

theorem resize_ok (pad : Char) (length : Nat) (bits result : List Char) (given : resize pad length bits = some result) :
    result.length = length ∧
      ((bits.length ≤ length ∧ result = List.replicate (length - bits.length) pad ++ bits) ∨
        (length < bits.length ∧ result = bits.drop (bits.length - length) ∧
          bits = List.replicate (bits.length - length) pad ++ result)) := by
  unfold resize at given
  by_cases less : length < bits.length
  · rw [if_pos less] at given
    by_cases other : (bits.findIdx? (fun bit => bit != pad)).any (fun position => position < bits.length - length)
    · rw [if_pos other] at given
      cases given
    · rw [if_neg other] at given
      obtain rfl := Option.some.inj given
      have dropped : bits.take (bits.length - length) = List.replicate (bits.length - length) pad := by
        refine List.eq_replicate_iff.mpr ⟨by rw [List.length_take]; omega, ?_⟩
        intro bit member
        by_contra differs
        obtain ⟨position, bound, there⟩ := List.getElem_of_mem member
        rw [List.length_take] at bound
        rw [List.getElem_take] at there
        apply other
        cases found : bits.findIdx? (fun bit => bit != pad) with
        | none =>
            have all := List.findIdx?_eq_none_iff.mp found bit (List.mem_of_mem_take member)
            exact absurd (by simpa using all) differs
        | some first =>
            obtain ⟨inside, -, earlier⟩ := List.findIdx?_eq_some_iff_getElem.mp found
            have early : first ≤ position := by
              by_contra late
              have agrees := earlier position (by omega)
              rw [there] at agrees
              exact absurd (by simpa using agrees) differs
            simp only [Option.any_some, decide_eq_true_eq]
            omega
      refine ⟨by rw [List.length_drop]; omega, .inr ⟨less, rfl, ?_⟩⟩
      rw [← dropped, List.take_append_drop]
  · rw [if_neg less] at given
    obtain rfl := Option.some.inj given
    refine ⟨?_, .inl ⟨by omega, rfl⟩⟩
    rw [List.length_append, List.length_replicate]
    omega

theorem positional_of_pad (signed : Bool) (bits : List Char) (other : ¬isBit (padOf signed bits)) :
    positional 2 bits = none := by
  cases signed with
  | false => exact absurd (.inl rfl) other
  | true =>
      cases bits with
      | nil => exact absurd (.inl rfl) other
      | cons c rest => exact positional_of_not_bit [] rest c other

/-- Resizing keeps value and digits if the first bit that is left is the first bit before. -/
theorem resize_iff (signed : Bool) (length : Nat) (bits result : List Char)
    (given : resize (padOf signed bits) length bits = some result) :
    ((∀ v, valueOf signed bits.length (positional 2 bits) = some v →
        valueOf signed result.length (positional 2 result) = some v) ∧
      ∀ position, bitAt signed result position = bitAt signed bits position) ↔
      (signed → length < bits.length → bits.getD (bits.length - length) '0' = bits.headD '0') := by
  obtain ⟨-, ⟨padded, whole⟩ | ⟨dropped, kept, whole⟩⟩ := resize_ok _ length bits result given
  · refine ⟨fun _ _ less => absurd less (by omega), fun _ => ?_⟩
    have own : padOf signed (List.replicate (length - bits.length) (padOf signed bits) ++ bits) = padOf signed bits := by
      cases signed with
      | false => rfl
      | true =>
          cases length - bits.length with
          | zero => rfl
          | succ count => rfl
    constructor
    · intro v value
      by_cases bit : isBit (padOf signed bits)
      · rw [whole, valueOf_pad signed _ _ bits bit rfl]
        exact value
      · rw [positional_of_pad signed bits bit] at value
        cases value
    · intro position
      rw [whole]
      exact ((bitAt_pad signed _ _ bits own).mpr rfl position).symm
  · have own : padOf signed (List.replicate (bits.length - length) (padOf signed bits) ++ result) = padOf signed bits :=
      congrArg (padOf signed) whole.symm
    have digits := bitAt_pad signed (bits.length - length) (padOf signed bits) result own
    rw [← whole] at digits
    have first : padOf signed result = padOf signed bits ↔
        (signed → length < bits.length → bits.getD (bits.length - length) '0' = bits.headD '0') := by
      have there : bits.getD (bits.length - length) '0' = result.headD '0' := by
        rw [kept, List.headD_eq_head?_getD, List.head?_drop, List.getD_eq_getElem?_getD]
      rw [there]
      cases signed with
      | false =>
          constructor
          · intro _ impossible
            cases impossible
          · intro _
            rfl
      | true =>
          constructor
          · intro same _ _
            exact same
          · intro same
            exact same rfl dropped
    rw [digits, first, and_iff_right_iff_imp, ← first]
    intro same v value
    by_cases bit : isBit (padOf signed bits)
    · rw [← valueOf_pad signed (bits.length - length) _ result bit same, ← whole]
      exact value
    · rw [positional_of_pad signed bits bit] at value
      cases value

/-- An accepted literal has been expanded and resized. -/
theorem parseExtendedBitString_ok (length : Option Token) (base literal : Token) (e : Expression)
    (accepted : parseExtendedBitString length base literal = .ok e) :
    ∃ read expanded result, statedLength (length.getD base).span length = .ok read ∧
      expandedBits (length.getD base).span base literal = .ok expanded ∧
      resizeTo (signedBase base) read expanded = some result ∧
      e = bitString ⟨(length.getD base).span.start, literal.span.stop⟩ result := by
  unfold parseExtendedBitString at accepted
  simp only at accepted
  cases stated : statedLength (length.getD base).span length with
  | error failure =>
      rw [stated] at accepted
      cases accepted
  | ok read =>
      rw [stated] at accepted
      simp only at accepted
      split at accepted
      · cases accepted
      · split at accepted
        · cases accepted
        · cases found : expandedBits (length.getD base).span base literal with
          | error failure =>
              rw [found] at accepted
              cases accepted
          | ok expanded =>
              rw [found] at accepted
              simp only at accepted
              split at accepted
              · cases accepted
              · cases resized : resizeTo (signedBase base) read expanded with
                | none =>
                    rw [resized] at accepted
                    cases accepted
                | some result =>
                    rw [resized] at accepted
                    exact ⟨read, expanded, result, rfl, rfl, resized, (Except.ok.inj accepted).symm⟩

theorem statedLength_ok (start : SourceSpan) (length : Option Token) (read : Option Nat)
    (given : statedLength start length = .ok read) :
    read = length.bind (fun token => numeral 10 (lessUnderlines token.text)) := by
  cases length with
  | none => exact (Except.ok.inj given).symm
  | some token =>
      unfold statedLength at given
      simp only at given
      cases value : numeral 10 (lessUnderlines token.text) with
      | none =>
          rw [value] at given
          cases given
      | some n =>
          rw [value] at given
          by_cases small : n ≤ 65536
          · rw [Option.filter_some, if_pos (by simpa using small)] at given
            rw [Option.bind_some, value]
            exact (Except.ok.inj given).symm
          · rw [Option.filter_some, if_neg (by simpa using small)] at given
            cases given

/-- The bits of an accepted literal are what it denotes unless a shorter length changes its sign. -/
theorem bitString_iff (length : Option Token) (base literal : Token) (known : bitStringBase base = true)
    (e : Expression) (accepted : parseExtendedBitString length base literal = .ok e) :
    (∃ bits, e.text = "\"" ++ String.ofList bits ++ "\"" ∧
        Denotes (length.bind (fun token => numeral 10 (lessUnderlines token.text))) base literal bits) ↔
      SignKept (length.bind (fun token => numeral 10 (lessUnderlines token.text))) base literal := by
  obtain ⟨read, expanded, result, stated, found, resized, rfl⟩ :=
    parseExtendedBitString_ok length base literal e accepted
  obtain ⟨whole, number⟩ := expandedBits_ok _ base literal expanded found
  have length_ := statedLength_ok _ length read stated
  rw [← length_]
  unfold SignKept
  rw [← whole]
  have only (bits : List Char) (same : (bitString ⟨(length.getD base).span.start, literal.span.stop⟩ result).text =
      "\"" ++ String.ofList bits ++ "\"") : bits = result := by
    have chars := congrArg String.toList same
    simp only [bitString, Expression.text, String.toList_append, String.toList_ofList] at chars
    exact (List.append_cancel_left (List.append_cancel_right chars)).symm
  have core : Denotes read base literal result ↔
      (signedBase base → ∀ n, read = some n → n < expanded.length →
        expanded.getD (expanded.length - n) '0' = expanded.headD '0') := by
    cases read with
    | none =>
        obtain rfl := Option.some.inj resized
        constructor
        · intro _ _ n impossible
          cases impossible
        · intro _
          refine ⟨?_, ?_, ?_⟩
          · rw [← whole]
            rfl
          · rw [← whole, ← number]
            exact fun _ value => value
          · rw [← whole]
            exact fun _ => rfl
    | some n =>
        have length_ := (resize_ok _ n expanded result resized).1
        have same := resize_iff (signedBase base) n expanded result resized
        constructor
        · intro denotes signed m given less
          obtain rfl := Option.some.inj given
          refine same.mp ⟨?_, ?_⟩ signed less
          · rw [number, whole]
            exact denotes.value
          · rw [whole]
            exact denotes.digits
        · intro kept
          obtain ⟨value, digits⟩ := same.mpr (fun signed less => kept signed n rfl less)
          refine ⟨length_, ?_, ?_⟩
          · rw [← whole, ← number]
            exact value
          · rw [← whole]
            exact digits
  rw [← core]
  constructor
  · rintro ⟨bits, text, denotes⟩
    exact only bits text ▸ denotes
  · intro denotes
    exact ⟨result, rfl, denotes⟩

def placed (kind : TokenKind) (text canonical : String) (offset : Nat) : Token :=
  ⟨kind, text, canonical, ⟨⟨offset, 1, offset + 1⟩, ⟨offset + text.length, 1, offset + text.length + 1⟩⟩⟩

/-- `4SX"08"` is eight, but its four bits are minus eight. -/
theorem bitString_changes_sign :
    parseExtendedBitString (some (placed .IntegerLiteral "4" "4" 0)) (placed .Identifier "SX" "sx" 1)
        (placed .StringLiteral "\"08\"" "\"08\"" 3) = .ok (bitString ⟨⟨0, 1, 1⟩, ⟨7, 1, 8⟩⟩ ['1', '0', '0', '0']) ∧
      ¬∃ bits, (bitString ⟨⟨0, 1, 1⟩, ⟨7, 1, 8⟩⟩ ['1', '0', '0', '0']).text = "\"" ++ String.ofList bits ++ "\"" ∧
        Denotes (some 4) (placed .Identifier "SX" "sx" 1) (placed .StringLiteral "\"08\"" "\"08\"" 3) bits := by
  have given : parseExtendedBitString (some (placed .IntegerLiteral "4" "4" 0)) (placed .Identifier "SX" "sx" 1)
      (placed .StringLiteral "\"08\"" "\"08\"" 3) =
        .ok (bitString ⟨⟨0, 1, 1⟩, ⟨7, 1, 8⟩⟩ ['1', '0', '0', '0']) := by rfl
  refine ⟨given, ?_⟩
  rintro ⟨bits, text, denotes⟩
  have eight : valueOf true 8 (positional 16 ['0', '8']) = some 8 := by decide
  have value := denotes.value 8 eight
  have chars := congrArg String.toList text
  simp only [bitString, Expression.text, String.toList_append, String.toList_ofList] at chars
  obtain rfl := List.append_cancel_left (List.append_cancel_right chars)
  exact absurd value (by decide)

theorem bitString_keeps_sign :
    ∃ bits, (bitString ⟨⟨0, 1, 1⟩, ⟨7, 1, 8⟩⟩ ['1', '1', '1', '1']).text = "\"" ++ String.ofList bits ++ "\"" ∧
      Denotes (some 4) (placed .Identifier "SX" "sx" 1) (placed .StringLiteral "\"FF\"" "\"FF\"" 3) bits := by
  refine (bitString_iff (some (placed .IntegerLiteral "4" "4" 0)) (placed .Identifier "SX" "sx" 1)
    (placed .StringLiteral "\"FF\"" "\"FF\"" 3) (by decide) _ rfl).mpr ?_
  intro _ n length _
  obtain rfl : n = 4 := (Option.some.inj length).symm
  decide

end Naja.Vhdl.Parser
