import Mathlib.Data.Nat.Digits.Defs
import Naja.Modeling.InstanceCaches

/-! The literals from which the table of an instance is read: every string has one shape, and the
bits are those of the number of that shape, or the string is refused. -/

namespace Naja.Modeling

/-! ### Numbers -/

/-- The digits stand for a number of the base, most significant first. -/
def IsDigit (base : Nat) (c : Char) : Prop := ∃ d, digitValue c.toLower = some d ∧ d < base

def digitOf (c : Char) : Nat := (digitValue c.toLower).getD 0

def numberOf (base : Nat) (digits : List Char) : Nat := Nat.ofDigits base (digits.reverse.map digitOf)

/-- No digits, one that is not of the base, or a number of more than 64 bits. -/
def BadDigits (base : Nat) (digits : List Char) : Prop :=
  digits = [] ∨ (∃ c ∈ digits, ¬ IsDigit base c) ∨ 2 ^ 64 ≤ numberOf base digits

/-- The value when nothing is refused, else an error. -/
structure Outcome (result : Except String Nat) (refused : Prop) (value : Nat) : Prop where
  accepted : ¬ refused → result = .ok value
  rejected : refused → ∃ message, result = .error message

/-- `parseUnsignedDigits` with the accumulation in 64 bits. -/
def parseDigits64 (base : Nat) (literal : String) : Nat → List Char → Except String Nat
  | value, [] => .ok value
  | value, c :: rest =>
      let lower := c.toLower
      if lower = 'x' ∨ lower = 'z' ∨ lower = '?' then
        .error ("Unknown bits are not supported in truth-table parameter value <" ++ literal ++ ">")
      else
        match digitValue lower with
        | none => .error ("Invalid truth-table parameter value <" ++ literal ++ ">")
        | some digit =>
            if base ≤ digit ∨ (2 ^ 64 - 1 - digit) / base < value then
              .error ("Truth-table parameter value does not fit in 64 bits <" ++ literal ++ ">")
            else parseDigits64 base literal ((value * base % 2 ^ 64 + digit) % 2 ^ 64) rest

theorem fits_iff (base value digit : Nat) (inside : digit < base) (small : base ≤ 16) :
    ¬ (base ≤ digit ∨ (2 ^ 64 - 1 - digit) / base < value) ↔ value * base + digit < 2 ^ 64 := by
  have positive : 0 < base := by omega
  rw [not_or, Nat.not_lt, Nat.le_div_iff_mul_le positive]
  constructor
  · rintro ⟨-, below⟩
    omega
  · intro below
    exact ⟨by omega, by omega⟩

/-- The checks before every step keep the accumulation from wrapping. -/
theorem parseDigits64_eq (base : Nat) (literal : String) (value : Nat) (digits : List Char) (small : base ≤ 16) :
    parseDigits64 base literal value digits = parseDigits base literal value digits := by
  induction digits generalizing value with
  | nil => rfl
  | cons c rest ih =>
      unfold parseDigits64 parseDigits
      simp only
      split
      · rfl
      · cases digitValue c.toLower with
        | none => rfl
        | some digit =>
            by_cases fits : base ≤ digit ∨ (2 ^ 64 - 1 - digit) / base < value
            · simp only [if_pos fits]
            · have inside : digit < base := by
                have fine := not_or.mp fits
                omega
              have below := (fits_iff base value digit inside small).mp fits
              have unwrapped : (value * base % 2 ^ 64 + digit) % 2 ^ 64 = value * base + digit := by omega
              simp only [if_neg fits]
              rw [unwrapped, ih]

theorem numberOf_cons (base : Nat) (c : Char) (rest : List Char) :
    numberOf base (c :: rest) = digitOf c * base ^ rest.length + numberOf base rest := by
  simp [numberOf, Nat.ofDigits_append, Nat.mul_comm, Nat.add_comm]

theorem unknown_notDigit (base : Nat) (c : Char) (unknown : c.toLower = 'x' ∨ c.toLower = 'z' ∨ c.toLower = '?') :
    ¬ IsDigit base c := by
  rintro ⟨d, found, -⟩
  rcases unknown with same | same | same
  all_goals
    rw [same] at found
    simp [digitValue] at found

/-- The digits read so far and the number of the others. -/
theorem parseDigits_outcome (base : Nat) (literal : String) (value : Nat) (digits : List Char) (positive : 0 < base)
    (small : base ≤ 16) (below : value < 2 ^ 64) :
    Outcome (parseDigits base literal value digits)
      ((∃ c ∈ digits, ¬ IsDigit base c) ∨ 2 ^ 64 ≤ value * base ^ digits.length + numberOf base digits)
      (value * base ^ digits.length + numberOf base digits) := by
  induction digits generalizing value with
  | nil =>
      have total : value * base ^ ([] : List Char).length + numberOf base [] = value := by simp [numberOf]
      rw [total]
      constructor
      · intro _
        rfl
      · rintro (⟨c, member, -⟩ | large)
        · cases member
        · omega
  | cons c rest ih =>
      have refuse (message : String) (notDigit : ¬ IsDigit base c) :
          Outcome (.error message)
            ((∃ d ∈ c :: rest, ¬ IsDigit base d) ∨
              2 ^ 64 ≤ value * base ^ (c :: rest).length + numberOf base (c :: rest))
            (value * base ^ (c :: rest).length + numberOf base (c :: rest)) :=
        ⟨fun fine => absurd (Or.inl ⟨c, List.mem_cons_self, notDigit⟩) fine, fun _ => ⟨message, rfl⟩⟩
      unfold parseDigits
      simp only
      by_cases unknown : c.toLower = 'x' ∨ c.toLower = 'z' ∨ c.toLower = '?'
      · rw [if_pos unknown]
        exact refuse _ (unknown_notDigit base c unknown)
      · rw [if_neg unknown]
        cases found : digitValue c.toLower with
        | none =>
            refine refuse _ ?_
            rintro ⟨d, given, -⟩
            rw [found] at given
            cases given
        | some digit =>
            have total : value * base ^ (c :: rest).length + numberOf base (c :: rest) =
                (value * base + digit) * base ^ rest.length + numberOf base rest := by
              rw [numberOf_cons, digitOf, found, List.length_cons, Nat.pow_succ, Option.getD_some]
              ring
            by_cases inside : digit < base
            · have isDigit : IsDigit base c := ⟨digit, found, inside⟩
              have same : (∃ d ∈ c :: rest, ¬ IsDigit base d) ↔ ∃ d ∈ rest, ¬ IsDigit base d := by
                simp [isDigit]
              simp only
              rw [same, total]
              by_cases fits : base ≤ digit ∨ (2 ^ 64 - 1 - digit) / base < value
              · have large : 2 ^ 64 ≤ value * base + digit := by
                  by_contra less
                  exact (fits_iff base value digit inside small).mpr (by omega) fits
                have power : 1 ≤ base ^ rest.length := Nat.one_le_pow _ _ positive
                have more : value * base + digit ≤ (value * base + digit) * base ^ rest.length :=
                  Nat.le_mul_of_pos_right _ power
                rw [if_pos fits]
                exact ⟨fun fine => absurd (Or.inr (by omega)) fine, fun _ => ⟨_, rfl⟩⟩
              · rw [if_neg fits]
                exact ih _ ((fits_iff base value digit inside small).mp fits)
            · simp only
              rw [if_pos (Or.inl (Nat.not_lt.mp inside))]
              refine refuse _ ?_
              rintro ⟨d, given, less⟩
              rw [found] at given
              cases given
              exact inside less

theorem parseUnsignedDigits_outcome (base : Nat) (literal : String) (digits : List Char) (positive : 0 < base)
    (small : base ≤ 16) :
    Outcome (parseUnsignedDigits digits base literal) (BadDigits base digits) (numberOf base digits) := by
  unfold parseUnsignedDigits
  by_cases empty : digits = []
  · subst empty
    exact ⟨fun fine => absurd (Or.inl rfl) fine, fun _ => ⟨_, rfl⟩⟩
  · have read := parseDigits_outcome base literal 0 digits positive small (by decide)
    simp only [Nat.zero_mul, Nat.zero_add] at read
    have same : BadDigits base digits ↔ (∃ c ∈ digits, ¬ IsDigit base c) ∨ 2 ^ 64 ≤ numberOf base digits := by
      simp [BadDigits, empty]
    rw [same]
    simpa [empty] using read

/-! ### Shapes -/

/-- The shapes of a literal, without its separators. -/
inductive Literal where
  | decimal (digits : List Char)
  | hexadecimal (x : Char) (digits : List Char)
  | based (size sign : List Char) (radix : Char) (digits : List Char)
  | fill (size sign : List Char) (bit : Char)
  | bare (size sign : List Char)

def signs : List (List Char) := [[], ['s'], ['S']]

def fillBits : List Char := ['0', '1', 'x', 'X', 'z', 'Z', '?']

namespace Literal

def text : Literal → List Char
  | decimal digits => digits
  | hexadecimal x digits => '0' :: x :: digits
  | based size sign radix digits => size ++ quote :: (sign ++ radix :: digits)
  | fill size sign bit => size ++ quote :: (sign ++ [bit])
  | bare size sign => size ++ quote :: sign

/-- What tells the shapes apart. -/
def Formed : Literal → Prop
  | decimal digits => quote ∉ digits ∧ ∀ x rest, digits = '0' :: x :: rest → x ∈ ['x', 'X'] → rest = []
  | hexadecimal x digits => x ∈ ['x', 'X'] ∧ digits ≠ [] ∧ quote ∉ digits
  | based size sign radix digits =>
      quote ∉ size ∧ sign ∈ signs ∧ (sign = [] → radix ∉ ['s', 'S']) ∧ (digits = [] → radix ∉ fillBits)
  | fill size sign bit => quote ∉ size ∧ sign ∈ signs ∧ bit ∈ fillBits
  | bare size sign => quote ∉ size ∧ sign ∈ signs

/-- A size that is written and is not a decimal number of 64 bits. -/
def BadSize (size : List Char) : Prop := size ≠ [] ∧ BadDigits 10 size

def Refused : Literal → Prop
  | decimal digits => BadDigits 10 digits
  | hexadecimal _ digits => BadDigits 16 digits
  | based size _ radix digits =>
      BadSize size ∨ radixOf radix = none ∨ ∃ base, radixOf radix = some base ∧ BadDigits base digits
  | fill size _ bit => BadSize size ∨ bit ∉ ['0', '1']
  | bare _ _ => True

/-- The number a literal stands for in a context of `width` bits. -/
def value (width : Nat) : Literal → Nat
  | decimal digits => numberOf 10 digits
  | hexadecimal _ digits => numberOf 16 digits
  | based size _ radix digits =>
      if size ≠ [] ∧ numberOf 10 size < 64 then numberOf ((radixOf radix).getD 0) digits % 2 ^ numberOf 10 size
      else numberOf ((radixOf radix).getD 0) digits
  | fill _ _ bit => if bit = '1' then 2 ^ width - 1 else 0
  | bare _ _ => 0

/-- The bits of a table over `inputCount` inputs, from `offset` on. -/
def bits (offset inputCount : Nat) : Literal → Nat
  | fill _ _ bit => if bit = '1' then 2 ^ 2 ^ inputCount - 1 else 0
  | shape => shape.value (offset + 2 ^ inputCount) / 2 ^ offset % 2 ^ 2 ^ inputCount

end Literal

/-- What is left of a string without its separators. -/
def stripped (literal : String) : List Char := literal.toList.filter (fun c => c != '_' && !isSpace c)

/-- The sign letter in front of what follows the quote. -/
theorem exists_sign (rest : List Char) :
    ∃ sign tail, rest = sign ++ tail ∧ sign ∈ signs ∧ (sign = [] → tail.head? ≠ some 's' ∧ tail.head? ≠ some 'S') := by
  cases rest with
  | nil => exact ⟨[], [], rfl, by decide, fun _ => ⟨nofun, nofun⟩⟩
  | cons c tail =>
      by_cases small : c = 's'
      · exact ⟨['s'], tail, by rw [small]; rfl, by decide, nofun⟩
      · by_cases large : c = 'S'
        · exact ⟨['S'], tail, by rw [large]; rfl, by decide, nofun⟩
        · exact ⟨[], c :: tail, rfl, by decide, fun _ => ⟨by simpa using small, by simpa using large⟩⟩

/-- Every string has a shape. -/
theorem exists_shape (chars : List Char) : ∃ shape : Literal, shape.Formed ∧ shape.text = chars := by
  by_cases quoted : quote ∈ chars
  · obtain ⟨size, rest, rfl, noQuote⟩ := List.eq_append_cons_of_mem quoted
    obtain ⟨sign, tail, rfl, isSign, free⟩ := exists_sign rest
    cases tail with
    | nil =>
        refine ⟨.bare size sign, ⟨noQuote, isSign⟩, ?_⟩
        rw [List.append_nil]
        rfl
    | cons c digits =>
        have notSign : sign = [] → c ∉ ['s', 'S'] := by
          intro none
          have both := free none
          simpa using both
        by_cases alone : digits = [] ∧ c ∈ fillBits
        · obtain ⟨rfl, isFill⟩ := alone
          exact ⟨.fill size sign c, ⟨noQuote, isSign, isFill⟩, rfl⟩
        · exact ⟨.based size sign c digits, ⟨noQuote, isSign, notSign, fun none isFill => alone ⟨none, isFill⟩⟩, rfl⟩
  · by_cases hex : ∃ x rest, chars = '0' :: x :: rest ∧ x ∈ ['x', 'X'] ∧ rest ≠ []
    · obtain ⟨x, rest, rfl, isX, some_⟩ := hex
      have noQuote : quote ∉ rest := fun member => quoted (List.mem_cons_of_mem _ (List.mem_cons_of_mem _ member))
      exact ⟨.hexadecimal x rest, ⟨isX, some_, noQuote⟩, rfl⟩
    · refine ⟨.decimal chars, ⟨quoted, fun x rest same isX => ?_⟩, rfl⟩
      by_contra some_
      exact hex ⟨x, rest, same, isX, some_⟩

/-! ### Reading -/

theorem Outcome.bind (result : Except String Nat) (next : Nat → Except String Nat) (first second : Prop) (a b : Nat)
    (read : Outcome result first a) (go : Outcome (next a) second b) : Outcome (result >>= next) (first ∨ second) b := by
  constructor
  · intro fine
    obtain ⟨fine₁, fine₂⟩ := not_or.mp fine
    rw [read.accepted fine₁]
    exact go.accepted fine₂
  · intro bad
    by_cases bad₁ : first
    · obtain ⟨message, same⟩ := read.rejected bad₁
      exact ⟨message, by rw [same]; rfl⟩
    · obtain ⟨message, same⟩ := go.rejected (bad.resolve_left bad₁)
      exact ⟨message, by rw [read.accepted bad₁]; exact same⟩

theorem Outcome.map (result : Except String Nat) (f : Nat → Nat) (refused : Prop) (a : Nat)
    (read : Outcome result refused a) : Outcome (result >>= fun value => pure (f value)) refused (f a) := by
  constructor
  · intro fine
    rw [read.accepted fine]
    rfl
  · intro bad
    obtain ⟨message, same⟩ := read.rejected bad
    exact ⟨message, by rw [same]; rfl⟩

theorem radixOf_bounds (radix : Char) (base : Nat) (given : radixOf radix = some base) : 0 < base ∧ base ≤ 16 := by
  unfold radixOf at given
  split at given <;> cases given <;> decide

/-- A size below 64 bits cuts the value. -/
def cut (width : Option Nat) (value : Nat) : Nat :=
  match width with
  | some width => if width < 64 then value % 2 ^ width else value
  | none => value

theorem parseQuoted_based (literal : String) (width : Option Nat) (contextualWidth : Nat) (radix : Char)
    (digits : List Char) (notFill : digits = [] → radix ∉ fillBits) :
    Outcome (parseQuoted literal width contextualWidth (radix :: digits))
      (radixOf radix = none ∨ ∃ base, radixOf radix = some base ∧ BadDigits base digits)
      (cut width (numberOf ((radixOf radix).getD 0) digits)) := by
  have guard_ : ¬ (digits.isEmpty = true ∧ ['0', '1', 'x', 'X', 'z', 'Z', '?'].contains radix = true) := by
    rintro ⟨empty, isFill⟩
    exact notFill (List.isEmpty_iff.mp empty) (List.contains_iff_mem.mp isFill)
  unfold parseQuoted
  simp only
  rw [if_neg guard_]
  cases found : radixOf radix with
  | none => exact ⟨fun fine => absurd (Or.inl rfl) fine, fun _ => ⟨_, rfl⟩⟩
  | some base =>
      have bounds := radixOf_bounds radix base found
      have read := parseUnsignedDigits_outcome base literal digits bounds.1 bounds.2
      have same : (some base = none ∨ ∃ b, some base = some b ∧ BadDigits b digits) ↔ BadDigits base digits := by simp
      rw [same]
      cases width with
      | none => exact Outcome.map _ id _ _ read
      | some width =>
          by_cases narrow : width < 64
          · simp only [cut, if_pos narrow]
            exact Outcome.map _ (· % 2 ^ width) _ _ read
          · simp only [cut, if_neg narrow]
            exact Outcome.map _ id _ _ read

theorem parseQuoted_fill (literal : String) (width : Option Nat) (contextualWidth : Nat) (small : contextualWidth ≤ 64)
    (bit : Char) (isFill : bit ∈ fillBits) :
    Outcome (parseQuoted literal width contextualWidth [bit]) (bit ∉ ['0', '1'])
      (if bit = '1' then 2 ^ contextualWidth - 1 else 0) := by
  have guard_ : ([] : List Char).isEmpty = true ∧ ['0', '1', 'x', 'X', 'z', 'Z', '?'].contains bit = true :=
    ⟨rfl, List.contains_iff_mem.mpr isFill⟩
  have mask : widthMask contextualWidth = 2 ^ contextualWidth - 1 := by
    unfold widthMask
    split
    · next wide =>
        have whole : contextualWidth = 64 := by omega
        rw [whole]
    · rfl
  unfold parseQuoted
  simp only
  rw [if_pos guard_, mask]
  constructor
  · intro known
    have either : bit = '0' ∨ bit = '1' := by
      rw [not_not] at known
      simpa using known
    rcases either with rfl | rfl
    · rfl
    · rfl
  · intro unknown
    have neither : bit ≠ '0' ∧ bit ≠ '1' := by simpa using unknown
    rw [if_pos neither]
    exact ⟨_, rfl⟩

/-- The part after the quote, once the size before it is read. -/
theorem parse_quoted (literal : String) (contextualWidth : Nat) (size sign tail : List Char) (noQuote : quote ∉ size)
    (isSign : sign ∈ signs) (free : sign = [] → tail.head? ≠ some 's' ∧ tail.head? ≠ some 'S')
    (text : stripped literal = size ++ quote :: (sign ++ tail)) (refused : Prop) (value : Option Nat → Nat)
    (read : ∀ width, Outcome (parseQuoted literal width contextualWidth tail) refused (value width)) :
    Outcome (parseTruthTableParameterValue literal contextualWidth) (Literal.BadSize size ∨ refused)
      (value (if size = [] then none else some (numberOf 10 size))) := by
  have front : (stripped literal).takeWhile (· != quote) = size := by
    rw [text, List.takeWhile_append_of_pos, List.takeWhile_cons_of_neg (by simp), List.append_nil]
    intro c member
    have differ : c ≠ quote := by
      rintro rfl
      exact noQuote member
    simpa using differ
  have back : (stripped literal).drop (size.length + 1) = sign ++ tail := by
    rw [text, List.drop_append]
    simp
  have unsigned : (if (sign ++ tail).head? = some 's' ∨ (sign ++ tail).head? = some 'S' then (sign ++ tail).drop 1
      else sign ++ tail) = tail := by
    simp only [signs, List.mem_cons, List.not_mem_nil, or_false] at isSign
    rcases isSign with rfl | rfl | rfl
    · obtain ⟨small, large⟩ := free rfl
      simp [small, large]
    · simp
    · simp
  have some_ : (stripped literal).isEmpty = false := by simp [text]
  have quoted : (stripped literal).contains quote = true := by simp [text]
  have normalized : literal.toList.filter (fun c => c != '_' && !isSpace c) = stripped literal := rfl
  have parsed : parseTruthTableParameterValue literal contextualWidth =
      if size.isEmpty then parseQuoted literal none contextualWidth tail
      else parseUnsignedDigits size 10 literal >>= fun width => parseQuoted literal (some width) contextualWidth tail := by
    unfold parseTruthTableParameterValue
    simp only [normalized, some_, quoted, front, back, unsigned, Bool.false_eq_true, if_false, if_true]
  rw [parsed]
  by_cases empty : size = []
  · have nothing : (Literal.BadSize size ∨ refused) ↔ refused := by simp [Literal.BadSize, empty]
    rw [nothing, if_pos empty, if_pos (List.isEmpty_iff.mpr empty)]
    exact read none
  · have written : Literal.BadSize size ↔ BadDigits 10 size := by simp [Literal.BadSize, empty]
    rw [written, if_neg empty, if_neg (by simpa using empty)]
    exact Outcome.bind _ _ _ _ _ _ (parseUnsignedDigits_outcome 10 literal size (by decide) (by decide)) (read _)

/-- A literal without a quote. -/
theorem parse_plain (literal : String) (contextualWidth : Nat) (noQuote : quote ∉ stripped literal) :
    parseTruthTableParameterValue literal contextualWidth =
      if (stripped literal).isEmpty then .error "Empty truth-table parameter value"
      else if (stripped literal).length > 2 ∧
          ((stripped literal).take 2 = ['0', 'x'] ∨ (stripped literal).take 2 = ['0', 'X']) then
        parseUnsignedDigits ((stripped literal).drop 2) 16 literal
      else parseUnsignedDigits (stripped literal) 10 literal := by
  have normalized : literal.toList.filter (fun c => c != '_' && !isSpace c) = stripped literal := rfl
  have unquoted : (stripped literal).contains quote = false := by simpa using noQuote
  unfold parseTruthTableParameterValue
  simp only [normalized, unquoted, Bool.false_eq_true, if_false]

/-- A literal is read by its shape. -/
theorem parse_shape (literal : String) (contextualWidth : Nat) (small : contextualWidth ≤ 64) (shape : Literal)
    (formed : shape.Formed) (text : shape.text = stripped literal) :
    Outcome (parseTruthTableParameterValue literal contextualWidth) shape.Refused (shape.value contextualWidth) := by
  cases shape with
  | decimal digits =>
      obtain ⟨noQuote, notHex⟩ := formed
      change digits = stripped literal at text
      subst text
      have plain : ¬ ((stripped literal).length > 2 ∧
          ((stripped literal).take 2 = ['0', 'x'] ∨ (stripped literal).take 2 = ['0', 'X'])) := by
        rintro ⟨long, hex⟩
        have split_ := List.take_append_drop 2 (stripped literal)
        have nothing : (stripped literal).drop 2 = [] := by
          rcases hex with same | same
          · exact notHex 'x' _ (by rw [← split_, same]; simp) (by decide)
          · exact notHex 'X' _ (by rw [← split_, same]; simp) (by decide)
        have short := congrArg List.length nothing
        simp only [List.length_drop, List.length_nil] at short
        omega
      rw [parse_plain literal contextualWidth noQuote, if_neg plain]
      by_cases empty : stripped literal = []
      · rw [if_pos (List.isEmpty_iff.mpr empty)]
        exact ⟨fun fine => absurd (Or.inl empty) fine, fun _ => ⟨_, rfl⟩⟩
      · rw [if_neg (by simpa using empty)]
        exact parseUnsignedDigits_outcome 10 literal _ (by decide) (by decide)
  | hexadecimal x digits =>
      obtain ⟨isX, some_, noQuote⟩ := formed
      change '0' :: x :: digits = stripped literal at text
      have long : 2 < ('0' :: x :: digits).length := by
        have positive := List.length_pos_iff.mpr some_
        simp only [List.length_cons]
        omega
      have either : x = 'x' ∨ x = 'X' := by simpa using isX
      have unquoted : quote ∉ stripped literal := by
        rw [← text]
        simp only [List.mem_cons, not_or]
        refine ⟨by decide, ?_, noQuote⟩
        rcases either with rfl | rfl
        · decide
        · decide
      have hex : ('0' :: x :: digits).length > 2 ∧
          (('0' :: x :: digits).take 2 = ['0', 'x'] ∨ ('0' :: x :: digits).take 2 = ['0', 'X']) :=
        ⟨long, either.imp (fun same => by rw [same]; rfl) (fun same => by rw [same]; rfl)⟩
      rw [parse_plain literal contextualWidth unquoted, ← text, if_neg (by simp), if_pos hex]
      exact parseUnsignedDigits_outcome 16 literal digits (by decide) (by decide)
  | based size sign radix digits =>
      obtain ⟨noQuote, isSign, notSign, notFill⟩ := formed
      have free : sign = [] → (radix :: digits).head? ≠ some 's' ∧ (radix :: digits).head? ≠ some 'S' := by
        intro none
        simpa using notSign none
      have read := parse_quoted literal contextualWidth size sign (radix :: digits) noQuote isSign free text.symm _
        (fun width => cut width (numberOf ((radixOf radix).getD 0) digits))
        (fun width => parseQuoted_based literal width contextualWidth radix digits notFill)
      have same : cut (if size = [] then none else some (numberOf 10 size)) (numberOf ((radixOf radix).getD 0) digits) =
          (Literal.based size sign radix digits).value contextualWidth := by
        by_cases empty : size = []
        · simp [cut, Literal.value, empty]
        · simp [cut, Literal.value, empty]
      rw [← same]
      exact read
  | fill size sign bit =>
      obtain ⟨noQuote, isSign, isFill⟩ := formed
      have free : sign = [] → [bit].head? ≠ some 's' ∧ [bit].head? ≠ some 'S' := by
        intro _
        constructor
        · rintro same
          cases same
          exact absurd isFill (by decide)
        · rintro same
          cases same
          exact absurd isFill (by decide)
      exact parse_quoted literal contextualWidth size sign [bit] noQuote isSign free text.symm _ (fun _ => _)
        (fun width => parseQuoted_fill literal width contextualWidth small bit isFill)
  | bare size sign =>
      obtain ⟨noQuote, isSign⟩ := formed
      have read := parse_quoted literal contextualWidth size sign [] noQuote isSign (fun _ => ⟨nofun, nofun⟩)
        (by rw [List.append_nil]; exact text.symm) True (fun _ => 0) (fun width => ⟨fun fine => absurd trivial fine, fun _ => ⟨_, rfl⟩⟩)
      exact ⟨fun fine => absurd trivial fine, fun _ => read.rejected (Or.inr trivial)⟩

theorem value_lt (shape : Literal) (width : Nat) (small : width ≤ 64) (fine : ¬ shape.Refused) : shape.value width < 2 ^ 64 := by
  have good (base : Nat) (digits : List Char) (digitsFine : ¬ BadDigits base digits) : numberOf base digits < 2 ^ 64 := by
    by_contra large
    exact digitsFine (Or.inr (Or.inr (Nat.not_lt.mp large)))
  cases shape with
  | decimal digits => exact good 10 digits fine
  | hexadecimal x digits => exact good 16 digits fine
  | based size sign radix digits =>
      obtain ⟨-, known⟩ := not_or.mp fine
      cases found : radixOf radix with
      | none => exact absurd (Or.inl found) known
      | some base =>
          have below := good base digits fun bad => known (Or.inr ⟨base, found, bad⟩)
          simp only [Literal.value, found, Option.getD_some]
          split
          · exact lt_of_le_of_lt (Nat.mod_le _ _) below
          · exact below
  | fill size sign bit =>
      have power : 2 ^ width ≤ 2 ^ 64 := Nat.pow_le_pow_right (by decide) small
      simp only [Literal.value]
      split <;> omega
  | bare size sign => exact absurd trivial fine

theorem bits_eq (shape : Literal) (offset inputCount : Nat) :
    shape.bits offset inputCount = shape.value (offset + 2 ^ inputCount) / 2 ^ offset % 2 ^ 2 ^ inputCount := by
  cases shape with
  | decimal _ | hexadecimal _ _ | based _ _ _ _ | bare _ _ => rfl
  | fill size sign bit =>
      simp only [Literal.bits, Literal.value]
      split
      · have factored : 2 ^ (offset + 2 ^ inputCount) - 1 = 2 ^ offset - 1 + 2 ^ offset * (2 ^ 2 ^ inputCount - 1) := by
          rw [Nat.pow_add, Nat.mul_sub_one]
          have low : 1 ≤ 2 ^ offset := Nat.one_le_two_pow
          have more : 2 ^ offset ≤ 2 ^ offset * 2 ^ 2 ^ inputCount := Nat.le_mul_of_pos_right _ (Nat.two_pow_pos _)
          omega
        have rest : (2 ^ offset - 1) / 2 ^ offset = 0 := Nat.div_eq_of_lt (Nat.sub_one_lt (Nat.two_pow_pos _).ne')
        have small : 2 ^ 2 ^ inputCount - 1 < 2 ^ 2 ^ inputCount := Nat.sub_one_lt (Nat.two_pow_pos _).ne'
        rw [factored, Nat.add_mul_div_left _ _ (Nat.two_pow_pos offset), rest, Nat.zero_add, Nat.mod_eq_of_lt small]
      · simp

theorem refuseIf_false (p : Prop) [Decidable p] (reason : String) (fine : ¬ p) : refuseIf (decide p) reason = .ok () := by
  simp [refuseIf, fine]

/-- The bits at `offset` of the number that a literal stands for, whatever its shape; a literal is
refused for its digits, its size or its radix only, and no accumulation of digits wraps. -/
theorem parameter_bits_exact (value : String) (inputCount parameterBitOffset : Nat) (few : inputCount ≤ 6)
    (inside : parameterBitOffset + 2 ^ inputCount ≤ 64) :
    (∃ shape : Literal, shape.Formed ∧ shape.text = stripped value) ∧
      (∀ shape : Literal, shape.Formed → shape.text = stripped value →
        Outcome (getParameterTruthTableBits value inputCount parameterBitOffset) shape.Refused
          (shape.bits parameterBitOffset inputCount)) ∧
      ∀ base digits, base ≤ 16 → parseDigits64 base value 0 digits = parseDigits base value 0 digits := by
  refine ⟨exists_shape _, fun shape formed text => ?_, fun base digits small => parseDigits64_eq base value 0 digits small⟩
  have read := parse_shape value (parameterBitOffset + 2 ^ inputCount) inside shape formed text
  have fewInputs : ¬ 6 < inputCount := by omega
  have fits : ¬ 64 - 2 ^ inputCount < parameterBitOffset := by omega
  have sliced : getParameterTruthTableBits value inputCount parameterBitOffset =
      parseTruthTableParameterValue value (parameterBitOffset + 2 ^ inputCount) >>= fun parameterValue =>
        if 2 ^ inputCount = 64 then pure parameterValue
        else pure (parameterValue / 2 ^ parameterBitOffset % 2 ^ 2 ^ inputCount) := by
    unfold getParameterTruthTableBits
    rw [refuseIf_false _ _ fewInputs]
    simp only
    rw [refuseIf_false _ _ fits]
    rfl
  rw [sliced]
  constructor
  · intro fine
    have below := value_lt shape _ inside fine
    rw [read.accepted fine, bits_eq]
    by_cases whole : 2 ^ inputCount = 64
    · have start : parameterBitOffset = 0 := by omega
      have unsliced : shape.value (parameterBitOffset + 2 ^ inputCount) / 2 ^ parameterBitOffset % 2 ^ 2 ^ inputCount =
          shape.value (parameterBitOffset + 2 ^ inputCount) := by
        rw [start, Nat.pow_zero, Nat.div_one]
        apply Nat.mod_eq_of_lt
        rw [whole] at below ⊢
        simpa [start] using below
      rw [unsliced]
      change (if 2 ^ inputCount = 64 then _ else _) = _
      rw [if_pos whole]
      rfl
    · change (if 2 ^ inputCount = 64 then _ else _) = _
      rw [if_neg whole]
      rfl
  · intro bad
    obtain ⟨message, same⟩ := read.rejected bad
    exact ⟨message, by rw [same]; rfl⟩

/-- A sized hexadecimal digit with a space and an underscore. -/
def sizedHex : String := String.ofList ['4', quote, ' ', 'h', '_', 'A']

theorem sizedHex_bits :
    Outcome (getParameterTruthTableBits sizedHex 2 0) (Literal.based ['4'] [] 'h' ['A']).Refused
      ((Literal.based ['4'] [] 'h' ['A']).bits 0 2) :=
  (parameter_bits_exact sizedHex 2 0 (by decide) (by decide)).2.1 (.based ['4'] [] 'h' ['A'])
    ⟨by decide, by decide, by decide, by decide⟩ (by decide)

/-- A size in front of the fill: the `1` is no radix, and the size does not cut the ones. -/
theorem sizedFill_accepted :
    getParameterTruthTableBits (String.ofList ['4', quote, '1']) 3 0 = .ok 255 ∧ radixOf '1' = none := by
  constructor
  · rfl
  · decide

end Naja.Modeling
