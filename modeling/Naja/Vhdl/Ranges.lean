import Naja.Vhdl.Syntax
import Mathlib.Algebra.Ring.Int.Defs
import Mathlib.Algebra.Ring.Nat
import Mathlib.Data.List.TakeWhile
import Mathlib.Data.UInt

/-! Static integer expressions and discrete ranges. The analyzer evaluates bounds
in 64-bit integers and gives up where a step would overflow; `integerValue` is the
value of the same expression in unbounded integers. -/

namespace Naja.Vhdl

structure DiscreteRange where
  left : Int64
  right : Int64
  ascending : Bool
  span : SourceSpan
  leftExpression : Option Expression
  rightExpression : Option Expression
  rangeAttribute : Option Expression
  subtype : Option Name

structure TypeMark where
  name : Name
  constraint : Option DiscreteRange

/-- The values of generics by name; the first entry of a name counts. -/
abbrev GenericValues := List (String × Int64)

/-! ### Literals -/

def digit (base : Nat) (c : Char) : Option Nat :=
  let value :=
    if c.isDigit then c.toNat - 48
    else if 'a' ≤ c ∧ c ≤ 'f' then c.toNat - 87
    else if 'A' ≤ c ∧ c ≤ 'F' then c.toNat - 55
    else base
  if value < base then some value else none

def numeral (base : Nat) (digits : List Char) : Option Nat :=
  if digits.isEmpty then none
  else digits.foldlM (fun n c => (digit base c).map (fun d => n * base + d)) 0

/-- `std::from_chars` for a 64-bit integer that has to take the whole text. -/
def fromChars (digits : List Char) : Option Int64 :=
  let value : Option Int := match digits with
    | '-' :: rest => (numeral 10 rest).map (fun (n : Nat) => -(n : Int))
    | _ => (numeral 10 digits).map (fun (n : Nat) => (n : Int))
  (value.filter (fun v => decide (-2 ^ 63 ≤ v) && decide (v < 2 ^ 63))).map Int64.ofInt

/-- The letter of an exponent and its digits. -/
def exponent : List Char → Option Nat
  | [] => some 0
  | _ :: '+' :: digits => numeral 10 digits
  | _ :: digits => numeral 10 digits

/-- A decimal or a based literal without its underlines. -/
def abstractLiteral (digits : List Char) : Option Nat :=
  if '#' ∈ digits then do
    let afterBase := (digits.dropWhile (fun c => c != '#')).tail
    let base ← numeral 10 (digits.takeWhile (fun c => c != '#'))
    let n ← numeral base (afterBase.takeWhile (fun c => c != '#'))
    let k ← exponent (afterBase.dropWhile (fun c => c != '#')).tail
    return n * base ^ k
  else do
    let n ← numeral 10 (digits.takeWhile (fun c => c != 'e' && c != 'E'))
    let k ← exponent (digits.dropWhile (fun c => c != 'e' && c != 'E'))
    return n * 10 ^ k

def lessUnderlines (text : String) : List Char := text.toList.filter (fun c => c != '_')

/-- The value of an integer literal; the sign that `from_chars` takes is taken too. -/
def literalValue (text : String) : Option Int :=
  match lessUnderlines text with
  | '-' :: rest => (abstractLiteral rest).map (fun (n : Nat) => -(n : Int))
  | digits => (abstractLiteral digits).map (fun (n : Nat) => (n : Int))

/-! ### Expressions -/

def negate (operand : Int64) : Option Int64 :=
  if operand = Int64.minValue then none else some (-operand)

def addChecked (left right : Int64) : Option Int64 :=
  if (right > 0 ∧ left > Int64.maxValue - right) ∨ (right < 0 ∧ left < Int64.minValue - right) then none
  else some (left + right)

def subChecked (left right : Int64) : Option Int64 :=
  if (right > 0 ∧ left < Int64.minValue + right) ∨ (right < 0 ∧ left > Int64.maxValue + right) then none
  else some (left - right)

def mulChecked (left right : Int64) : Option Int64 :=
  if left > 0 ∧ ((right > 0 ∧ left > Int64.maxValue / right) ∨ (right < 0 ∧ right < Int64.minValue / left)) then none
  else if left < 0 ∧ ((right > 0 ∧ left < Int64.minValue / right) ∨ (right < 0 ∧ left < Int64.maxValue / right)) then
    none
  else some (left * right)

def divChecked (left right : Int64) : Option Int64 :=
  if right = 0 then none else if left = Int64.minValue ∧ right = -1 then none else some (left / right)

def remChecked (left right : Int64) : Option Int64 :=
  if right = 0 then none else if left = Int64.minValue ∧ right = -1 then some 0 else some (left % right)

/-- The remainder is moved to the sign of the divisor. -/
def modChecked (left right : Int64) : Option Int64 :=
  if right = 0 then none
  else if left = Int64.minValue ∧ right = -1 then some 0
  else
    let remainder := left % right
    if remainder ≠ 0 ∧ (decide (remainder < 0) ≠ decide (right < 0)) then some (remainder + right)
    else some remainder

def evaluateUnary (text : String) (operand : Int64) : Option Int64 :=
  if text = "+" then some operand else if text = "-" then negate operand else none

def evaluateBinary (text : String) (left right : Int64) : Option Int64 :=
  if text = "+" then addChecked left right
  else if text = "-" then subChecked left right
  else if text = "*" then mulChecked left right
  else if text = "/" then divChecked left right
  else if text = "rem" then remChecked left right
  else if text = "mod" then modChecked left right
  else none

def evaluateInteger (values : GenericValues) : Expression → Option Int64
  | .mk .Name text canonical _ _ _ _ _ => values.lookup (if canonical.isEmpty then text else canonical)
  | .mk .IntegerLiteral text _ _ _ _ _ _ =>
      if '#' ∈ text.toList then none else fromChars (lessUnderlines text)
  | .mk .Unary text _ _ (some left) _ _ _ => do
      let operand ← evaluateInteger values left
      evaluateUnary text operand
  | .mk .Binary text _ _ (some left) (some right) _ _ => do
      let left ← evaluateInteger values left
      let right ← evaluateInteger values right
      evaluateBinary text left right
  | _ => none

def unaryValue (text : String) (operand : Int) : Option Int :=
  if text = "+" then some operand
  else if text = "-" then some (-operand)
  else if text = "abs" then some (Int.natAbs operand)
  else none

/-- Division truncates, `rem` has the sign of the dividend and `mod` that of the divisor. -/
def binaryValue (text : String) (left right : Int) : Option Int :=
  if text = "+" then some (left + right)
  else if text = "-" then some (left - right)
  else if text = "*" then some (left * right)
  else if text = "/" then if right = 0 then none else some (left.tdiv right)
  else if text = "rem" then if right = 0 then none else some (left.tmod right)
  else if text = "mod" then if right = 0 then none else some (left.fmod right)
  else if text = "**" then if right < 0 then none else some (left ^ right.toNat)
  else none

/-- The value of an integer expression in unbounded integers. -/
def integerValue (values : String → Option Int) : Expression → Option Int
  | .mk .Name text canonical _ _ _ _ _ => values (if canonical.isEmpty then text else canonical)
  | .mk .IntegerLiteral text _ _ _ _ _ _ => literalValue text
  | .mk .Unary text _ _ (some left) _ _ _ => do
      let operand ← integerValue values left
      unaryValue text operand
  | .mk .Binary text _ _ (some left) (some right) _ _ => do
      let left ← integerValue values left
      let right ← integerValue values right
      binaryValue text left right
  | _ => none

theorem bmod_eq (v : Int) (low : -2 ^ 63 ≤ v) (high : v < 2 ^ 63) : v.bmod (2 ^ 64) = v :=
  Int.bmod_eq_of_le (by omega) (by omega)

section arithmetic
variable (left right value : Int64)

theorem negate_exact (given : negate left = some value) : value.toInt = -left.toInt := by
  unfold negate at given
  split at given
  · nomatch given
  · next other =>
      obtain rfl := Option.some.inj given
      have low := left.le_toInt
      have high := left.toInt_lt
      have inside : left.toInt ≠ -2 ^ 63 := by
        intro least
        exact other (Int64.toInt_inj.mp (least.trans Int64.toInt_minValue.symm))
      rw [Int64.toInt_neg, bmod_eq _ (by omega) (by omega)]

theorem addChecked_exact (given : addChecked left right = some value) :
    value.toInt = left.toInt + right.toInt := by
  have lowL := left.le_toInt
  have highL := left.toInt_lt
  have lowR := right.le_toInt
  have highR := right.toInt_lt
  unfold addChecked at given
  split at given
  · nomatch given
  · next fits =>
      obtain rfl := Option.some.inj given
      simp only [gt_iff_lt, Int64.lt_iff_toInt_lt, Int64.toInt_sub, Int64.toInt_maxValue, Int64.toInt_minValue,
        Int64.toInt_zero] at fits
      have upper : 0 < right.toInt → (2 ^ 63 - 1 - right.toInt).bmod (2 ^ 64) = 2 ^ 63 - 1 - right.toInt :=
        fun positive => bmod_eq _ (by omega) (by omega)
      have lower : right.toInt < 0 → (-2 ^ 63 - right.toInt).bmod (2 ^ 64) = -2 ^ 63 - right.toInt :=
        fun negative => bmod_eq _ (by omega) (by omega)
      rw [Int64.toInt_add, bmod_eq _ (by omega) (by omega)]

theorem subChecked_exact (given : subChecked left right = some value) :
    value.toInt = left.toInt - right.toInt := by
  have lowL := left.le_toInt
  have highL := left.toInt_lt
  have lowR := right.le_toInt
  have highR := right.toInt_lt
  unfold subChecked at given
  split at given
  · nomatch given
  · next fits =>
      obtain rfl := Option.some.inj given
      simp only [gt_iff_lt, Int64.lt_iff_toInt_lt, Int64.toInt_add, Int64.toInt_maxValue, Int64.toInt_minValue,
        Int64.toInt_zero] at fits
      have upper : right.toInt < 0 → (2 ^ 63 - 1 + right.toInt).bmod (2 ^ 64) = 2 ^ 63 - 1 + right.toInt :=
        fun negative => bmod_eq _ (by omega) (by omega)
      have lower : 0 < right.toInt → (-2 ^ 63 + right.toInt).bmod (2 ^ 64) = -2 ^ 63 + right.toInt :=
        fun positive => bmod_eq _ (by omega) (by omega)
      rw [Int64.toInt_sub, bmod_eq _ (by omega) (by omega)]

omit left right value in
theorem mul_le_of_le_tdiv (a b n : Int) (positive : 0 < b) (whole : 0 ≤ n) (below : a ≤ n.tdiv b) : a * b ≤ n := by
  rw [Int.tdiv_eq_ediv_of_nonneg whole] at below
  exact (Int.le_ediv_iff_mul_le positive).mp below

omit left right value in
theorem neg_le_mul_of_tdiv_le (a b n : Int) (positive : 0 < b) (whole : 0 ≤ n) (above : (-n).tdiv b ≤ a) :
    -n ≤ a * b := by
  rw [Int.neg_tdiv] at above
  have bound := mul_le_of_le_tdiv (-a) b n positive whole (by omega)
  rw [Int.neg_mul] at bound
  omega

/-- The four cases of the overflow test. -/
theorem mul_bounds (l r : Int)
    (one : 0 < l → 0 < r → l ≤ (2 ^ 63 - 1 : Int).tdiv r) (two : 0 < l → r < 0 → (-2 ^ 63 : Int).tdiv l ≤ r)
    (three : l < 0 → 0 < r → (-2 ^ 63 : Int).tdiv r ≤ l) (four : l < 0 → r < 0 → (2 ^ 63 - 1 : Int).tdiv r ≤ l) :
    -2 ^ 63 ≤ l * r ∧ l * r < 2 ^ 63 := by
  rcases Int.lt_trichotomy l 0 with negative | rfl | positive
  · rcases Int.lt_trichotomy r 0 with negative' | rfl | positive'
    · have bound := four negative negative'
      have flipped : (2 ^ 63 - 1 : Int).tdiv (-r) = -(2 ^ 63 - 1 : Int).tdiv r := Int.tdiv_neg _ _
      have upper := mul_le_of_le_tdiv (-l) (-r) (2 ^ 63 - 1) (by omega) (by decide) (by omega)
      have lower : 0 < l * r := Int.mul_pos_of_neg_of_neg negative negative'
      rw [Int.neg_mul_neg] at upper
      omega
    · simp
    · have lower := neg_le_mul_of_tdiv_le l r (2 ^ 63) positive' (by decide) (three negative positive')
      have upper : l * r < 0 := Int.mul_neg_of_neg_of_pos negative positive'
      omega
  · simp
  · rcases Int.lt_trichotomy r 0 with negative' | rfl | positive'
    · have lower := neg_le_mul_of_tdiv_le r l (2 ^ 63) positive (by decide) (two positive negative')
      have upper : l * r < 0 := Int.mul_neg_of_pos_of_neg positive negative'
      rw [Int.mul_comm] at lower
      omega
    · simp
    · have upper := mul_le_of_le_tdiv l r (2 ^ 63 - 1) positive' (by decide) (one positive positive')
      have lower : 0 < l * r := Int.mul_pos positive positive'
      omega

theorem mulChecked_exact (given : mulChecked left right = some value) :
    value.toInt = left.toInt * right.toInt := by
  have max_div (d : Int64) : (Int64.maxValue / d).toInt = (2 ^ 63 - 1 : Int).tdiv d.toInt :=
    Int64.toInt_div_of_ne_left _ _ (by decide)
  have min_div (d : Int64) (positive : 0 < d.toInt) : (Int64.minValue / d).toInt = (-2 ^ 63 : Int).tdiv d.toInt := by
    refine Int64.toInt_div_of_ne_right _ _ ?_
    rintro rfl
    exact absurd positive (by decide)
  unfold mulChecked at given
  split at given
  · nomatch given
  · next first =>
      split at given
      · nomatch given
      · next second =>
          obtain rfl := Option.some.inj given
          simp only [gt_iff_lt, Int64.lt_iff_toInt_lt, Int64.toInt_zero, max_div] at first second
          have bounds := mul_bounds left.toInt right.toInt
            (by intro p q; by_contra high; exact first ⟨p, Or.inl ⟨q, by omega⟩⟩)
            (by intro p q; by_contra high; exact first ⟨p, Or.inr ⟨q, by rw [min_div left p]; omega⟩⟩)
            (by intro p q; by_contra high; exact second ⟨p, Or.inl ⟨q, by rw [min_div right q]; omega⟩⟩)
            (by intro p q; by_contra high; exact second ⟨p, Or.inr ⟨q, by omega⟩⟩)
          rw [Int64.toInt_mul, bmod_eq _ bounds.1 bounds.2]

theorem divChecked_exact (given : divChecked left right = some value) :
    right.toInt ≠ 0 ∧ value.toInt = left.toInt.tdiv right.toInt := by
  unfold divChecked at given
  split at given
  · nomatch given
  · next divisor =>
      split at given
      · nomatch given
      · next fits =>
          obtain rfl := Option.some.inj given
          refine ⟨fun zero => divisor (Int64.toInt_inj.mp (zero.trans Int64.toInt_zero.symm)), ?_⟩
          by_cases least : left = Int64.minValue
          · exact Int64.toInt_div_of_ne_right _ _ (fun one => fits ⟨least, one⟩)
          · exact Int64.toInt_div_of_ne_left _ _ least

theorem remChecked_exact (given : remChecked left right = some value) :
    right.toInt ≠ 0 ∧ value.toInt = left.toInt.tmod right.toInt := by
  unfold remChecked at given
  split at given
  · nomatch given
  · next divisor =>
      refine ⟨fun zero => divisor (Int64.toInt_inj.mp (zero.trans Int64.toInt_zero.symm)), ?_⟩
      split at given
      · next least =>
          obtain rfl := Option.some.inj given
          obtain ⟨rfl, rfl⟩ := least
          decide
      · obtain rfl := Option.some.inj given
        exact Int64.toInt_mod left right

omit left right value in
/-- `mod` in terms of the truncated remainder. -/
theorem fmod_eq (a b : Int) (divisor : b ≠ 0) :
    a.fmod b = if a.tmod b ≠ 0 ∧ (decide (a.tmod b < 0) ≠ decide (b < 0)) then a.tmod b + b else a.tmod b := by
  have sign : 0 ≤ a → 0 ≤ a.tmod b := Int.tmod_nonneg b
  have sign' : a < 0 → a.tmod b ≤ 0 := by
    intro negative
    have flipped := Int.tmod_nonneg b (a := -a) (by omega)
    rw [Int.neg_tmod] at flipped
    omega
  rw [Int.fmod_eq_tmod]
  by_cases exact : b ∣ a
  · rw [if_pos exact, Int.tmod_eq_zero_of_dvd exact]
    simp
  · have rest : a.tmod b ≠ 0 := fun zero => exact (Int.dvd_of_tmod_eq_zero zero)
    rw [if_neg exact]
    by_cases whole : 0 ≤ a
    · have positive : ¬ a.tmod b < 0 := by have := sign whole; omega
      by_cases up : b < 0
      · have down : ¬ 0 ≤ b := by omega
        simp [whole, rest, positive, up, down]
      · have down : 0 ≤ b := by omega
        simp [whole, positive, up, down]
    · have negative : a.tmod b < 0 := by have := sign' (by omega); omega
      by_cases up : b < 0
      · have down : ¬ 0 ≤ b := by omega
        rw [if_neg whole, if_neg down, if_neg (by simp [negative, up])]
        omega
      · have down : 0 ≤ b := by omega
        rw [if_neg whole, if_pos down, if_pos ⟨rest, by simp [negative, up]⟩]
        omega

theorem modChecked_exact (given : modChecked left right = some value) :
    right.toInt ≠ 0 ∧ value.toInt = left.toInt.fmod right.toInt := by
  unfold modChecked at given
  split at given
  · nomatch given
  · next divisor =>
      have nonzero : right.toInt ≠ 0 := fun zero => divisor (Int64.toInt_inj.mp (zero.trans Int64.toInt_zero.symm))
      refine ⟨nonzero, ?_⟩
      split at given
      · next least =>
          obtain rfl := Option.some.inj given
          obtain ⟨rfl, rfl⟩ := least
          decide
      · rw [fmod_eq _ _ nonzero]
        simp only [ne_eq, ← Int64.toInt_inj, Int64.lt_iff_toInt_lt, Int64.toInt_mod, Int64.toInt_zero] at given
        have low := (left % right).le_toInt
        have high := (left % right).toInt_lt
        have lowR := right.le_toInt
        have highR := right.toInt_lt
        rw [Int64.toInt_mod] at low high
        split at given
        · next moved =>
            obtain rfl := Option.some.inj given
            have opposite : ¬ (left.toInt.tmod right.toInt < 0 ↔ right.toInt < 0) := by
              simpa [decide_eq_decide] using moved.2
            rw [if_pos moved, Int64.toInt_add, Int64.toInt_mod, bmod_eq _ (by omega) (by omega)]
        · next kept =>
            obtain rfl := Option.some.inj given
            rw [if_neg kept, Int64.toInt_mod]

end arithmetic

theorem evaluateUnary_exact (text : String) (operand value : Int64) (given : evaluateUnary text operand = some value) :
    unaryValue text operand.toInt = some value.toInt := by
  unfold evaluateUnary at given
  unfold unaryValue
  split at given
  · next plus =>
      rw [if_pos plus, Option.some.inj given]
  · next other =>
      split at given
      · next minus =>
          rw [if_neg other, if_pos minus, negate_exact operand value given]
      · nomatch given

theorem evaluateBinary_exact (text : String) (left right value : Int64)
    (given : evaluateBinary text left right = some value) :
    binaryValue text left.toInt right.toInt = some value.toInt := by
  unfold evaluateBinary at given
  unfold binaryValue
  by_cases add : text = "+"
  · rw [if_pos add] at given ⊢
    rw [addChecked_exact left right value given]
  rw [if_neg add] at given ⊢
  by_cases sub : text = "-"
  · rw [if_pos sub] at given ⊢
    rw [subChecked_exact left right value given]
  rw [if_neg sub] at given ⊢
  by_cases mul : text = "*"
  · rw [if_pos mul] at given ⊢
    rw [mulChecked_exact left right value given]
  rw [if_neg mul] at given ⊢
  by_cases div : text = "/"
  · rw [if_pos div] at given ⊢
    obtain ⟨nonzero, same⟩ := divChecked_exact left right value given
    rw [if_neg nonzero, same]
  rw [if_neg div] at given ⊢
  by_cases rem : text = "rem"
  · rw [if_pos rem] at given ⊢
    obtain ⟨nonzero, same⟩ := remChecked_exact left right value given
    rw [if_neg nonzero, same]
  rw [if_neg rem] at given ⊢
  by_cases mod : text = "mod"
  · rw [if_pos mod] at given ⊢
    obtain ⟨nonzero, same⟩ := modChecked_exact left right value given
    rw [if_neg nonzero, same]
  rw [if_neg mod] at given
  nomatch given

theorem digit_ten (c : Char) (d : Nat) (given : digit 10 c = some d) : c.isDigit := by
  unfold digit at given
  by_contra other
  rw [if_neg other] at given
  by_cases lower : 'a' ≤ c ∧ c ≤ 'f'
  · have code : ('a' : Char).toNat ≤ c.toNat := lower.1
    have value : ('a' : Char).toNat = 97 := rfl
    rw [if_pos lower, if_neg (by omega)] at given
    nomatch given
  · rw [if_neg lower] at given
    by_cases upper : 'A' ≤ c ∧ c ≤ 'F'
    · have code : ('A' : Char).toNat ≤ c.toNat := upper.1
      have value : ('A' : Char).toNat = 65 := rfl
      rw [if_pos upper, if_neg (by omega)] at given
      nomatch given
    · rw [if_neg upper, if_neg (by omega)] at given
      nomatch given

theorem numeral_digits (digits : List Char) (n : Nat) (given : numeral 10 digits = some n) :
    ∀ c ∈ digits, c.isDigit := by
  unfold numeral at given
  split at given
  · nomatch given
  · have general (start result : Nat)
        (folded : digits.foldlM (fun n c => (digit 10 c).map (fun d => n * 10 + d)) start = some result) :
        ∀ c ∈ digits, c.isDigit := by
      clear given
      induction digits generalizing start with
      | nil => exact fun c member => nomatch member
      | cons c rest ih =>
          rw [List.foldlM_cons] at folded
          obtain ⟨next, first, further⟩ := Option.bind_eq_some_iff.mp folded
          obtain ⟨d, found, -⟩ := Option.map_eq_some_iff.mp first
          intro c' member
          rcases List.mem_cons.mp member with rfl | member
          · exact digit_ten c' d found
          · refine ih ?_ next further c' member
            rintro empty
            simp_all
    exact general 0 n given

/-- A numeral is a literal without base and exponent. -/
theorem abstractLiteral_numeral (digits : List Char) (n : Nat) (given : numeral 10 digits = some n) :
    abstractLiteral digits = some n := by
  have all := numeral_digits digits n given
  have base : '#' ∉ digits := fun member => absurd (all '#' member) (by decide)
  have letters : ∀ c ∈ digits, (c != 'e' && c != 'E') = true := by
    intro c member
    have isDigit := all c member
    rw [Bool.and_eq_true, bne_iff_ne, bne_iff_ne]
    constructor
    · rintro rfl
      exact absurd isDigit (by decide)
    · rintro rfl
      exact absurd isDigit (by decide)
  unfold abstractLiteral
  rw [if_neg base, List.takeWhile_eq_self_iff.mpr letters, List.dropWhile_eq_nil_iff.mpr letters, given]
  simp [exponent]

theorem fromChars_exact (text : String) (value : Int64) (given : fromChars (lessUnderlines text) = some value) :
    literalValue text = some value.toInt := by
  unfold fromChars at given
  unfold literalValue
  generalize lessUnderlines text = digits at given
  obtain ⟨v, kept, rfl⟩ := Option.map_eq_some_iff.mp given
  obtain ⟨found, inside⟩ := Option.filter_eq_some_iff.mp kept
  rw [Bool.and_eq_true, decide_eq_true_iff, decide_eq_true_iff] at inside
  rw [Int64.toInt_ofInt_of_le inside.1 inside.2]
  split at found
  · next rest =>
      obtain ⟨n, read, rfl⟩ := Option.map_eq_some_iff.mp found
      rw [abstractLiteral_numeral rest n read]
      rfl
  · next plain =>
      obtain ⟨n, read, rfl⟩ := Option.map_eq_some_iff.mp found
      rw [abstractLiteral_numeral digits n read]
      rfl

/-- What the analyzer evaluates is the value in unbounded integers. -/
theorem evaluateInteger_exact (values : GenericValues) (env : String → Option Int)
    (known : ∀ name value, values.lookup name = some value → env name = some value.toInt) (e : Expression)
    (value : Int64) (given : evaluateInteger values e = some value) : integerValue env e = some value.toInt := by
  fun_induction evaluateInteger values e generalizing value with
  | case1 text canonical => exact known _ value given
  | case2 => nomatch given
  | case3 text =>
      unfold integerValue
      exact fromChars_exact text value given
  | case4 text canonical span left right condition elements ih =>
      obtain ⟨operand, first, result⟩ := Option.bind_eq_some_iff.mp given
      unfold integerValue
      rw [ih operand first]
      exact evaluateUnary_exact text operand value result
  | case5 text canonical span left right condition elements ihLeft ihRight =>
      obtain ⟨l, first, further⟩ := Option.bind_eq_some_iff.mp given
      obtain ⟨r, second, result⟩ := Option.bind_eq_some_iff.mp further
      unfold integerValue
      rw [ihLeft l first, ihRight r second]
      exact evaluateBinary_exact text l r value result
  | case6 => nomatch given

/-! ### Ranges -/

/-- A range with its bounds evaluated; a range without bound expressions has its values already. -/
def resolveRange (range : DiscreteRange) (values : GenericValues) : Option DiscreteRange :=
  if range.rangeAttribute.isSome then none
  else
    match range.leftExpression, range.rightExpression with
    | some left, some right => do
        let left ← evaluateInteger values left
        let right ← evaluateInteger values right
        return { range with left := left, right := right }
    | _, _ => some range

/-- The number of elements modulo `2 ^ 64`. -/
def rangeWidth (range : DiscreteRange) : UInt64 :=
  if (range.ascending ∧ range.left > range.right) ∨ (¬ range.ascending ∧ range.left < range.right) then 0
  else
    let left := range.left.toUInt64
    let right := range.right.toUInt64
    (if range.left > range.right then left - right else right - left) + 1

def canonicalRange (width : UInt64) (span : SourceSpan) : Option DiscreteRange :=
  if width = 0 ∨ width > 2 ^ 63 then none
  else some ⟨(width - 1).toInt64, 0, false, span, none, none, none, none⟩

/-- The number of elements between two bounds. -/
def elementsBetween (ascending : Bool) (left right : Int) : Nat :=
  if ascending then (right - left + 1).toNat else (left - right + 1).toNat

def DiscreteRange.elements (range : DiscreteRange) : Nat :=
  elementsBetween range.ascending range.left.toInt range.right.toInt

/-- The number of elements of a declared range, with its bounds in unbounded integers. -/
def DiscreteRange.declaredElements (range : DiscreteRange) (env : String → Option Int) : Option Nat :=
  if range.rangeAttribute.isSome then none
  else
    match range.leftExpression, range.rightExpression with
    | some left, some right => do
        let left ← integerValue env left
        let right ← integerValue env right
        return elementsBetween range.ascending left right
    | _, _ => some range.elements

theorem toNat_toUInt64 (x : Int64) : x.toUInt64.toNat = (x.toInt % 2 ^ 64).toNat := by
  have low := x.le_toInt
  have high := x.toInt_lt
  have bits : x.toInt = if 2 * x.toUInt64.toNat < 2 ^ 64 then (x.toUInt64.toNat : Int)
      else (x.toUInt64.toNat : Int) - 2 ^ 64 := BitVec.toInt_eq_toNat_cond x.toBitVec
  have bound := x.toUInt64.toNat_lt
  split at bits
  · omega
  · omega

theorem toNat_rangeWidth (range : DiscreteRange) : (rangeWidth range).toNat = range.elements % 2 ^ 64 := by
  have lowL := range.left.le_toInt
  have highL := range.left.toInt_lt
  have lowR := range.right.le_toInt
  have highR := range.right.toInt_lt
  have difference (a b : Int64) (order : b.toInt ≤ a.toInt) :
      (a.toUInt64 - b.toUInt64 + 1).toNat = (a.toInt - b.toInt + 1).toNat % 2 ^ 64 := by
    have lowA := a.le_toInt
    have highA := a.toInt_lt
    have lowB := b.le_toInt
    have highB := b.toInt_lt
    rw [UInt64.toNat_add, UInt64.toNat_sub, toNat_toUInt64, toNat_toUInt64]
    have one : (1 : UInt64).toNat = 1 := rfl
    rw [one]
    omega
  unfold rangeWidth DiscreteRange.elements elementsBetween
  simp only [gt_iff_lt, Int64.lt_iff_toInt_lt]
  cases range.ascending with
  | true =>
      simp only [true_and, not_true, false_and, or_false, if_true]
      split
      · rw [Int.toNat_of_nonpos (by omega)]
        rfl
      · exact difference _ _ (by omega)
  | false =>
      simp only [Bool.false_eq_true, false_and, not_false_eq_true, true_and, false_or, if_false]
      split
      · rw [Int.toNat_of_nonpos (by omega)]
        rfl
      · split
        · exact difference _ _ (by omega)
        · have same : range.left.toInt = range.right.toInt := by omega
          rw [difference _ _ (by omega), same]

theorem canonicalRange_elements (width : UInt64) (span : SourceSpan) (range : DiscreteRange)
    (given : canonicalRange width span = some range) : range.elements = width.toNat ∧ width.toNat ≤ 2 ^ 63 := by
  unfold canonicalRange at given
  split at given
  · nomatch given
  · next inside =>
      obtain rfl := Option.some.inj given
      rw [not_or] at inside
      have positive : width.toNat ≠ 0 := fun zero => inside.1 (UInt64.toNat_inj.mp zero)
      have small : width.toNat ≤ 2 ^ 63 := by
        have upper := inside.2
        have value : (2 ^ 63 : UInt64).toNat = 2 ^ 63 := by decide +kernel
        rw [gt_iff_lt, UInt64.lt_iff_toNat_lt, Nat.not_lt, value] at upper
        exact upper
      have less : (width - 1).toNat = width.toNat - 1 := by
        have one : (1 : UInt64).toNat = 1 := rfl
        have bound := width.toNat_lt
        rw [UInt64.toNat_sub, one]
        omega
      have bits : ((width - 1).toInt64).toInt = (width.toNat : Int) - 1 := by
        have cond : ((width - 1).toInt64).toInt = if 2 * (width - 1).toNat < 2 ^ 64 then ((width - 1).toNat : Int)
            else ((width - 1).toNat : Int) - 2 ^ 64 := BitVec.toInt_eq_toNat_cond (width - 1).toBitVec
        rw [cond, if_pos (by omega), less]
        omega
      refine ⟨?_, small⟩
      change ((width - 1).toInt64.toInt - (0 : Int64).toInt + 1).toNat = width.toNat
      rw [bits, Int64.toInt_zero]
      omega

/-- A range the analyzer resolves has the declared number of elements. -/
theorem resolveRange_elements (range resolved : DiscreteRange) (values : GenericValues) (env : String → Option Int)
    (known : ∀ name value, values.lookup name = some value → env name = some value.toInt)
    (given : resolveRange range values = some resolved) : range.declaredElements env = some resolved.elements := by
  unfold resolveRange at given
  unfold DiscreteRange.declaredElements
  split at given
  · nomatch given
  · next direct =>
      rw [if_neg direct]
      split at given
      · next left right first second =>
          obtain ⟨l, leftValue, further⟩ := Option.bind_eq_some_iff.mp given
          obtain ⟨r, rightValue, result⟩ := Option.bind_eq_some_iff.mp further
          obtain rfl := Option.some.inj result
          simp only [first, second, evaluateInteger_exact values env known left l leftValue,
            evaluateInteger_exact values env known right r rightValue]
          rfl
      · obtain rfl := Option.some.inj given
        rfl

end Naja.Vhdl
