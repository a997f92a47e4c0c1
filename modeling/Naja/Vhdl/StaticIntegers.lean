import Naja.Vhdl.Ranges

/-! Static integer evaluation, both ways: a value comes out exactly when every part of
the expression has a value that fits, and no operation on the way leaves the 64 bits. -/

namespace Naja.Vhdl

/-! ### The operations of the machine -/

def Fits (v : Int) : Prop := -2 ^ 63 ≤ v ∧ v < 2 ^ 63

instance (v : Int) : Decidable (Fits v) := inferInstanceAs (Decidable (_ ∧ _))

/-- A signed operation, undefined when its exact result does not fit. -/
def signed (exact_ : Int) (result : Int64) : Option Int64 := if Fits exact_ then some result else none

def signedAdd (left right : Int64) : Option Int64 := signed (left.toInt + right.toInt) (left + right)

def signedSub (left right : Int64) : Option Int64 := signed (left.toInt - right.toInt) (left - right)

def signedMul (left right : Int64) : Option Int64 := signed (left.toInt * right.toInt) (left * right)

def signedNeg (operand : Int64) : Option Int64 := signed (-operand.toInt) (-operand)

/-- Division and remainder are undefined alike. -/
def signedDiv (left right : Int64) : Option Int64 :=
  if right = 0 then none else signed (left.toInt.tdiv right.toInt) (left / right)

def signedRem (left right : Int64) : Option Int64 :=
  if right = 0 ∨ ¬Fits (left.toInt.tdiv right.toInt) then none else some (left % right)

/-- `&&`, whose right side is only evaluated after a left side that holds. -/
def andThen (first : Prop) [Decidable first] (second : Option Bool) : Option Bool := if first then second else some false

/-- `||`, whose right side is only evaluated after a left side that does not hold. -/
def orElse (first second : Option Bool) : Option Bool := first.bind (fun holds => if holds then some true else second)

/-- A result that is given up if the test holds. -/
def refusedIf (test : Option Bool) (result : Option Int64) : Option (Option Int64) :=
  test.bind (fun holds => if holds then some none else result.map some)

/-! ### The evaluation with its operations -/

def negateSteps (operand : Int64) : Option (Option Int64) :=
  if operand = Int64.minValue then some none else (signedNeg operand).map some

def addSteps (left right : Int64) : Option (Option Int64) :=
  refusedIf (orElse (andThen (right > 0) ((signedSub Int64.maxValue right).map (fun bound => left > bound)))
      (andThen (right < 0) ((signedSub Int64.minValue right).map (fun bound => left < bound))))
    (signedAdd left right)

def subSteps (left right : Int64) : Option (Option Int64) :=
  refusedIf (orElse (andThen (right > 0) ((signedAdd Int64.minValue right).map (fun bound => left < bound)))
      (andThen (right < 0) ((signedAdd Int64.maxValue right).map (fun bound => left > bound))))
    (signedSub left right)

def mulSteps (left right : Int64) : Option (Option Int64) :=
  refusedIf
    (if left > 0 then
      orElse (andThen (right > 0) ((signedDiv Int64.maxValue right).map (fun bound => left > bound)))
        (andThen (right < 0) ((signedDiv Int64.minValue left).map (fun bound => right < bound)))
    else andThen (left < 0)
      (orElse (andThen (right > 0) ((signedDiv Int64.minValue right).map (fun bound => left < bound)))
        (andThen (right < 0) ((signedDiv Int64.maxValue right).map (fun bound => left < bound)))))
    (signedMul left right)

def divSteps (left right : Int64) : Option (Option Int64) :=
  if right = 0 then some none
  else if left = Int64.minValue ∧ right = -1 then some none
  else (signedDiv left right).map some

def remSteps (left right : Int64) : Option (Option Int64) :=
  if right = 0 then some none
  else if left = Int64.minValue ∧ right = -1 then some (some 0)
  else (signedRem left right).map some

def modSteps (left right : Int64) : Option (Option Int64) :=
  if right = 0 then some none
  else if left = Int64.minValue ∧ right = -1 then some (some 0)
  else
    (signedRem left right).bind (fun remainder =>
      if remainder ≠ 0 ∧ (decide (remainder < 0) ≠ decide (right < 0)) then (signedAdd remainder right).map some
      else some (some remainder))

def unarySteps (text : String) (operand : Int64) : Option (Option Int64) :=
  if text = "+" then some (some operand) else if text = "-" then negateSteps operand else some none

def binarySteps (text : String) (left right : Int64) : Option (Option Int64) :=
  if text = "+" then addSteps left right
  else if text = "-" then subSteps left right
  else if text = "*" then mulSteps left right
  else if text = "/" then divSteps left right
  else if text = "rem" then remSteps left right
  else if text = "mod" then modSteps left right
  else some none

/-- `evaluateInteger` operation by operation: nothing at all once an operation is undefined. -/
def evaluateSteps (values : GenericValues) : Expression → Option (Option Int64)
  | .mk .Unary text _ _ (some left) _ _ _ => do
      match ← evaluateSteps values left with
      | none => return none
      | some operand => unarySteps text operand
  | .mk .Binary text _ _ (some left) (some right) _ _ => do
      let left ← evaluateSteps values left
      let right ← evaluateSteps values right
      match left, right with
      | some left, some right => binarySteps text left right
      | _, _ => return none
  | e => some (evaluateInteger values e)

section control
variable (p q : Prop) [Decidable p] [Decidable q]

theorem andThen_eq (second : Option Bool) (evaluated : p → second = some (decide q)) :
    andThen p second = some (decide (p ∧ q)) := by
  unfold andThen
  by_cases holds : p
  · rw [if_pos holds, evaluated holds]
    simp [holds]
  · rw [if_neg holds]
    simp [holds]

theorem orElse_eq : orElse (some (decide p)) (some (decide q)) = some (decide (p ∨ q)) := by
  unfold orElse
  by_cases holds : p
  · simp [holds]
  · simp [holds]

theorem refusedIf_eq (result : Option Int64) (value : Int64) (evaluated : ¬p → result = some value) :
    refusedIf (some (decide p)) result = some (if p then none else some value) := by
  unfold refusedIf
  by_cases holds : p
  · simp [holds]
  · simp [holds, evaluated holds]

end control

section arithmetic
variable (left right value : Int64)

theorem fits_toInt : Fits value.toInt := ⟨value.le_toInt, value.toInt_lt⟩

theorem signed_of_fits (exact_ : Int) (fits : Fits exact_) : signed exact_ value = some value := if_pos fits

theorem negateSteps_eq : negateSteps left = some (negate left) := by
  unfold negateSteps negate
  by_cases least : left = Int64.minValue
  · rw [if_pos least, if_pos least]
  · rw [if_neg least, if_neg least]
    have low := left.le_toInt
    have high := left.toInt_lt
    have inside : left.toInt ≠ -2 ^ 63 := fun same => least (Int64.toInt_inj.mp (same.trans Int64.toInt_minValue.symm))
    rw [signedNeg, signed_of_fits _ _ (by unfold Fits; omega)]
    rfl

theorem addSteps_eq : addSteps left right = some (addChecked left right) := by
  have lowR := right.le_toInt
  have highR := right.toInt_lt
  have above (positive : right > 0) : signedSub Int64.maxValue right = some (Int64.maxValue - right) := by
    rw [gt_iff_lt, Int64.lt_iff_toInt_lt, Int64.toInt_zero] at positive
    refine signed_of_fits _ _ ?_
    rw [Int64.toInt_maxValue]
    unfold Fits
    omega
  have below (negative : right < 0) : signedSub Int64.minValue right = some (Int64.minValue - right) := by
    rw [Int64.lt_iff_toInt_lt, Int64.toInt_zero] at negative
    refine signed_of_fits _ _ ?_
    rw [Int64.toInt_minValue]
    unfold Fits
    omega
  unfold addSteps
  rw [andThen_eq (right > 0) (left > Int64.maxValue - right) _ (fun positive => by rw [above positive]; rfl),
    andThen_eq (right < 0) (left < Int64.minValue - right) _ (fun negative => by rw [below negative]; rfl),
    orElse_eq, refusedIf_eq _ _ (left + right)]
  · rfl
  · intro fits
    have exact_ := addChecked_exact left right (left + right) (if_neg fits)
    exact signed_of_fits _ _ (exact_ ▸ fits_toInt _)

theorem subSteps_eq : subSteps left right = some (subChecked left right) := by
  have lowR := right.le_toInt
  have highR := right.toInt_lt
  have below (positive : right > 0) : signedAdd Int64.minValue right = some (Int64.minValue + right) := by
    rw [gt_iff_lt, Int64.lt_iff_toInt_lt, Int64.toInt_zero] at positive
    refine signed_of_fits _ _ ?_
    rw [Int64.toInt_minValue]
    unfold Fits
    omega
  have above (negative : right < 0) : signedAdd Int64.maxValue right = some (Int64.maxValue + right) := by
    rw [Int64.lt_iff_toInt_lt, Int64.toInt_zero] at negative
    refine signed_of_fits _ _ ?_
    rw [Int64.toInt_maxValue]
    unfold Fits
    omega
  unfold subSteps
  rw [andThen_eq (right > 0) (left < Int64.minValue + right) _ (fun positive => by rw [below positive]; rfl),
    andThen_eq (right < 0) (left > Int64.maxValue + right) _ (fun negative => by rw [above negative]; rfl),
    orElse_eq, refusedIf_eq _ _ (left - right)]
  · rfl
  · intro fits
    have exact_ := subChecked_exact left right (left - right) (if_neg fits)
    exact signed_of_fits _ _ (exact_ ▸ fits_toInt _)

theorem signedDiv_eq (divisor : right ≠ 0) (other : ¬(left = Int64.minValue ∧ right = -1)) :
    signedDiv left right = some (left / right) := by
  have checked : divChecked left right = some (left / right) := by
    rw [divChecked, if_neg divisor, if_neg other]
  rw [signedDiv, if_neg divisor, signed_of_fits]
  rw [← (divChecked_exact left right _ checked).2]
  exact fits_toInt _

theorem mulSteps_eq : mulSteps left right = some (mulChecked left right) := by
  have high (negative : right ≠ 0) : signedDiv Int64.maxValue right = some (Int64.maxValue / right) :=
    signedDiv_eq _ _ negative (fun least => absurd least.1 (by decide))
  have low (divisor : Int64) (positive : divisor > 0) : signedDiv Int64.minValue divisor = some (Int64.minValue / divisor) := by
    refine signedDiv_eq _ _ ?_ ?_
    · rintro rfl
      exact absurd positive (by decide)
    · rintro ⟨-, rfl⟩
      exact absurd positive (by decide)
  have nonzero_of_pos (positive : right > 0) : right ≠ 0 := by
    rintro rfl
    exact absurd positive (by decide)
  have nonzero_of_neg (negative : right < 0) : right ≠ 0 := by
    rintro rfl
    exact absurd negative (by decide)
  have product (given : mulChecked left right = some (left * right)) : signedMul left right = some (left * right) := by
    have exact_ := mulChecked_exact left right _ given
    exact signed_of_fits _ _ (exact_ ▸ fits_toInt _)
  unfold mulSteps
  by_cases positive : left > 0
  · have other : ¬left < 0 := by
      rw [gt_iff_lt, Int64.lt_iff_toInt_lt] at positive
      rw [Int64.lt_iff_toInt_lt]
      omega
    have checked : mulChecked left right =
        if (right > 0 ∧ left > Int64.maxValue / right) ∨ (right < 0 ∧ right < Int64.minValue / left) then none
        else some (left * right) := by
      unfold mulChecked
      simp only [positive, other, true_and, false_and, if_false]
    rw [if_pos positive,
      andThen_eq (right > 0) (left > Int64.maxValue / right) _ (fun p => by rw [high (nonzero_of_pos p)]; rfl),
      andThen_eq (right < 0) (right < Int64.minValue / left) _ (fun _ => by rw [low left positive]; rfl),
      orElse_eq, refusedIf_eq _ _ (left * right), checked]
    intro fits
    exact product (checked.trans (if_neg fits))
  · have checked : mulChecked left right =
        if left < 0 ∧ ((right > 0 ∧ left < Int64.minValue / right) ∨ (right < 0 ∧ left < Int64.maxValue / right)) then none
        else some (left * right) := by
      unfold mulChecked
      simp only [positive, false_and, if_false]
    rw [if_neg positive,
      andThen_eq (right > 0) (left < Int64.minValue / right) _ (fun p => by rw [low right p]; rfl),
      andThen_eq (right < 0) (left < Int64.maxValue / right) _ (fun p => by rw [high (nonzero_of_neg p)]; rfl),
      orElse_eq, andThen_eq (left < 0) _ _ (fun _ => rfl), refusedIf_eq _ _ (left * right), checked]
    intro fits
    exact product (checked.trans (if_neg fits))

theorem divSteps_eq : divSteps left right = some (divChecked left right) := by
  unfold divSteps divChecked
  by_cases divisor : right = 0
  · rw [if_pos divisor, if_pos divisor]
  · rw [if_neg divisor, if_neg divisor]
    by_cases least : left = Int64.minValue ∧ right = -1
    · rw [if_pos least, if_pos least]
    · rw [if_neg least, if_neg least, signedDiv_eq left right divisor least]
      rfl

theorem signedRem_eq (divisor : right ≠ 0) (other : ¬(left = Int64.minValue ∧ right = -1)) :
    signedRem left right = some (left % right) := by
  have quotient := signedDiv_eq left right divisor other
  rw [signedDiv, if_neg divisor] at quotient
  unfold signedRem
  rw [if_neg]
  rintro (zero | large)
  · exact divisor zero
  · rw [signed, if_neg large] at quotient
    contradiction

theorem remSteps_eq : remSteps left right = some (remChecked left right) := by
  unfold remSteps remChecked
  by_cases divisor : right = 0
  · rw [if_pos divisor, if_pos divisor]
  · rw [if_neg divisor, if_neg divisor]
    by_cases least : left = Int64.minValue ∧ right = -1
    · rw [if_pos least, if_pos least]
    · rw [if_neg least, if_neg least, signedRem_eq left right divisor least]
      rfl

theorem modSteps_eq : modSteps left right = some (modChecked left right) := by
  unfold modSteps modChecked
  by_cases divisor : right = 0
  · rw [if_pos divisor, if_pos divisor]
  · rw [if_neg divisor, if_neg divisor]
    by_cases least : left = Int64.minValue ∧ right = -1
    · rw [if_pos least, if_pos least]
    · rw [if_neg least, if_neg least, signedRem_eq left right divisor least, Option.bind_some]
      by_cases moved : left % right ≠ 0 ∧ (decide (left % right < 0) ≠ decide (right < 0))
      · rw [if_pos moved, if_pos moved]
        have opposite : ¬((left % right).toInt < 0 ↔ right.toInt < 0) := by
          have signs := moved.2
          rw [ne_eq, decide_eq_decide, Int64.lt_iff_toInt_lt, Int64.lt_iff_toInt_lt] at signs
          exact signs
        have lowM := (left % right).le_toInt
        have highM := (left % right).toInt_lt
        have lowR := right.le_toInt
        have highR := right.toInt_lt
        rw [signedAdd, signed_of_fits _ _ (by unfold Fits; omega)]
        rfl
      · rw [if_neg moved, if_neg moved]

end arithmetic

section nodes
variable (values : GenericValues) (text canonical : String) (span : SourceSpan) (left right : Expression)
  (right' condition : Option Expression) (elements : List Expression)

theorem evaluateInteger_unary :
    evaluateInteger values (.mk .Unary text canonical span (some left) right' condition elements) =
      (evaluateInteger values left).bind (evaluateUnary text) := by
  rw [evaluateInteger]
  rfl

theorem evaluateInteger_binary :
    evaluateInteger values (.mk .Binary text canonical span (some left) (some right) condition elements) =
      (evaluateInteger values left).bind (fun l => (evaluateInteger values right).bind (evaluateBinary text l)) := by
  rw [evaluateInteger]
  rfl

end nodes

/-- The evaluation never performs an operation that is undefined. -/
theorem evaluateSteps_eq (values : GenericValues) (e : Expression) :
    evaluateSteps values e = some (evaluateInteger values e) := by
  have unary (text : String) (operand : Int64) : unarySteps text operand = some (evaluateUnary text operand) := by
    unfold unarySteps evaluateUnary
    split
    · rfl
    · split
      · exact negateSteps_eq operand
      · rfl
  have binary (text : String) (left right : Int64) :
      binarySteps text left right = some (evaluateBinary text left right) := by
    unfold binarySteps evaluateBinary
    rw [addSteps_eq, subSteps_eq, mulSteps_eq, divSteps_eq, remSteps_eq, modSteps_eq]
    simp only [apply_ite some]
  fun_induction evaluateSteps values e with
  | case1 text canonical span left right condition elements ih =>
      rw [evaluateInteger_unary, ih]
      cases evaluateInteger values left with
      | none => rfl
      | some operand => exact unary text operand
  | case2 text canonical span left right condition elements ihLeft ihRight =>
      rw [evaluateInteger_binary, ihLeft, ihRight]
      cases evaluateInteger values left with
      | none => rfl
      | some l =>
          cases evaluateInteger values right with
          | none => rfl
          | some r => exact binary text l r
  | case3 => rfl

/-! ### Values -/

/-- A decimal literal without base and exponent: digits and underlines after a first digit. -/
def DecimalLiteral (text : String) : Prop :=
  ∃ first rest, text.toList = first :: rest ∧ first.isDigit ∧ ∀ c ∈ rest, c.isDigit ∨ c = '_'

/-- The expressions that are evaluated. -/
inductive StaticInteger : Expression → Prop
  | name (text canonical span left right condition elements) :
      StaticInteger (.mk .Name text canonical span left right condition elements)
  | literal (text canonical span left right condition elements) (decimal : DecimalLiteral text) :
      StaticInteger (.mk .IntegerLiteral text canonical span left right condition elements)
  | unary (text canonical span left right condition elements) (operator : text ∈ ["+", "-"])
      (operand : StaticInteger left) : StaticInteger (.mk .Unary text canonical span (some left) right condition elements)
  | binary (text canonical span left right condition elements)
      (operator : text ∈ ["+", "-", "*", "/", "mod", "rem"]) (leftStatic : StaticInteger left)
      (rightStatic : StaticInteger right) :
      StaticInteger (.mk .Binary text canonical span (some left) (some right) condition elements)

def subExpressions : Expression → List Expression
  | .mk .Unary text canonical span (some left) right condition elements =>
      .mk .Unary text canonical span (some left) right condition elements :: subExpressions left
  | .mk .Binary text canonical span (some left) (some right) condition elements =>
      .mk .Binary text canonical span (some left) (some right) condition elements ::
        (subExpressions left ++ subExpressions right)
  | e => [e]

/-- The values of generics in unbounded integers. -/
def GenericValues.integers (values : GenericValues) (name : String) : Option Int :=
  (values.lookup name).map Int64.toInt

/-- Every part has a value, so every name is bound and no divisor is zero, and the value fits. -/
def AllFit (values : GenericValues) (e : Expression) : Prop :=
  ∀ part ∈ subExpressions e, ∃ v, integerValue values.integers part = some v ∧ Fits v

theorem exists_toInt (v : Int) (fits : Fits v) : ∃ value : Int64, value.toInt = v :=
  ⟨Int64.ofInt v, Int64.toInt_ofInt_of_le fits.1 fits.2⟩

section arithmetic
variable (left right value : Int64)

theorem negate_complete (same : value.toInt = -left.toInt) : negate left = some value := by
  have high := value.toInt_lt
  unfold negate
  rw [if_neg]
  · refine congrArg some (Int64.toInt_inj.mp ?_)
    rw [Int64.toInt_neg, bmod_eq _ (by have := value.le_toInt; omega) (by omega), same]
  · rintro rfl
    rw [Int64.toInt_minValue] at same
    omega

theorem addChecked_complete (same : value.toInt = left.toInt + right.toInt) : addChecked left right = some value := by
  have low := value.le_toInt
  have high := value.toInt_lt
  have lowR := right.le_toInt
  have highR := right.toInt_lt
  unfold addChecked
  rw [if_neg]
  · refine congrArg some (Int64.toInt_inj.mp ?_)
    rw [Int64.toInt_add, bmod_eq _ (by omega) (by omega), same]
  · simp only [gt_iff_lt, Int64.lt_iff_toInt_lt, Int64.toInt_sub, Int64.toInt_maxValue, Int64.toInt_minValue,
      Int64.toInt_zero]
    rintro (⟨positive, above⟩ | ⟨negative, below⟩)
    · rw [bmod_eq _ (by omega) (by omega)] at above
      omega
    · rw [bmod_eq _ (by omega) (by omega)] at below
      omega

theorem subChecked_complete (same : value.toInt = left.toInt - right.toInt) : subChecked left right = some value := by
  have low := value.le_toInt
  have high := value.toInt_lt
  have lowR := right.le_toInt
  have highR := right.toInt_lt
  unfold subChecked
  rw [if_neg]
  · refine congrArg some (Int64.toInt_inj.mp ?_)
    rw [Int64.toInt_sub, bmod_eq _ (by omega) (by omega), same]
  · simp only [gt_iff_lt, Int64.lt_iff_toInt_lt, Int64.toInt_add, Int64.toInt_maxValue, Int64.toInt_minValue,
      Int64.toInt_zero]
    rintro (⟨positive, below⟩ | ⟨negative, above⟩)
    · rw [bmod_eq _ (by omega) (by omega)] at below
      omega
    · rw [bmod_eq _ (by omega) (by omega)] at above
      omega

omit left right value in
theorem le_tdiv_of_mul_le (a b n : Int) (positive : 0 < b) (whole : 0 ≤ n) (below : a * b ≤ n) : a ≤ n.tdiv b := by
  rw [Int.tdiv_eq_ediv_of_nonneg whole]
  exact (Int.le_ediv_iff_mul_le positive).mpr below

omit left right value in
theorem tdiv_le_of_neg_le_mul (a b n : Int) (positive : 0 < b) (whole : 0 ≤ n) (above : -n ≤ a * b) :
    (-n).tdiv b ≤ a := by
  have bound := le_tdiv_of_mul_le (-a) b n positive whole (by rw [Int.neg_mul]; omega)
  rw [Int.neg_tdiv]
  omega

omit left right value in
/-- The four overflow tests fail on a product that fits. -/
theorem mul_tests (l r : Int) (fits : Fits (l * r)) :
    (0 < r → l ≤ (2 ^ 63 - 1 : Int).tdiv r) ∧ (0 < l → (-2 ^ 63 : Int).tdiv l ≤ r) ∧
    (0 < r → (-2 ^ 63 : Int).tdiv r ≤ l) ∧ (r < 0 → (2 ^ 63 - 1 : Int).tdiv r ≤ l) := by
  obtain ⟨low, high⟩ := fits
  refine ⟨?_, ?_, ?_, ?_⟩
  · intro positive
    exact le_tdiv_of_mul_le l r _ positive (by decide) (by omega)
  · intro positive
    exact tdiv_le_of_neg_le_mul r l (2 ^ 63) positive (by decide) (by rw [Int.mul_comm]; omega)
  · intro positive
    exact tdiv_le_of_neg_le_mul l r (2 ^ 63) positive (by decide) (by omega)
  · intro negative
    have bound := le_tdiv_of_mul_le (-l) (-r) (2 ^ 63 - 1) (by omega) (by decide) (by rw [Int.neg_mul_neg]; omega)
    have flipped : (2 ^ 63 - 1 : Int).tdiv (-r) = -(2 ^ 63 - 1 : Int).tdiv r := Int.tdiv_neg _ _
    omega

theorem mulChecked_complete (same : value.toInt = left.toInt * right.toInt) : mulChecked left right = some value := by
  have fits : Fits (left.toInt * right.toInt) := same ▸ fits_toInt value
  obtain ⟨one, two, three, four⟩ := mul_tests left.toInt right.toInt fits
  have max_div (d : Int64) : (Int64.maxValue / d).toInt = (2 ^ 63 - 1 : Int).tdiv d.toInt :=
    Int64.toInt_div_of_ne_left _ _ (by decide)
  have min_div (d : Int64) (positive : 0 < d.toInt) : (Int64.minValue / d).toInt = (-2 ^ 63 : Int).tdiv d.toInt := by
    refine Int64.toInt_div_of_ne_right _ _ ?_
    rintro rfl
    exact absurd positive (by decide)
  unfold mulChecked
  simp only [gt_iff_lt, Int64.lt_iff_toInt_lt, Int64.toInt_zero, max_div]
  rw [if_neg, if_neg]
  · refine congrArg some (Int64.toInt_inj.mp ?_)
    rw [Int64.toInt_mul, bmod_eq _ fits.1 fits.2, same]
  · rintro ⟨-, ⟨positive, below⟩ | ⟨negative, below⟩⟩
    · rw [min_div right positive] at below
      have bound := three positive
      omega
    · have bound := four negative
      omega
  · rintro ⟨positive, ⟨positive', above⟩ | ⟨-, below⟩⟩
    · have bound := one positive'
      omega
    · rw [min_div left positive] at below
      have bound := two positive
      omega

theorem divChecked_complete (divisor : right.toInt ≠ 0) (same : value.toInt = left.toInt.tdiv right.toInt) :
    divChecked left right = some value := by
  have nonzero : right ≠ 0 := by
    rintro rfl
    exact divisor rfl
  have inside : ¬(left = Int64.minValue ∧ right = -1) := by
    rintro ⟨rfl, rfl⟩
    have high := value.toInt_lt
    have quotient : (Int64.minValue.toInt).tdiv (-1 : Int64).toInt = 2 ^ 63 := by decide
    omega
  have checked : divChecked left right = some (left / right) := by
    rw [divChecked, if_neg nonzero, if_neg inside]
  rw [checked]
  refine congrArg some (Int64.toInt_inj.mp ?_)
  rw [(divChecked_exact left right _ checked).2, same]

theorem remChecked_complete (divisor : right.toInt ≠ 0) (same : value.toInt = left.toInt.tmod right.toInt) :
    remChecked left right = some value := by
  have nonzero : right ≠ 0 := by
    rintro rfl
    exact divisor rfl
  obtain ⟨result, checked⟩ : ∃ result, remChecked left right = some result := by
    unfold remChecked
    rw [if_neg nonzero]
    split
    · exact ⟨_, rfl⟩
    · exact ⟨_, rfl⟩
  rw [checked]
  refine congrArg some (Int64.toInt_inj.mp ?_)
  rw [(remChecked_exact left right _ checked).2, same]

theorem modChecked_complete (divisor : right.toInt ≠ 0) (same : value.toInt = left.toInt.fmod right.toInt) :
    modChecked left right = some value := by
  have nonzero : right ≠ 0 := by
    rintro rfl
    exact divisor rfl
  obtain ⟨result, checked⟩ : ∃ result, modChecked left right = some result := by
    unfold modChecked
    rw [if_neg nonzero]
    split
    · exact ⟨_, rfl⟩
    · simp only
      split
      · exact ⟨_, rfl⟩
      · exact ⟨_, rfl⟩
  rw [checked]
  refine congrArg some (Int64.toInt_inj.mp ?_)
  rw [(modChecked_exact left right _ checked).2, same]

end arithmetic

theorem evaluateUnary_iff (text : String) (operator : text ∈ ["+", "-"]) (operand value : Int64) :
    evaluateUnary text operand = some value ↔ unaryValue text operand.toInt = some value.toInt := by
  constructor
  · exact evaluateUnary_exact text operand value
  · intro same
    simp only [List.mem_cons, List.not_mem_nil, or_false] at operator
    rcases operator with rfl | rfl
    · exact congrArg some (Int64.toInt_inj.mp (Option.some.inj same))
    · exact negate_complete operand value (Option.some.inj same).symm

theorem evaluateBinary_iff (text : String) (operator : text ∈ ["+", "-", "*", "/", "mod", "rem"])
    (left right value : Int64) :
    evaluateBinary text left right = some value ↔ binaryValue text left.toInt right.toInt = some value.toInt := by
  constructor
  · exact evaluateBinary_exact text left right value
  · intro same
    simp only [List.mem_cons, List.not_mem_nil, or_false] at operator
    rcases operator with rfl | rfl | rfl | rfl | rfl | rfl
    · exact addChecked_complete left right value (Option.some.inj same).symm
    · exact subChecked_complete left right value (Option.some.inj same).symm
    · exact mulChecked_complete left right value (Option.some.inj same).symm
    · change (if right.toInt = 0 then none else some (left.toInt.tdiv right.toInt)) = some value.toInt at same
      split at same
      · contradiction
      · next divisor => exact divChecked_complete left right value divisor (Option.some.inj same).symm
    · change (if right.toInt = 0 then none else some (left.toInt.fmod right.toInt)) = some value.toInt at same
      split at same
      · contradiction
      · next divisor => exact modChecked_complete left right value divisor (Option.some.inj same).symm
    · change (if right.toInt = 0 then none else some (left.toInt.tmod right.toInt)) = some value.toInt at same
      split at same
      · contradiction
      · next divisor => exact remChecked_complete left right value divisor (Option.some.inj same).symm

/-! ### Literals -/

theorem digit_of_isDigit (c : Char) (isDigit : c.isDigit) : ∃ d, digit 10 c = some d := by
  have upper : c.toNat ≤ 57 := by
    unfold Char.isDigit at isDigit
    simp only [Bool.and_eq_true, decide_eq_true_eq] at isDigit
    exact isDigit.2
  refine ⟨c.toNat - 48, ?_⟩
  unfold digit
  rw [if_pos isDigit]
  exact if_pos (by omega)

theorem numeral_of_digits (digits : List Char) (some_ : digits ≠ []) (all : ∀ c ∈ digits, c.isDigit) :
    ∃ n, numeral 10 digits = some n := by
  have general (start : Nat) : ∃ n, digits.foldlM (fun n c => (digit 10 c).map (fun d => n * 10 + d)) start = some n := by
    clear some_
    induction digits generalizing start with
    | nil => exact ⟨start, rfl⟩
    | cons c rest ih =>
        obtain ⟨d, found⟩ := digit_of_isDigit c (all c List.mem_cons_self)
        obtain ⟨n, further⟩ := ih (fun c' member => all c' (List.mem_cons_of_mem _ member)) (start * 10 + d)
        refine ⟨n, ?_⟩
        rw [List.foldlM_cons, found]
        exact further
  obtain ⟨n, folded⟩ := general 0
  refine ⟨n, ?_⟩
  unfold numeral
  rw [if_neg (by simpa using some_)]
  exact folded

theorem literal_iff (text : String) (decimal : DecimalLiteral text) (value : Int64) :
    (if '#' ∈ text.toList then none else fromChars (lessUnderlines text)) = some value ↔
      literalValue text = some value.toInt := by
  obtain ⟨first, rest, characters, isDigit, others⟩ := decimal
  have base : '#' ∉ text.toList := by
    rw [characters]
    intro member
    rcases List.mem_cons.mp member with rfl | member
    · exact absurd isDigit (by decide)
    · rcases others '#' member with digit_ | underline
      · exact absurd digit_ (by decide)
      · exact absurd underline (by decide)
  have notUnderline : first ≠ '_' := by
    rintro rfl
    exact absurd isDigit (by decide)
  have digits : lessUnderlines text = first :: rest.filter (fun c => c != '_') := by
    rw [lessUnderlines, characters, List.filter_cons_of_pos (by simpa using notUnderline)]
  have notMinus : first ≠ '-' := by
    rintro rfl
    exact absurd isDigit (by decide)
  rw [if_neg base]
  constructor
  · exact fromChars_exact text value
  · intro same
    have all : ∀ c ∈ first :: rest.filter (fun c => c != '_'), c.isDigit := by
      intro c member
      rcases List.mem_cons.mp member with rfl | member
      · exact isDigit
      · obtain ⟨inside, other⟩ := List.mem_filter.mp member
        exact (others c inside).resolve_right (by simpa using other)
    obtain ⟨n, read⟩ := numeral_of_digits _ (List.cons_ne_nil _ _) all
    have exact_ : (n : Int) = value.toInt := by
      unfold literalValue at same
      rw [digits] at same
      split at same
      · next heq => exact absurd (List.cons.inj heq).1 notMinus
      · rw [abstractLiteral_numeral _ n read] at same
        exact Option.some.inj same
    have found : fromChars (first :: rest.filter (fun c => c != '_')) =
        ((some (n : Int)).filter (fun v => decide (-2 ^ 63 ≤ v) && decide (v < 2 ^ 63))).map Int64.ofInt := by
      unfold fromChars
      split
      · next heq => exact absurd (List.cons.inj heq).1 notMinus
      · rw [read]
        rfl
    have fits := fits_toInt value
    rw [digits, found, exact_, Option.filter_some, if_pos (by rw [Bool.and_eq_true, decide_eq_true_iff, decide_eq_true_iff]; exact fits), Option.map_some]
    refine congrArg some (Int64.toInt_inj.mp ?_)
    exact Int64.toInt_ofInt_of_le fits.1 fits.2

/-! ### Evaluation -/

theorem mem_subExpressions_self (e : Expression) : e ∈ subExpressions e := by
  fun_cases subExpressions e with
  | case1 => exact List.mem_cons_self
  | case2 => exact List.mem_cons_self
  | case3 => exact List.mem_singleton.mpr rfl

/-- A value comes out exactly when every part has a value that fits, and it is the value. -/
theorem evaluateInteger_iff (values : GenericValues) (e : Expression) (static : StaticInteger e) (value : Int64) :
    evaluateInteger values e = some value ↔ AllFit values e ∧ integerValue values.integers e = some value.toInt := by
  have of_exact (e : Expression) (value : Int64) (same : integerValue values.integers e = some value.toInt) :
      ∃ v, integerValue values.integers e = some v ∧ Fits v := ⟨_, same, fits_toInt value⟩
  have alone (e : Expression) (leaf : subExpressions e = [e]) (value : Int64)
      (same : integerValue values.integers e = some value.toInt) : AllFit values e := by
    intro part member
    rw [leaf, List.mem_singleton] at member
    exact member ▸ of_exact e value same
  induction static generalizing value with
  | name text canonical span left right condition elements =>
      have exact_ : evaluateInteger values (.mk .Name text canonical span left right condition elements) = some value ↔
          integerValue values.integers (.mk .Name text canonical span left right condition elements) =
            some value.toInt := by
        unfold evaluateInteger integerValue GenericValues.integers
        cases values.lookup (if canonical.isEmpty = true then text else canonical) with
        | none => simp
        | some found => simp [Int64.toInt_inj]
      rw [exact_]
      exact ⟨fun same => ⟨alone _ rfl value same, same⟩, And.right⟩
  | literal text canonical span left right condition elements decimal =>
      have exact_ := literal_iff text decimal value
      constructor
      · intro given
        have same := exact_.mp given
        exact ⟨alone _ rfl value same, same⟩
      · rintro ⟨-, same⟩
        exact exact_.mpr same
  | unary text canonical span left right condition elements operator _ ih =>
      rw [evaluateInteger_unary, Option.bind_eq_some_iff]
      constructor
      · rintro ⟨operand, found, result⟩
        obtain ⟨parts, same⟩ := (ih operand).mp found
        have whole : integerValue values.integers (.mk .Unary text canonical span (some left) right condition elements) =
            some value.toInt := by
          unfold integerValue
          rw [same]
          exact (evaluateUnary_iff text operator operand value).mp result
        refine ⟨?_, whole⟩
        intro part member
        rcases List.mem_cons.mp member with rfl | inside
        · exact of_exact _ value whole
        · exact parts part inside
      · rintro ⟨parts, whole⟩
        have partsLeft : AllFit values left := fun part member => parts part (List.mem_cons_of_mem _ member)
        obtain ⟨v, same, fits⟩ := partsLeft left (mem_subExpressions_self left)
        obtain ⟨operand, rfl⟩ := exists_toInt v fits
        refine ⟨operand, (ih operand).mpr ⟨partsLeft, same⟩, ?_⟩
        unfold integerValue at whole
        rw [same] at whole
        exact (evaluateUnary_iff text operator operand value).mpr whole
  | binary text canonical span left right condition elements operator _ _ ihLeft ihRight =>
      rw [evaluateInteger_binary, Option.bind_eq_some_iff]
      constructor
      · rintro ⟨l, foundLeft, further⟩
        obtain ⟨r, foundRight, result⟩ := Option.bind_eq_some_iff.mp further
        obtain ⟨partsLeft, sameLeft⟩ := (ihLeft l).mp foundLeft
        obtain ⟨partsRight, sameRight⟩ := (ihRight r).mp foundRight
        have whole : integerValue values.integers
            (.mk .Binary text canonical span (some left) (some right) condition elements) = some value.toInt := by
          unfold integerValue
          rw [sameLeft, sameRight]
          exact (evaluateBinary_iff text operator l r value).mp result
        refine ⟨?_, whole⟩
        intro part member
        rcases List.mem_cons.mp member with rfl | inside
        · exact of_exact _ value whole
        · exact (List.mem_append.mp inside).elim (partsLeft part) (partsRight part)
      · rintro ⟨parts, whole⟩
        have partsLeft : AllFit values left := fun part member =>
          parts part (List.mem_cons_of_mem _ (List.mem_append_left _ member))
        have partsRight : AllFit values right := fun part member =>
          parts part (List.mem_cons_of_mem _ (List.mem_append_right _ member))
        obtain ⟨x, sameLeft, fitsLeft⟩ := partsLeft left (mem_subExpressions_self left)
        obtain ⟨y, sameRight, fitsRight⟩ := partsRight right (mem_subExpressions_self right)
        obtain ⟨l, rfl⟩ := exists_toInt x fitsLeft
        obtain ⟨r, rfl⟩ := exists_toInt y fitsRight
        refine ⟨l, (ihLeft l).mpr ⟨partsLeft, sameLeft⟩, Option.bind_eq_some_iff.mpr
          ⟨r, (ihRight r).mpr ⟨partsRight, sameRight⟩, ?_⟩⟩
        unfold integerValue at whole
        rw [sameLeft, sameRight] at whole
        exact (evaluateBinary_iff text operator l r value).mpr whole

/-- Static integer evaluation is exact and performs no operation that overflows. -/
theorem staticInteger_evaluation (values : GenericValues) (e : Expression) (static : StaticInteger e) :
    evaluateSteps values e = some (evaluateInteger values e) ∧
      ∀ value, evaluateInteger values e = some value ↔
        AllFit values e ∧ integerValue values.integers e = some value.toInt :=
  ⟨evaluateSteps_eq values e, evaluateInteger_iff values e static⟩

/-- The expression `-7 mod w`. -/
def sevenModWidth : Expression :=
  let span : SourceSpan := ⟨⟨0, 1, 1⟩, ⟨8, 1, 9⟩⟩
  .mk .Binary "mod" "" span
    (some (.mk .Unary "-" "" span (some (.mk .IntegerLiteral "7" "" span none none none [])) none none []))
    (some (.mk .Name "w" "w" span none none none [])) none []

theorem sevenModWidth_evaluation :
    evaluateSteps [("w", 3)] sevenModWidth = some (evaluateInteger [("w", 3)] sevenModWidth) ∧
      ∀ value, evaluateInteger [("w", 3)] sevenModWidth = some value ↔
        AllFit [("w", 3)] sevenModWidth ∧ integerValue (GenericValues.integers [("w", 3)]) sevenModWidth = some value.toInt :=
  staticInteger_evaluation [("w", 3)] sevenModWidth
    (.binary _ _ _ _ _ _ _ (by decide)
      (.unary _ _ _ _ _ _ _ (by decide) (.literal _ _ _ _ _ _ _ ⟨'7', [], rfl, rfl, nofun⟩))
      (.name _ _ _ _ _ _ _))

end Naja.Vhdl
