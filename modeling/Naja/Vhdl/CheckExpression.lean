import Naja.Vhdl.Ranges

/-! Type checking of expressions. The check of a node depends on the types of its
operands and on the type its context expects; it ends with a type and with what it
reports. The type of every node is recorded, so that the result is a tree of the
shape of the expression. -/

namespace Naja.Vhdl

inductive ScalarType where
  | Unknown | Bit | BitVector | StdLogic | StdLogicVector | Unsigned | Signed | Boolean | Integer | Natural
  | Real | String
deriving DecidableEq, Repr

structure CheckedType where
  kind : ScalarType
  range : Option DiscreteRange

/-- The type of what cannot be typed. -/
def CheckedType.unknown : CheckedType := ⟨.Unknown, none⟩

structure Visibility where
  stdLogic1164 : Bool
  numericStd : Bool
deriving DecidableEq, Repr

/-- The type of a type mark, with its range where the bounds can be evaluated. -/
def declarationType (type : TypeMark) (visibility : Visibility) (values : GenericValues) : CheckedType :=
  let range := type.constraint.bind (fun constraint => resolveRange constraint values)
  let name := type.name.canonical
  if name = "bit_vector" ∧ type.constraint.isSome then ⟨.BitVector, range⟩
  else if visibility.stdLogic1164 ∧ name = "std_logic_vector" ∧ type.constraint.isSome then ⟨.StdLogicVector, range⟩
  else if visibility.numericStd ∧ name = "unsigned" ∧ type.constraint.isSome then ⟨.Unsigned, range⟩
  else if visibility.numericStd ∧ name = "signed" ∧ type.constraint.isSome then ⟨.Signed, range⟩
  else if type.constraint.isSome then .unknown
  else if name = "bit" then ⟨.Bit, none⟩
  else if visibility.stdLogic1164 ∧ name = "std_logic" then ⟨.StdLogic, none⟩
  else if name = "boolean" then ⟨.Boolean, none⟩
  else if name = "integer" then ⟨.Integer, none⟩
  else if name = "natural" then ⟨.Natural, none⟩
  else if name = "positive" then ⟨.Natural, none⟩
  else if name = "real" then ⟨.Real, none⟩
  else if name = "string" then ⟨.String, none⟩
  else .unknown

namespace ScalarType

def isLogicalType (type : ScalarType) : Bool :=
  type == .Bit || type == .BitVector || type == .StdLogic || type == .StdLogicVector || type == .Boolean

def isNumericVectorType (type : ScalarType) : Bool := type == .Unsigned || type == .Signed

def isVector (type : ScalarType) : Bool :=
  type == .BitVector || type == .StdLogicVector || type == .Unsigned || type == .Signed

def isInteger (type : ScalarType) : Bool := type == .Integer || type == .Natural

end ScalarType

def typeName : ScalarType → String
  | .Bit => "bit"
  | .BitVector => "bit_vector"
  | .StdLogic => "std_logic"
  | .StdLogicVector => "std_logic_vector"
  | .Unsigned => "unsigned"
  | .Signed => "signed"
  | .Boolean => "boolean"
  | .Integer => "integer"
  | .Natural => "natural"
  | .Real => "real"
  | .String => "string"
  | .Unknown => "unknown"


/-- Types that may meet: unresolved ranges match each other. -/
def compatible (left right : CheckedType) : Bool :=
  if left.kind = .Unknown ∨ right.kind = .Unknown then false
  else if left.kind.isInteger ∧ right.kind.isInteger then true
  else if left.kind ≠ right.kind then false
  else if ¬ left.kind.isVector then true
  else
    match left.range, right.range with
    | some l, some r => rangeWidth l == rangeWidth r
    | none, none => true
    | _, _ => false

def isLogical (op : String) : Bool := ["and", "nand", "or", "nor", "xor", "xnor"].contains op

def isStdLogicLiteral (literal : String) : Bool :=
  ["'U'", "'X'", "'0'", "'1'", "'Z'", "'W'", "'L'", "'H'", "'-'"].contains literal

def isEquality (op : String) : Bool := op == "=" || op == "/="

def isRelational (op : String) : Bool := op == "<" || op == "<=" || op == ">" || op == ">="

def isAdding (op : String) : Bool := op == "+" || op == "-"

def isDividing (op : String) : Bool := op == "/" || op == "rem" || op == "mod"

/-- How the check of a node ends. A literal operand of a numeric vector may be recorded as natural. -/
structure Verdict where
  type : CheckedType
  diagnostics : List Diagnostic
  naturalOperand : Bool

namespace Verdict

def accept (type : CheckedType) : Verdict := ⟨type, [], false⟩

def reject (message : String) (span : SourceSpan) : Verdict := ⟨.unknown, [⟨message, span⟩], false⟩

/-- The operands have been reported already. -/
def silent : Verdict := ⟨.unknown, [], false⟩

end Verdict

/-- A numeric vector as a result, if its width is supported. -/
def numericResult (kind : ScalarType) (width : UInt64) (span : SourceSpan) (exceeds : String) : Verdict :=
  match canonicalRange width span with
  | none => .reject exceeds span
  | some range => .accept ⟨kind, some range⟩

def numericUnary (name vectors : String) (span : SourceSpan) (visibility : Visibility)
    (operand : CheckedType) : Verdict :=
  if ¬ visibility.numericStd then
    .reject ("unary '" ++ name ++ "' for " ++ vectors ++ " vectors requires ieee.numeric_std.all") span
  else
    match operand.range with
    | none => .reject ("unary '" ++ name ++ "' requires a non-null " ++ vectors ++ " vector operand") span
    | some range =>
        if rangeWidth range = 0 then
          .reject ("unary '" ++ name ++ "' requires a non-null " ++ vectors ++ " vector operand") span
        else
          numericResult operand.kind (rangeWidth range) span
            ("unary '" ++ name ++ "' result width exceeds the supported range")

def checkUnary (text : String) (span : SourceSpan) (visibility : Visibility) (operand : CheckedType) : Verdict :=
  if text = "not" ∧ operand.kind.isLogicalType then .accept operand
  else if text = "not" ∧ operand.kind.isNumericVectorType then
    numericUnary "not" "numeric" span visibility operand
  else if (text = "-" ∨ text = "abs") ∧ operand.kind = .Signed then
    numericUnary text "signed" span visibility operand
  else if operand.kind = .Unknown then .silent
  else .reject ("operator '" ++ text ++ "' is not supported for type '" ++ typeName operand.kind ++ "'") span

/-- The ranges of two numeric vectors of one kind. -/
def sameVectors (left right : CheckedType) : Option (DiscreteRange × DiscreteRange) :=
  if left.kind.isNumericVectorType ∧ left.kind = right.kind then
    match left.range, right.range with
    | some l, some r => some (l, r)
    | _, _ => none
  else none

/-- A natural number beside an unsigned vector, any integer beside a signed one. -/
def validScalar (vector scalar : ScalarType) (literal : Bool) : Bool :=
  if vector = .Unsigned then scalar == .Natural || (scalar == .Integer && literal) else scalar.isInteger

/-- A numeric vector with its range, where the scalar beside it goes with it. -/
def besideVector (vector scalar : CheckedType) (literal : Bool) : Option (ScalarType × DiscreteRange × Bool) :=
  if validScalar vector.kind scalar.kind literal then
    vector.range.map (fun range => (vector.kind, range, vector.kind == .Unsigned && literal))
  else none

def vectorWithScalar (leftLiteral rightLiteral : Bool) (left right : CheckedType) :
    Option (ScalarType × DiscreteRange × Bool) :=
  if left.kind.isNumericVectorType = right.kind.isNumericVectorType then none
  else if left.kind.isNumericVectorType then besideVector left right rightLiteral
  else besideVector right left leftLiteral

/-- The operators of two numeric vectors or of one and a scalar; `pair` and `mixed` give the result
from the widths. -/
def numericBinary (text : String) (span : SourceSpan) (leftLiteral rightLiteral : Bool) (left right : CheckedType)
    (pair : UInt64 → UInt64 → Verdict) (mixed : ScalarType → UInt64 → Verdict) : Verdict :=
  match sameVectors left right with
  | some (l, r) =>
      if rangeWidth l = 0 ∨ rangeWidth r = 0 then
        .reject ("operator '" ++ text ++ "' requires non-null numeric vector operands") span
      else pair (rangeWidth l) (rangeWidth r)
  | none =>
      match vectorWithScalar leftLiteral rightLiteral left right with
      | some (kind, range, natural) =>
          if rangeWidth range = 0 then
            .reject ("operator '" ++ text ++ "' requires a non-null numeric vector operand") span
          else
            let verdict := mixed kind (rangeWidth range)
            { verdict with naturalOperand := natural && verdict.diagnostics.isEmpty }
      | none =>
          if left.kind = .Unknown ∨ right.kind = .Unknown then .silent
          else .reject ("operator '" ++ text ++
            "' requires matching numeric vectors or a compatible scalar operand") span

def checkLogical (text : String) (span : SourceSpan) (visibility : Visibility) (left right : CheckedType) : Verdict :=
  if left.kind.isLogicalType ∧ compatible left right then .accept left
  else if left.kind.isNumericVectorType ∨ right.kind.isNumericVectorType then
    if ¬ visibility.numericStd then
      .reject ("logical operator '" ++ text ++ "' for numeric vectors requires ieee.numeric_std.all") span
    else
      match sameVectors left right with
      | some (l, r) =>
          if rangeWidth l = 0 ∨ rangeWidth r = 0 then
            .reject ("logical operator '" ++ text ++ "' requires non-null numeric vector operands") span
          else if rangeWidth l ≠ rangeWidth r then
            .reject ("logical operator '" ++ text ++ "' requires equally sized numeric vector operands") span
          else
            numericResult left.kind (rangeWidth l) span
              ("logical operator '" ++ text ++ "' result width exceeds the supported range")
      | none =>
          if left.kind = .Unknown ∨ right.kind = .Unknown then .silent
          else .reject ("logical operator '" ++ text ++ "' requires matching numeric vector operands") span
  else if left.kind = .Unknown ∨ right.kind = .Unknown then .silent
  else .reject ("logical operator '" ++ text ++ "' requires matching logical operands") span

def invisibleNumeric (text : String) (span : SourceSpan) : Verdict :=
  .reject ("operator '" ++ text ++ "' for numeric vectors requires ieee.numeric_std.all") span

def exceedsRange (text : String) : String := "operator '" ++ text ++ "' result width exceeds the supported range"

def checkEquality (text : String) (span : SourceSpan) (visibility : Visibility) (leftLiteral rightLiteral : Bool)
    (left right : CheckedType) : Verdict :=
  if left.kind.isNumericVectorType ∨ right.kind.isNumericVectorType then
    if ¬ visibility.numericStd then invisibleNumeric text span
    else
      numericBinary text span leftLiteral rightLiteral left right
        (fun _ _ => .accept ⟨.Boolean, none⟩) (fun _ _ => .accept ⟨.Boolean, none⟩)
  else if compatible left right then .accept ⟨.Boolean, none⟩
  else if left.kind = .Unknown ∨ right.kind = .Unknown then .silent
  else .reject "equality operator requires matching supported scalar operands" span

/-- The other operators on numbers: without a numeric vector they are `scalars`. -/
def checkNumeric (text : String) (span : SourceSpan) (visibility : Visibility) (scalars : String)
    (leftLiteral rightLiteral : Bool) (left right : CheckedType) (pair : UInt64 → UInt64 → Verdict)
    (mixed : ScalarType → UInt64 → Verdict) : Verdict :=
  if ¬ (left.kind.isNumericVectorType ∨ right.kind.isNumericVectorType) then
    if left.kind = .Unknown ∨ right.kind = .Unknown then .silent else .reject scalars span
  else if ¬ visibility.numericStd then invisibleNumeric text span
  else numericBinary text span leftLiteral rightLiteral left right pair mixed

def maxResultWidth : UInt64 := 2 ^ 63

/-- The check of a binary operator from the types of its operands. -/
def checkBinary (text : String) (span : SourceSpan) (visibility : Visibility) (leftLiteral rightLiteral : Bool)
    (left right : CheckedType) : Verdict :=
  if isLogical text then checkLogical text span visibility left right
  else if isEquality text then checkEquality text span visibility leftLiteral rightLiteral left right
  else if isRelational text then
    checkNumeric text span visibility
      ("relational operator '" ++ text ++ "' is currently supported only for numeric vectors")
      leftLiteral rightLiteral left right (fun _ _ => .accept ⟨.Boolean, none⟩) (fun _ _ => .accept ⟨.Boolean, none⟩)
  else if isAdding text then
    checkNumeric text span visibility
      ("operator '" ++ text ++ "' requires matching numeric vectors or a compatible scalar operand")
      leftLiteral rightLiteral left right
      (fun l r => numericResult left.kind (max l r) span (exceedsRange text))
      (fun kind width => numericResult kind width span (exceedsRange text))
  else if text = "*" then
    checkNumeric text span visibility "binary operator '*' is not supported by scalar type analysis"
      leftLiteral rightLiteral left right
      (fun l r =>
        if r > maxResultWidth ∨ l > maxResultWidth - r then .reject (exceedsRange text) span
        else numericResult left.kind (l + r) span (exceedsRange text))
      (fun kind width =>
        if width > maxResultWidth / 2 then .reject (exceedsRange text) span
        else numericResult kind (width * 2) span (exceedsRange text))
  else if isDividing text then
    checkNumeric text span visibility ("binary operator '" ++ text ++ "' is not supported by scalar type analysis")
      leftLiteral rightLiteral left right
      (fun l r => numericResult left.kind (if text = "/" then l else r) span (exceedsRange text))
      (fun kind width => numericResult kind width span (exceedsRange text))
  else .reject ("binary operator '" ++ text ++ "' is not supported by scalar type analysis") span

/-- What the left operand of an operator is expected to be. -/
def leftExpected (text : String) (expected : CheckedType) : CheckedType :=
  if isLogical text then if expected.kind.isLogicalType then expected else .unknown
  else if text = "*" ∨ isDividing text then if expected.kind.isNumericVectorType then expected else .unknown
  else .unknown

/-- What the right operand is expected to be, once the left one has its type. -/
def rightExpected (text : String) (expected left : CheckedType) : CheckedType :=
  if isLogical text ∨ text = "*" ∨ isDividing text then
    if left.kind = .Unknown then leftExpected text expected else left
  else if isEquality text then left
  else if isRelational text then if left.kind.isNumericVectorType then left else .unknown
  else .unknown

def checkConditional (span : SourceSpan) (expected condition whenTrue whenFalse : CheckedType) : Verdict :=
  if condition.kind = .Boolean ∧ compatible whenTrue whenFalse then
    .accept (if expected.kind ≠ .Unknown ∧ compatible expected whenTrue then expected else whenTrue)
  else if condition.kind = .Unknown ∨ whenTrue.kind = .Unknown ∨ whenFalse.kind = .Unknown then .silent
  else .reject "conditional expression requires a boolean condition and matching branches" span

def checkCharacter (text : String) (span : SourceSpan) (expected : CheckedType) : Verdict :=
  if expected.kind = .Bit ∧ (text = "'0'" ∨ text = "'1'") then .accept ⟨.Bit, none⟩
  else if expected.kind = .StdLogic ∧ isStdLogicLiteral text then .accept ⟨.StdLogic, none⟩
  else if expected.kind = .Unknown then .silent
  else .reject "character literal requires a supported scalar bit context" span

/-- The names in scope with their types. -/
abbrev Declarations := List (String × CheckedType)

def checkName (text : String) (span : SourceSpan) (found : Option CheckedType) : Verdict :=
  match found with
  | none => .reject ("no declaration for name '" ++ text ++ "'") span
  | some type =>
      if type.kind = .Unknown then ⟨type, [⟨"unsupported type for name '" ++ text ++ "'", span⟩], false⟩
      else .accept type

/-- The types recorded for an expression and for its parts. -/
inductive Annotation where
  | mk (type : CheckedType) (left right condition : Option Annotation)

namespace Annotation

def type : Annotation → CheckedType
  | .mk type .. => type

/-- The entry of a literal operand is overwritten. -/
def asNatural : Annotation → Annotation
  | .mk type left right condition => .mk { type with kind := .Natural } left right condition

end Annotation

/-- The annotated operands once the operator is checked: the scalar beside a numeric vector is the
operand whose entry is overwritten. -/
def recordOperands (verdict : Verdict) (left right : Annotation) : Annotation × Annotation :=
  if verdict.naturalOperand then
    if left.type.kind.isNumericVectorType then (left, right.asNatural) else (left.asNatural, right)
  else (left, right)

/-- The annotated expression and the diagnostics; a missing operand is a null pointer. -/
def checkExpression (declarations : Declarations) (visibility : Visibility) (expected : CheckedType) :
    Expression → Option ( Annotation × List Diagnostic)
  | .mk .Name text canonical span _ _ _ _ =>
      let verdict := checkName text span (declarations.lookup (if canonical.isEmpty then text else canonical))
      some (.mk verdict.type none none none, verdict.diagnostics)
  | .mk .IntegerLiteral _ _ _ _ _ _ _ =>
      some (.mk ⟨if expected.kind = .Natural then .Natural else .Integer, none⟩ none none none, [])
  | .mk .RealLiteral _ _ _ _ _ _ _ => some (.mk ⟨.Real, none⟩ none none none, [])
  | .mk .StringLiteral _ _ _ _ _ _ _ => some (.mk ⟨.String, none⟩ none none none, [])
  | .mk .CharacterLiteral text _ span _ _ _ _ =>
      let verdict := checkCharacter text span expected
      some (.mk verdict.type none none none, verdict.diagnostics)
  | .mk .Unary text _ span (some left) _ _ _ => do
      let (operand, reported) ← checkExpression declarations visibility expected left
      let verdict := checkUnary text span visibility operand.type
      return (.mk verdict.type (some operand) none none, reported ++ verdict.diagnostics)
  | .mk .Binary text _ span (some left) (some right) _ _ => do
      let leftCharacter := left.kind == .CharacterLiteral
      let rightCharacter := right.kind == .CharacterLiteral
      let literals := (left.kind == .IntegerLiteral, right.kind == .IntegerLiteral)
      if isEquality text && leftCharacter && rightCharacter then do
        let (l, reportedL) ← checkExpression declarations visibility .unknown left
        let (r, reportedR) ← checkExpression declarations visibility .unknown right
        return (.mk .unknown (some l) (some r) none,
          ⟨"equality between character literals needs a declared scalar context", span⟩ :: (reportedL ++ reportedR))
      else if isEquality text && leftCharacter then do
        let (r, reportedR) ← checkExpression declarations visibility .unknown right
        let (l, reportedL) ← checkExpression declarations visibility r.type left
        let verdict := checkBinary text span visibility literals.1 literals.2 l.type r.type
        let operands := recordOperands verdict l r
        return (.mk verdict.type (some operands.1) (some operands.2) none,
          reportedR ++ reportedL ++ verdict.diagnostics)
      else do
        let (l, reportedL) ← checkExpression declarations visibility (leftExpected text expected) left
        let (r, reportedR) ← checkExpression declarations visibility (rightExpected text expected l.type) right
        let verdict := checkBinary text span visibility literals.1 literals.2 l.type r.type
        let operands := recordOperands verdict l r
        return (.mk verdict.type (some operands.1) (some operands.2) none,
          reportedL ++ reportedR ++ verdict.diagnostics)
  | .mk .Conditional _ _ span (some left) (some right) (some condition) _ => do
      let (c, reportedC) ← checkExpression declarations visibility ⟨.Boolean, none⟩ condition
      let (l, reportedL) ← checkExpression declarations visibility expected left
      let (r, reportedR) ← checkExpression declarations visibility expected right
      let verdict := checkConditional span expected c.type l.type r.type
      return (.mk verdict.type (some l) (some r) (some c), reportedC ++ reportedL ++ reportedR ++ verdict.diagnostics)
  | .mk .Unary _ _ _ none _ _ _ | .mk .Binary _ _ _ none _ _ _ | .mk .Binary _ _ _ (some _) none _ _
  | .mk .Conditional _ _ _ _ _ none _ | .mk .Conditional _ _ _ none _ (some _) _
  | .mk .Conditional _ _ _ (some _) none (some _) _ => none
  | .mk _ _ _ span _ _ _ _ =>
      some (.mk .unknown none none none,
        [⟨"indexed expressions and aggregates require RTL elaboration", span⟩])

end Naja.Vhdl
