import Naja.Vhdl.CheckExpression

/-! The typing rules of the operators, and values. A shape is a kind and, for a
vector, its number of elements. An expression whose recorded types follow the rules
evaluates without meeting operands that do not go together. -/

namespace Naja.Vhdl

@[ext] structure Shape where
  kind : ScalarType
  elements : Option Nat
deriving DecidableEq, Repr

def CheckedType.shape (type : CheckedType) : Shape := ⟨type.kind, type.range.map DiscreteRange.elements⟩

def ScalarType.merged : ScalarType → ScalarType
  | .Natural => .Integer
  | kind => kind

/-- Integer and natural are one kind. -/
def sameKind (a b : ScalarType) : Bool := a.merged == b.merged

def Shape.agrees (a b : Shape) : Bool := sameKind a.kind b.kind && a.elements == b.elements

def unaryRule (text : String) (operand : Shape) : Option Shape :=
  if text = "not" ∧ (operand.kind.isLogicalType ∨ operand.kind.isNumericVectorType) then some operand
  else if (text = "-" ∨ text = "abs") ∧ operand.kind = .Signed then some operand
  else none

/-- The numbers of elements of two numeric vectors of one kind. -/
def numericPair (left right : Shape) : Option (Nat × Nat) :=
  if left.kind.isNumericVectorType ∧ left.kind = right.kind then
    match left.elements, right.elements with
    | some l, some r => some (l, r)
    | _, _ => none
  else none

/-- A scalar goes with a numeric vector: natural with unsigned, integer with signed. -/
def goesWith (vector scalar : ScalarType) : Bool :=
  (vector == .Unsigned && scalar == .Natural) || (vector == .Signed && scalar.isInteger)

def numericMixed (left right : Shape) : Option Shape :=
  if goesWith left.kind right.kind ∧ left.elements.isSome then some left
  else if goesWith right.kind left.kind ∧ right.elements.isSome then some right
  else none

def pairElements (text : String) (l r : Nat) : Nat :=
  if isAdding text then max l r
  else if text = "*" then l + r
  else if text = "/" then l
  else r

def mixedElements (text : String) (n : Nat) : Nat := if text = "*" then 2 * n else n

def boolean : Shape := ⟨.Boolean, none⟩

/-- The type of a binary operator by the types of its operands. -/
def binaryRule (text : String) (left right : Shape) : Option Shape :=
  if isLogical text then
    if (left.kind.isLogicalType ∨ left.kind.isNumericVectorType) ∧ left = right then some left else none
  else if isEquality text then
    if (numericPair left right).isSome ∨ (numericMixed left right).isSome ∨
        (left.kind ≠ .Unknown ∧ left.agrees right) then some boolean else none
  else if isRelational text then
    if (numericPair left right).isSome ∨ (numericMixed left right).isSome then some boolean else none
  else if isAdding text ∨ text = "*" ∨ isDividing text then
    match numericPair left right with
    | some (l, r) => some ⟨left.kind, some (pairElements text l r)⟩
    | none => (numericMixed left right).map (fun vector => ⟨vector.kind, vector.elements.map (mixedElements text)⟩)
  else none

/-- The recorded types of an expression and its parts follow the rules; `declared` has the shapes of
the names. -/
inductive Ruled (declared : String → Option Shape) : Expression → Annotation → Prop where
  | name (text canonical : String) (span : SourceSpan) (l r c : Option Expression) (elements : List Expression)
      (type : CheckedType) (found : declared (if canonical.isEmpty then text else canonical) = some type.shape) :
      Ruled declared (.mk .Name text canonical span l r c elements) (.mk type none none none)
  | integer (text canonical : String) (span : SourceSpan) (l r c : Option Expression) (elements : List Expression)
      (kind : ScalarType) (whole : kind.isInteger) :
      Ruled declared (.mk .IntegerLiteral text canonical span l r c elements) (.mk ⟨kind, none⟩ none none none)
  | real (text canonical : String) (span : SourceSpan) (l r c : Option Expression) (elements : List Expression) :
      Ruled declared (.mk .RealLiteral text canonical span l r c elements) (.mk ⟨.Real, none⟩ none none none)
  | string (text canonical : String) (span : SourceSpan) (l r c : Option Expression) (elements : List Expression) :
      Ruled declared (.mk .StringLiteral text canonical span l r c elements) (.mk ⟨.String, none⟩ none none none)
  | character (text canonical : String) (span : SourceSpan) (l r c : Option Expression) (elements : List Expression)
      (kind : ScalarType) (logic : kind = .Bit ∨ kind = .StdLogic) :
      Ruled declared (.mk .CharacterLiteral text canonical span l r c elements) (.mk ⟨kind, none⟩ none none none)
  | unary (text canonical : String) (span : SourceSpan) (left : Expression) (r c : Option Expression)
      (elements : List Expression) (type : CheckedType) (operand : Annotation) (inside : Ruled declared left operand)
      (rule : unaryRule text operand.type.shape = some type.shape) :
      Ruled declared (.mk .Unary text canonical span (some left) r c elements) (.mk type (some operand) none none)
  | binary (text canonical : String) (span : SourceSpan) (left right : Expression) (c : Option Expression)
      (elements : List Expression) (type : CheckedType) (l r : Annotation) (first : Ruled declared left l)
      (second : Ruled declared right r) (rule : binaryRule text l.type.shape r.type.shape = some type.shape) :
      Ruled declared (.mk .Binary text canonical span (some left) (some right) c elements)
        (.mk type (some l) (some r) none)
  | conditional (text canonical : String) (span : SourceSpan) (left right condition : Expression)
      (elements : List Expression) (type : CheckedType) (l r c : Annotation) (first : Ruled declared left l)
      (second : Ruled declared right r) (test : Ruled declared condition c) (isBoolean : c.type.shape = boolean)
      (left_agrees : type.shape.agrees l.type.shape) (right_agrees : type.shape.agrees r.type.shape) :
      Ruled declared (.mk .Conditional text canonical span (some left) (some right) (some condition) elements)
        (.mk type (some l) (some r) (some c))

/-! ### Values -/

/-- A value with its kind: the elements of a vector, or a scalar. -/
structure Value (α : Type) where
  kind : ScalarType
  scalar : α
  elements : Option (List α)

/-- The value is of the shape. -/
structure Value.HasShape (v : Value α) (s : Shape) : Prop where
  kind : sameKind v.kind s.kind
  elements : v.elements.map List.length = s.elements

theorem Value.HasShape.of_agrees (v : Value α) (s t : Shape) (shape : v.HasShape s) (agrees : t.agrees s) :
    v.HasShape t := by
  rw [Shape.agrees, Bool.and_eq_true, beq_iff_eq] at agrees
  have kinds := agrees.1
  have kind := shape.kind
  unfold sameKind at kinds kind
  rw [beq_iff_eq] at kinds kind
  exact ⟨beq_iff_eq.mpr (kind.trans kinds.symm), shape.elements.trans agrees.2.symm⟩

/-- What literals stand for and what the operators of the packages compute. -/
structure Operations (α : Type) where
  literal : String → α
  truth : α → Bool
  invert : α → α
  logical : String → α → α → α
  unaryElement : String → List α → Nat → α
  binaryElement : String → Value α → Value α → Nat → α
  compare : String → Value α → Value α → α

section evaluation
variable (ops : Operations α)

def applyUnary (text : String) (v : Value α) : Option (Value α) :=
  if text = "not" ∧ (v.kind.isLogicalType ∨ v.kind.isNumericVectorType) then
    some { v with scalar := ops.invert v.scalar, elements := v.elements.map (List.map ops.invert) }
  else if (text = "-" ∨ text = "abs") ∧ v.kind = .Signed then
    some { v with elements := v.elements.map (fun a => (List.range a.length).map (ops.unaryElement text a)) }
  else none

/-- Elementwise operators take operands of one kind and one length. -/
def applyLogical (text : String) (v w : Value α) : Option (Value α) :=
  if (v.kind.isLogicalType ∨ v.kind.isNumericVectorType) ∧ v.kind = w.kind ∧
      v.elements.map List.length = w.elements.map List.length then
    some ⟨v.kind, ops.logical text v.scalar w.scalar,
      v.elements.map (fun a => List.zipWith (ops.logical text) a (w.elements.getD []))⟩
  else none

/-- The kind and the number of elements of a numeric result, where the operands go together. -/
def numericElements (text : String) (v w : Value α) : Option (ScalarType × Nat) :=
  if v.kind.isNumericVectorType ∧ v.kind = w.kind then
    match v.elements, w.elements with
    | some a, some b => some (v.kind, pairElements text a.length b.length)
    | _, _ => none
  else if v.kind.isNumericVectorType ∧ w.kind.isInteger then
    v.elements.map (fun a => (v.kind, mixedElements text a.length))
  else if w.kind.isNumericVectorType ∧ v.kind.isInteger then
    w.elements.map (fun b => (w.kind, mixedElements text b.length))
  else none

/-- Values of one kind, with one number of elements. -/
def comparable (v w : Value α) : Bool :=
  v.kind ≠ .Unknown && sameKind v.kind w.kind && v.elements.map List.length == w.elements.map List.length

def applyBinary (text : String) (v w : Value α) : Option (Value α) :=
  if isLogical text then applyLogical ops text v w
  else if isEquality text then
    if (numericElements text v w).isSome ∨ comparable v w then some ⟨.Boolean, ops.compare text v w, none⟩ else none
  else if isRelational text then
    if (numericElements text v w).isSome then some ⟨.Boolean, ops.compare text v w, none⟩ else none
  else if isAdding text ∨ text = "*" ∨ isDividing text then
    (numericElements text v w).map (fun (kind, n) =>
      ⟨kind, ops.literal text, some ((List.range n).map (ops.binaryElement text v w))⟩)
  else none

/-- The value of an expression; nothing where operands do not go together. A literal has the kind that
is recorded for it. -/
def evaluate (env : String → Option (Value α)) : Expression → Annotation → Option (Value α)
  | .mk .Name text canonical _ _ _ _ _, _ => env (if canonical.isEmpty then text else canonical)
  | .mk .IntegerLiteral text _ _ _ _ _ _, _ => some ⟨.Integer, ops.literal text, none⟩
  | .mk .RealLiteral text _ _ _ _ _ _, _ => some ⟨.Real, ops.literal text, none⟩
  | .mk .StringLiteral text _ _ _ _ _ _, _ => some ⟨.String, ops.literal text, none⟩
  | .mk .CharacterLiteral text _ _ _ _ _ _, .mk type _ _ _ =>
      if type.kind = .Bit ∨ type.kind = .StdLogic then some ⟨type.kind, ops.literal text, none⟩ else none
  | .mk .Unary text _ _ (some left) _ _ _, .mk _ (some l) _ _ => do
      let v ← evaluate env left l
      applyUnary ops text v
  | .mk .Binary text _ _ (some left) (some right) _ _, .mk _ (some l) (some r) _ => do
      let v ← evaluate env left l
      let w ← evaluate env right r
      applyBinary ops text v w
  | .mk .Conditional _ _ _ (some left) (some right) (some condition) _, .mk _ (some l) (some r) (some c) => do
      let test ← evaluate env condition c
      if test.kind = .Boolean then
        if ops.truth test.scalar then evaluate env left l else evaluate env right r
      else none
  | _, _ => none

omit ops in
theorem sameKind_eq (a b : ScalarType) (same : sameKind a b) (other : ¬ b.isInteger) : a = b := by
  revert same other
  cases a <;> cases b <;> decide

omit ops in
theorem sameKind_symm (a b : ScalarType) : sameKind a b = sameKind b a := Bool.beq_comm

omit ops in
theorem isInteger_of_sameKind (a b : ScalarType) (same : sameKind a b) (whole : b.isInteger) : a.isInteger := by
  revert same whole
  cases a <;> cases b <;> decide

omit ops in
theorem not_isInteger (kind : ScalarType) (kinds : kind.isLogicalType ∨ kind.isNumericVectorType) :
    ¬ kind.isInteger := by
  revert kinds
  cases kind <;> decide

theorem applyUnary_hasShape (text : String) (v : Value α) (s t : Shape) (shape : v.HasShape s)
    (rule : unaryRule text s = some t) : ∃ w, applyUnary ops text v = some w ∧ w.HasShape t := by
  unfold unaryRule at rule
  unfold applyUnary
  split at rule
  · next inverted =>
      obtain rfl := Option.some.inj rule
      have same := sameKind_eq v.kind s.kind shape.kind (not_isInteger s.kind inverted.2)
      refine ⟨_, if_pos (same ▸ inverted), shape.kind, ?_⟩
      rw [← shape.elements, Option.map_map]
      congr 1
      funext a
      exact List.length_map ..
  · next other =>
      split at rule
      · next signed =>
          obtain rfl := Option.some.inj rule
          have same := sameKind_eq v.kind s.kind shape.kind (by rw [signed.2]; decide)
          refine ⟨_, (if_neg (same ▸ other)).trans (if_pos (same ▸ signed)), shape.kind, ?_⟩
          rw [← shape.elements, Option.map_map]
          congr 1
          funext a
          simp
      · nomatch rule

theorem applyLogical_hasShape (text : String) (v w : Value α) (s : Shape) (left : v.HasShape s) (right : w.HasShape s)
    (kinds : s.kind.isLogicalType ∨ s.kind.isNumericVectorType) :
    ∃ x, applyLogical ops text v w = some x ∧ x.HasShape s := by
  have sameV := sameKind_eq v.kind s.kind left.kind (not_isInteger s.kind kinds)
  have sameW := sameKind_eq w.kind s.kind right.kind (not_isInteger s.kind kinds)
  have lengths := left.elements.trans right.elements.symm
  refine ⟨_, if_pos ⟨sameV ▸ kinds, sameV.trans sameW.symm, lengths⟩, left.kind, ?_⟩
  rw [← left.elements]
  cases first : v.elements with
  | none => rfl
  | some a =>
      cases second : w.elements with
      | none =>
          rw [first, second] at lengths
          nomatch lengths
      | some b =>
          rw [first, second, Option.map_some, Option.map_some, Option.some.injEq] at lengths
          simp [lengths]

omit ops in
theorem numericElements_pair (text : String) (v w : Value α) (l r : Shape) (left : v.HasShape l) (right : w.HasShape r)
    (m n : Nat) (rule : numericPair l r = some (m, n)) :
    numericElements text v w = some (l.kind, pairElements text m n) := by
  unfold numericPair at rule
  split at rule
  · next numeric =>
      have whole := not_isInteger l.kind (Or.inr numeric.1)
      have sameV := sameKind_eq v.kind l.kind left.kind whole
      have sameW := sameKind_eq w.kind r.kind right.kind (numeric.2 ▸ whole)
      split at rule
      · next first second =>
          obtain ⟨rfl, rfl⟩ := Prod.mk.inj (Option.some.inj rule)
          obtain ⟨a, atV, rfl⟩ := Option.map_eq_some_iff.mp (left.elements.trans first)
          obtain ⟨b, atW, rfl⟩ := Option.map_eq_some_iff.mp (right.elements.trans second)
          unfold numericElements
          rw [if_pos ⟨sameV ▸ numeric.1, by rw [sameV, sameW, numeric.2]⟩, atV, atW, sameV]
      · nomatch rule
  · nomatch rule

omit ops in
theorem goesWith_numeric (vector scalar : ScalarType) (goes : goesWith vector scalar) :
    vector.isNumericVectorType ∧ scalar.isInteger := by
  revert goes
  cases vector <;> cases scalar <;> decide

omit ops in
theorem numericElements_mixed (text : String) (v w : Value α) (l r t : Shape) (left : v.HasShape l)
    (right : w.HasShape r) (rule : numericMixed l r = some t) :
    ∃ n, t.elements = some n ∧ numericElements text v w = some (t.kind, mixedElements text n) := by
  unfold numericMixed at rule
  have apart (kind other : ScalarType) (numeric : kind.isNumericVectorType) (whole : other.isInteger) :
      ¬ kind = other := by
    rintro rfl
    exact not_isInteger kind (Or.inr numeric) whole
  split at rule
  · next goes =>
      obtain rfl := Option.some.inj rule
      obtain ⟨numeric, whole⟩ := goesWith_numeric _ _ goes.1
      have sameV := sameKind_eq v.kind l.kind left.kind (not_isInteger l.kind (Or.inr numeric))
      have wholeW := isInteger_of_sameKind w.kind r.kind right.kind whole
      obtain ⟨n, known⟩ := Option.isSome_iff_exists.mp goes.2
      obtain ⟨a, atV, rfl⟩ := Option.map_eq_some_iff.mp (left.elements.trans known)
      refine ⟨a.length, known, ?_⟩
      unfold numericElements
      rw [if_neg (fun both => apart v.kind w.kind (sameV ▸ numeric) wholeW both.2),
        if_pos ⟨sameV ▸ numeric, wholeW⟩, atV, sameV]
      rfl
  · split at rule
    · next goes =>
        obtain rfl := Option.some.inj rule
        obtain ⟨numeric, whole⟩ := goesWith_numeric _ _ goes.1
        have sameW := sameKind_eq w.kind r.kind right.kind (not_isInteger r.kind (Or.inr numeric))
        have wholeV := isInteger_of_sameKind v.kind l.kind left.kind whole
        obtain ⟨n, known⟩ := Option.isSome_iff_exists.mp goes.2
        obtain ⟨b, atW, rfl⟩ := Option.map_eq_some_iff.mp (right.elements.trans known)
        refine ⟨b.length, known, ?_⟩
        have notNumeric : ¬ v.kind.isNumericVectorType := by
          intro numericV
          exact not_isInteger v.kind (Or.inr numericV) wholeV
        unfold numericElements
        rw [if_neg (fun both => notNumeric both.1), if_neg (fun both => notNumeric both.1),
          if_pos ⟨sameW ▸ numeric, wholeV⟩, atW, sameW]
        rfl
    · nomatch rule

omit ops in
/-- Operands of a numeric operator go together where the rule has a result. -/
theorem numericElements_isSome (text : String) (v w : Value α) (l r : Shape) (left : v.HasShape l)
    (right : w.HasShape r) (rule : (numericPair l r).isSome ∨ (numericMixed l r).isSome) :
    (numericElements text v w).isSome := by
  rcases rule with pair | mixed
  · obtain ⟨⟨m, n⟩, found⟩ := Option.isSome_iff_exists.mp pair
    rw [numericElements_pair text v w l r left right m n found]
    rfl
  · obtain ⟨t, found⟩ := Option.isSome_iff_exists.mp mixed
    obtain ⟨n, -, same⟩ := numericElements_mixed text v w l r t left right found
    rw [same]
    rfl

omit ops in
theorem comparable_of_agrees (v w : Value α) (l r : Shape) (left : v.HasShape l) (right : w.HasShape r)
    (known : l.kind ≠ .Unknown) (agrees : l.agrees r) : comparable v w := by
  rw [Shape.agrees, Bool.and_eq_true, beq_iff_eq] at agrees
  have kinds : sameKind v.kind w.kind := by
    have first := left.kind
    have second := right.kind
    have third := agrees.1
    unfold sameKind at first second third ⊢
    rw [beq_iff_eq] at first second third ⊢
    exact first.trans (third.trans second.symm)
  have knownV : v.kind ≠ .Unknown := by
    intro unknown
    have same := left.kind
    rw [unknown] at same
    revert same known
    cases l.kind <;> decide
  have lengths := left.elements.trans (agrees.2.trans right.elements.symm)
  simp [comparable, knownV, kinds, lengths]

theorem applyBinary_hasShape (text : String) (v w : Value α) (l r t : Shape) (left : v.HasShape l)
    (right : w.HasShape r) (rule : binaryRule text l r = some t) :
    ∃ x, applyBinary ops text v w = some x ∧ x.HasShape t := by
  unfold binaryRule at rule
  unfold applyBinary
  split at rule
  · next logical =>
      rw [if_pos logical]
      split at rule
      · next fits =>
          obtain rfl := Option.some.inj rule
          exact applyLogical_hasShape ops text v w l left (fits.2 ▸ right) fits.1
      · nomatch rule
  · next logical =>
      rw [if_neg logical]
      split at rule
      · next equality =>
          rw [if_pos equality]
          split at rule
          · next fits =>
              obtain rfl := Option.some.inj rule
              refine ⟨_, if_pos ?_, rfl, rfl⟩
              rcases fits with pair | mixed | agrees
              · exact Or.inl (numericElements_isSome text v w l r left right (Or.inl pair))
              · exact Or.inl (numericElements_isSome text v w l r left right (Or.inr mixed))
              · exact Or.inr (comparable_of_agrees v w l r left right agrees.1 agrees.2)
          · nomatch rule
      · next equality =>
          rw [if_neg equality]
          split at rule
          · next relational =>
              rw [if_pos relational]
              split at rule
              · next fits =>
                  obtain rfl := Option.some.inj rule
                  exact ⟨_, if_pos (numericElements_isSome text v w l r left right fits), rfl, rfl⟩
              · nomatch rule
          · next relational =>
              rw [if_neg relational]
              split at rule
              · next arithmetic =>
                  rw [if_pos arithmetic]
                  split at rule
                  · next m n found =>
                      obtain rfl := Option.some.inj rule
                      rw [numericElements_pair text v w l r left right m n found]
                      refine ⟨_, rfl, beq_self_eq_true _, ?_⟩
                      simp
                  · obtain ⟨vector, found, rfl⟩ := Option.map_eq_some_iff.mp rule
                    obtain ⟨n, known, same⟩ := numericElements_mixed text v w l r vector left right found
                    rw [same]
                    refine ⟨_, rfl, beq_self_eq_true _, ?_⟩
                    simp [known]
              · nomatch rule

/-- An expression whose recorded types follow the rules has a value of its recorded type. -/
theorem evaluate_ruled (declared : String → Option Shape) (env : String → Option (Value α))
    (typed : ∀ name s, declared name = some s → ∃ v, env name = some v ∧ v.HasShape s) (e : Expression)
    ( annotation : Annotation) (ruled : Ruled declared e annotation) :
    ∃ v, evaluate ops env e annotation = some v ∧ v.HasShape annotation.type.shape := by
  induction ruled with
  | name text canonical span l r c elements type found => exact typed _ _ found
  | integer text canonical span l r c elements kind whole =>
      have same : sameKind .Integer kind := by
        revert whole
        cases kind <;> decide
      exact ⟨_, rfl, same, rfl⟩
  | real text canonical span l r c elements => exact ⟨_, rfl, rfl, rfl⟩
  | string text canonical span l r c elements => exact ⟨_, rfl, rfl, rfl⟩
  | character text canonical span l r c elements kind logic =>
      exact ⟨_, if_pos logic, beq_self_eq_true _, rfl⟩
  | unary text canonical span left r c elements type operand inside rule ih =>
      obtain ⟨v, value, shape⟩ := ih
      obtain ⟨w, result, shape'⟩ := applyUnary_hasShape ops text v _ _ shape rule
      refine ⟨w, ?_, shape'⟩
      unfold evaluate
      rw [value]
      exact result
  | binary text canonical span left right c elements type l r first second rule ihLeft ihRight =>
      obtain ⟨v, valueV, shapeV⟩ := ihLeft
      obtain ⟨w, valueW, shapeW⟩ := ihRight
      obtain ⟨x, result, shape⟩ := applyBinary_hasShape ops text v w _ _ _ shapeV shapeW rule
      refine ⟨x, ?_, shape⟩
      unfold evaluate
      rw [valueV, valueW]
      exact result
  | conditional text canonical span left right condition elements type l r c first second test isBoolean left_agrees
      right_agrees ihLeft ihRight ihTest =>
      obtain ⟨v, valueV, shapeV⟩ := ihLeft
      obtain ⟨w, valueW, shapeW⟩ := ihRight
      obtain ⟨b, valueB, shapeB⟩ := ihTest
      have isTrue : b.kind = .Boolean := by
        have same := shapeB.kind
        rw [isBoolean] at same
        exact sameKind_eq _ _ same (by decide)
      unfold evaluate
      rw [valueB]
      simp only [isTrue, if_true, Option.bind_eq_bind, Option.bind_some]
      split
      · exact ⟨v, valueV, shapeV.of_agrees v _ _ left_agrees⟩
      · exact ⟨w, valueW, shapeW.of_agrees w _ _ right_agrees⟩

end evaluation

end Naja.Vhdl
