import Naja.Vhdl.Shapes

/-! The check of an expression follows the typing rules where the ranges of the
names it reads are resolved and every character literal stands where its context
has a kind. -/

namespace Naja.Vhdl

/-- A type with a range that the width arithmetic can hold; only vectors have one. -/
structure CheckedType.Proper (type : CheckedType) : Prop where
  fits : ∀ range, type.range = some range → range.elements < 2 ^ 64
  scalar : ¬ type.kind.isVector → type.range = none

/-- A type that is known: a vector has its range. -/
structure CheckedType.Known (type : CheckedType) : Prop where
  proper : type.Proper
  vector : type.kind.isVector → type.range.isSome
  kind : type.kind ≠ .Unknown

theorem proper_unknown : CheckedType.unknown.Proper := ⟨fun _ given => (nomatch given), fun _ => rfl⟩

theorem known_scalar (kind : ScalarType) (known : kind ≠ .Unknown) (scalar : ¬ kind.isVector) :
    (CheckedType.mk kind none).Known :=
  ⟨⟨fun _ given => (nomatch given), fun _ => rfl⟩, fun vector => absurd vector scalar, known⟩

theorem toNat_rangeWidth_of_lt (range : DiscreteRange) (fits : range.elements < 2 ^ 64) :
    (rangeWidth range).toNat = range.elements := by
  rw [toNat_rangeWidth, Nat.mod_eq_of_lt fits]

/-- Compatible types of which one is known have one shape, integer and natural apart. -/
theorem agrees_of_compatible (left right : CheckedType) (l : left.Proper) (r : right.Known)
    (given : compatible left right) : left.shape.agrees right.shape := by
  have agrees_eq (a b : Shape) : a.agrees b = (sameKind a.kind b.kind && a.elements == b.elements) := rfl
  unfold compatible at given
  split at given
  · nomatch given
  · split at given
    · next whole =>
        have notVector (kind : ScalarType) (isInteger : kind.isInteger) : ¬ kind.isVector := by
          revert isInteger
          cases kind <;> decide
        have same : sameKind left.kind right.kind := by
          revert whole
          cases left.kind <;> cases right.kind <;> decide
        rw [agrees_eq, CheckedType.shape, CheckedType.shape, l.scalar (notVector _ whole.1),
          r.proper.scalar (notVector _ whole.2)]
        simpa using same
    · split at given
      · nomatch given
      · next kinds =>
          rw [ne_eq, Decidable.not_not] at kinds
          have same : sameKind left.kind right.kind := by rw [kinds]; exact beq_self_eq_true _
          split at given
          · next scalar =>
              rw [agrees_eq, CheckedType.shape, CheckedType.shape, l.scalar scalar, r.proper.scalar (kinds ▸ scalar)]
              simpa using same
          · next vector =>
              rw [Decidable.not_not] at vector
              obtain ⟨range, known⟩ := Option.isSome_iff_exists.mp (r.vector (kinds ▸ vector))
              split at given
              · next a b first second =>
                  have widths := congrArg UInt64.toNat (beq_iff_eq.mp given)
                  rw [toNat_rangeWidth_of_lt a (l.fits a first), toNat_rangeWidth_of_lt b (r.proper.fits b second)]
                    at widths
                  rw [agrees_eq, CheckedType.shape, CheckedType.shape, first, second]
                  simpa [widths] using same
              · next first second =>
                  rw [second] at known
                  nomatch known
              · nomatch given

theorem isVector_of_numeric (kind : ScalarType) (numeric : kind.isNumericVectorType) : kind.isVector := by
  revert numeric
  cases kind <;> decide

/-- The verdict reports nothing, so its type is known and is what a rule gives. -/
structure Verdict.Follows (verdict : Verdict) (rule : Option Shape) : Prop where
  shape : rule = some verdict.type.shape
  known : verdict.type.Known

theorem numericResult_follows (kind : ScalarType) (numeric : kind.isNumericVectorType) (width : UInt64)
    (span : SourceSpan) (exceeds : String) (quiet : (numericResult kind width span exceeds).diagnostics = []) :
    (numericResult kind width span exceeds).Follows (some ⟨kind, some width.toNat⟩) ∧
      (numericResult kind width span exceeds).type.kind = kind := by
  unfold numericResult at quiet ⊢
  split at quiet
  · nomatch quiet
  · next range found =>
      obtain ⟨elements, small⟩ := canonicalRange_elements width span range found
      have unknown : kind ≠ .Unknown := by
        rintro rfl
        exact absurd numeric (by decide)
      refine ⟨⟨?_, ⟨?_, fun scalar => absurd (isVector_of_numeric kind numeric) scalar⟩, fun _ => rfl, unknown⟩, rfl⟩
      · rw [← elements]
        rfl
      · intro range' same
        obtain rfl := Option.some.inj same
        omega

theorem numericUnary_follows (name vectors : String) (span : SourceSpan) (visibility : Visibility)
    (operand : CheckedType) (numeric : operand.kind.isNumericVectorType) (known : operand.Known)
    (quiet : (numericUnary name vectors span visibility operand).diagnostics = []) :
    (numericUnary name vectors span visibility operand).Follows (some operand.shape) ∧
      (numericUnary name vectors span visibility operand).type.kind = operand.kind := by
  unfold numericUnary at quiet ⊢
  split at quiet
  · nomatch quiet
  · next visible =>
      rw [if_neg visible]
      split at quiet
      · nomatch quiet
      · next range found =>
          split at quiet
          · nomatch quiet
          · next nonzero =>
              rw [if_neg nonzero]
              have result := numericResult_follows operand.kind numeric _ span _ quiet
              rw [toNat_rangeWidth_of_lt range (known.proper.fits range found)] at result
              have shape : operand.shape = ⟨operand.kind, some range.elements⟩ := by
                rw [CheckedType.shape, found]
                rfl
              rw [shape]
              exact result

theorem checkUnary_follows (text : String) (span : SourceSpan) (visibility : Visibility) (operand : CheckedType)
    (known : operand.Known) (quiet : (checkUnary text span visibility operand).diagnostics = []) :
    (checkUnary text span visibility operand).Follows (unaryRule text operand.shape) ∧
      (checkUnary text span visibility operand).type.kind = operand.kind := by
  unfold checkUnary at quiet ⊢
  unfold unaryRule
  have kind_shape : operand.shape.kind = operand.kind := rfl
  rw [kind_shape]
  split at quiet
  · next logical =>
      rw [if_pos logical, if_pos ⟨logical.1, Or.inl logical.2⟩]
      exact ⟨⟨rfl, known⟩, rfl⟩
  · next logical =>
      rw [if_neg logical]
      split at quiet
      · next numeric =>
          rw [if_pos numeric, if_pos ⟨numeric.1, Or.inr numeric.2⟩]
          exact numericUnary_follows _ _ span visibility operand numeric.2 known quiet
      · next numeric =>
          rw [if_neg numeric]
          split at quiet
          · next signed =>
              have none : ¬ (text = "not" ∧ (operand.kind.isLogicalType ∨ operand.kind.isNumericVectorType)) := by
                rintro ⟨rfl, -⟩
                exact absurd signed.1 (by decide)
              rw [if_pos signed, if_neg none, if_pos signed]
              exact numericUnary_follows _ _ span visibility operand (by rw [signed.2]; decide) known quiet
          · split at quiet
            · next unknown => exact absurd unknown known.kind
            · nomatch quiet

/-- The types of the operands as they are recorded in the end. -/
def recordTypes (natural : Bool) (left right : CheckedType) : CheckedType × CheckedType :=
  if natural then
    if left.kind.isNumericVectorType then (left, { right with kind := .Natural })
    else ({ left with kind := .Natural }, right)
  else (left, right)

theorem recordOperands_types (verdict : Verdict) (left right : Annotation) :
    ((recordOperands verdict left right).1.type, (recordOperands verdict left right).2.type) =
      recordTypes verdict.naturalOperand left.type right.type := by
  have kept (a : Annotation) : a.asNatural.type = { a.type with kind := .Natural } := by
    cases a
    rfl
  unfold recordOperands recordTypes
  split
  · split
    · rw [kept]
    · rw [kept]
  · rfl

theorem sameVectors_spec (left right : CheckedType) (l r : DiscreteRange)
    (given : sameVectors left right = some (l, r)) :
    left.kind.isNumericVectorType ∧ left.range = some l ∧ right.range = some r ∧
      numericPair left.shape right.shape = some (l.elements, r.elements) := by
  unfold sameVectors at given
  split at given
  · next numeric =>
      split at given
      · next a b first second =>
          obtain ⟨rfl, rfl⟩ := Prod.mk.inj (Option.some.inj given)
          refine ⟨numeric.1, first, second, ?_⟩
          unfold numericPair CheckedType.shape
          rw [if_pos numeric, first, second]
          rfl
      · nomatch given
  · nomatch given

/-- A scalar that may stand beside a vector goes with it as it is recorded. -/
theorem scalar_goesWith (vector scalar : ScalarType) (literal : Bool) (numeric : vector.isNumericVectorType)
    (valid : validScalar vector scalar literal) :
    goesWith vector (if vector == .Unsigned && literal then .Natural else scalar) := by
  revert numeric valid
  cases vector <;> cases scalar <;> cases literal <;> decide

theorem numericMixed_left (vector scalar : Shape) (n : Nat) (goes : goesWith vector.kind scalar.kind)
    (known : vector.elements = some n) :
    numericPair vector scalar = none ∧ numericMixed vector scalar = some ⟨vector.kind, some n⟩ := by
  have apart : ¬ (vector.kind.isNumericVectorType ∧ vector.kind = scalar.kind) := by
    revert goes
    cases vector.kind <;> cases scalar.kind <;> decide
  refine ⟨if_neg apart, (if_pos ⟨goes, known ▸ rfl⟩).trans ?_⟩
  rw [← known]

theorem numericMixed_right (scalar vector : Shape) (n : Nat) (goes : goesWith vector.kind scalar.kind)
    (known : vector.elements = some n) :
    numericPair scalar vector = none ∧ numericMixed scalar vector = some ⟨vector.kind, some n⟩ := by
  have apart : ¬ (scalar.kind.isNumericVectorType ∧ scalar.kind = vector.kind) := by
    revert goes
    cases vector.kind <;> cases scalar.kind <;> decide
  have first : ¬ (goesWith scalar.kind vector.kind ∧ scalar.elements.isSome) := by
    revert goes
    cases vector.kind <;> cases scalar.kind <;> simp [goesWith, ScalarType.isInteger]
  refine ⟨if_neg apart, (if_neg first).trans ((if_pos ⟨goes, known ▸ rfl⟩).trans ?_)⟩
  rw [← known]

theorem besideVector_spec (vector scalar : CheckedType) (literal : Bool) (kind : ScalarType) (range : DiscreteRange)
    (natural : Bool) (numeric : vector.kind.isNumericVectorType)
    (given : besideVector vector scalar literal = some (kind, range, natural)) :
    kind = vector.kind ∧ vector.range = some range ∧ (natural → literal) ∧
      goesWith vector.kind (if natural then .Natural else scalar.kind) := by
  unfold besideVector at given
  split at given
  · next valid =>
      obtain ⟨r, atRange, same⟩ := Option.map_eq_some_iff.mp given
      obtain ⟨rfl, further⟩ := Prod.mk.inj same
      obtain ⟨rfl, rfl⟩ := Prod.mk.inj further
      refine ⟨rfl, atRange, ?_, scalar_goesWith _ _ literal numeric valid⟩
      exact fun both => (Bool.and_eq_true_iff.mp both).2
  · nomatch given

/-- A vector and a scalar beside it, as they are recorded in the end. -/
theorem vectorWithScalar_spec (leftLiteral rightLiteral : Bool) (left right : CheckedType) (kind : ScalarType)
    (range : DiscreteRange) (natural : Bool)
    (given : vectorWithScalar leftLiteral rightLiteral left right = some (kind, range, natural)) :
    kind = (if left.kind.isNumericVectorType then left.kind else right.kind) ∧ kind.isNumericVectorType ∧
    (if left.kind.isNumericVectorType then left.range else right.range) = some range ∧
    (natural → if left.kind.isNumericVectorType then rightLiteral else leftLiteral) ∧
    numericPair (recordTypes natural left right).1.shape (recordTypes natural left right).2.shape = none ∧
    numericMixed (recordTypes natural left right).1.shape (recordTypes natural left right).2.shape =
      some ⟨kind, some range.elements⟩ := by
  unfold vectorWithScalar at given
  split at given
  · nomatch given
  · next apart =>
      unfold recordTypes
      split at given
      · next numeric =>
          obtain ⟨rfl, atRange, isLiteral, goes⟩ := besideVector_spec _ _ _ _ _ _ numeric given
          refine ⟨(if_pos numeric).symm, numeric, (if_pos numeric).trans atRange,
            fun given => (if_pos numeric).symm ▸ isLiteral given, ?_⟩
          rw [if_pos numeric]
          have known : left.shape.elements = some range.elements := by
            rw [CheckedType.shape, atRange]
            rfl
          cases natural with
          | true => exact numericMixed_left left.shape (CheckedType.mk .Natural right.range).shape _ goes known
          | false => exact numericMixed_left left.shape right.shape _ goes known
      · next numeric =>
          have other : right.kind.isNumericVectorType := by
            revert apart numeric
            cases left.kind.isNumericVectorType <;> cases right.kind.isNumericVectorType <;> decide
          obtain ⟨rfl, atRange, isLiteral, goes⟩ := besideVector_spec _ _ _ _ _ _ other given
          refine ⟨(if_neg numeric).symm, other, (if_neg numeric).trans atRange,
            fun given => (if_neg numeric).symm ▸ isLiteral given, ?_⟩
          rw [if_neg numeric]
          have known : right.shape.elements = some range.elements := by
            rw [CheckedType.shape, atRange]
            rfl
          cases natural with
          | true => exact numericMixed_right (CheckedType.mk .Natural left.range).shape right.shape _ goes known
          | false => exact numericMixed_right left.shape right.shape _ goes known

/-- The result of an operator on numbers, by the operands as they are recorded. -/
structure Verdict.Numeric (verdict : Verdict) (left right : CheckedType) (leftLiteral rightLiteral : Bool)
    (pairRule : Nat → Nat → Shape) (mixedRule : ScalarType → Nat → Shape) : Prop where
  known : verdict.type.Known
  literal : verdict.naturalOperand → if left.kind.isNumericVectorType then rightLiteral else leftLiteral
  shape : let recorded := recordTypes verdict.naturalOperand left right
    (∃ m n, numericPair recorded.1.shape recorded.2.shape = some (m, n) ∧ verdict.type.shape = pairRule m n) ∨
    (∃ n, numericPair recorded.1.shape recorded.2.shape = none ∧
      numericMixed recorded.1.shape recorded.2.shape =
        some ⟨if left.kind.isNumericVectorType then left.kind else right.kind, some n⟩ ∧
      verdict.type.shape = mixedRule (if left.kind.isNumericVectorType then left.kind else right.kind) n)
  kind : left.kind.isNumericVectorType ∨ right.kind.isNumericVectorType

theorem numericBinary_numeric (text : String) (span : SourceSpan) (leftLiteral rightLiteral : Bool)
    (left right : CheckedType) (l : left.Known) (r : right.Known) (pair : UInt64 → UInt64 → Verdict)
    (mixed : ScalarType → UInt64 → Verdict) (pairRule : Nat → Nat → Shape) (mixedRule : ScalarType → Nat → Shape)
    (pairs : left.kind.isNumericVectorType → ∀ a b, (pair a b).diagnostics = [] →
      (pair a b).Follows (some (pairRule a.toNat b.toNat)) ∧ (pair a b).naturalOperand = false)
    (mixes : ∀ kind, kind.isNumericVectorType → ∀ a, (mixed kind a).diagnostics = [] →
      (mixed kind a).Follows (some (mixedRule kind a.toNat)))
    (quiet : (numericBinary text span leftLiteral rightLiteral left right pair mixed).diagnostics = []) :
    (numericBinary text span leftLiteral rightLiteral left right pair mixed).Numeric left right leftLiteral
      rightLiteral pairRule mixedRule := by
  unfold numericBinary at quiet ⊢
  split at quiet
  · next a b found =>
      obtain ⟨numeric, atLeft, atRight, together⟩ := sameVectors_spec left right a b found
      split at quiet
      · nomatch quiet
      · next nonzero =>
          rw [if_neg nonzero]
          obtain ⟨follows, natural⟩ := pairs numeric _ _ quiet
          rw [toNat_rangeWidth_of_lt a (l.proper.fits a atLeft), toNat_rangeWidth_of_lt b (r.proper.fits b atRight)]
            at follows
          refine ⟨follows.known, fun given => absurd (natural.symm.trans given) Bool.false_ne_true, ?_, Or.inl numeric⟩
          rw [natural]
          exact Or.inl ⟨a.elements, b.elements, together, (Option.some.inj follows.shape).symm⟩
  · split at quiet
    · next kind range natural found =>
        obtain ⟨kind_eq, numeric, atRange, isLiteral, apart, together⟩ :=
          vectorWithScalar_spec leftLiteral rightLiteral left right kind range natural found
        have fits : range.elements < 2 ^ 64 := by
          by_cases first : left.kind.isNumericVectorType
          · exact l.proper.fits range ((if_pos first).symm.trans atRange)
          · exact r.proper.fits range ((if_neg first).symm.trans atRange)
        split at quiet
        · nomatch quiet
        · next nonzero =>
            rw [if_neg nonzero]
            have silent : (mixed kind (rangeWidth range)).diagnostics = [] := quiet
            have follows := mixes kind numeric _ silent
            rw [toNat_rangeWidth_of_lt range fits] at follows
            simp only [silent, List.isEmpty_nil, Bool.and_true]
            refine ⟨follows.known, isLiteral, Or.inr ⟨range.elements, apart, ?_, ?_⟩, ?_⟩
            · rw [← kind_eq]
              exact together
            · rw [← kind_eq]
              exact (Option.some.inj follows.shape).symm
            · by_cases first : left.kind.isNumericVectorType
              · exact Or.inl first
              · rw [if_neg first] at kind_eq
                exact Or.inr (kind_eq ▸ numeric)
    · split at quiet
      · next unknown => exact absurd unknown (not_or.mpr ⟨l.kind, r.kind⟩)
      · nomatch quiet

/-- A quiet check of a binary operator follows the rule for the operands as they are recorded. -/
structure Verdict.Binary (verdict : Verdict) (text : String) (left right : CheckedType)
    (leftLiteral rightLiteral : Bool) : Prop where
  known : verdict.type.Known
  literal : verdict.naturalOperand → if left.kind.isNumericVectorType then rightLiteral else leftLiteral
  rule : binaryRule text (recordTypes verdict.naturalOperand left right).1.shape
    (recordTypes verdict.naturalOperand left right).2.shape = some verdict.type.shape
  kind : verdict.type.kind = if isLogical text then left.kind
    else if isEquality text ∨ isRelational text then .Boolean
    else if left.kind.isNumericVectorType then left.kind else right.kind

theorem numericResult_natural (kind : ScalarType) (width : UInt64) (span : SourceSpan) (exceeds : String) :
    (numericResult kind width span exceeds).naturalOperand = false := by
  unfold numericResult
  split <;> rfl

section binary
variable (text : String) (span : SourceSpan) (visibility : Visibility) (leftLiteral rightLiteral : Bool)
  (left right : CheckedType) (l : left.Known) (r : right.Known)
include l r

theorem checkLogical_binary (logical : isLogical text)
    (quiet : (checkLogical text span visibility left right).diagnostics = []) :
    (checkLogical text span visibility left right).Binary text left right leftLiteral rightLiteral := by
  unfold checkLogical at quiet ⊢
  split at quiet
  · next together =>
      rw [if_pos together]
      have agrees := agrees_of_compatible left right l.proper r together.2
      have same : left.shape = right.shape := by
        rw [Shape.agrees, Bool.and_eq_true, beq_iff_eq] at agrees
        have kinds : right.kind = left.kind :=
          sameKind_eq right.kind left.kind ((sameKind_symm _ _).trans agrees.1) (not_isInteger _ (Or.inl together.1))
        exact Shape.ext kinds.symm agrees.2
      refine ⟨l, fun given => absurd given Bool.false_ne_true, ?_, (if_pos logical).symm⟩
      exact (if_pos logical).trans (if_pos ⟨Or.inl together.1, same⟩)
  · next apart =>
      rw [if_neg apart]
      split at quiet
      · next numeric =>
          rw [if_pos numeric]
          split at quiet
          · cases quiet
          · next visible =>
              rw [if_neg visible]
              split at quiet
              · next a b found =>
                  obtain ⟨isNumeric, atLeft, atRight, -⟩ := sameVectors_spec left right a b found
                  split at quiet
                  · cases quiet
                  · next nonzero =>
                      rw [if_neg nonzero]
                      split at quiet
                      · cases quiet
                      · next widths =>
                          rw [if_neg widths]
                          rw [ne_eq, Decidable.not_not] at widths
                          have elements := congrArg UInt64.toNat widths
                          rw [toNat_rangeWidth_of_lt a (l.proper.fits a atLeft),
                            toNat_rangeWidth_of_lt b (r.proper.fits b atRight)] at elements
                          obtain ⟨follows, kind⟩ := numericResult_follows left.kind isNumeric _ span _ quiet
                          rw [toNat_rangeWidth_of_lt a (l.proper.fits a atLeft)] at follows
                          have kinds : left.kind = right.kind := by
                            unfold sameVectors at found
                            split at found
                            · next both => exact both.2
                            · cases found
                          have shape : left.shape = ⟨left.kind, some a.elements⟩ := by
                            rw [CheckedType.shape, atLeft]
                            rfl
                          have same : left.shape = right.shape := by
                            rw [shape, CheckedType.shape, atRight, kinds, elements]
                            rfl
                          refine ⟨follows.known, ?_, ?_, kind.trans (if_pos logical).symm⟩
                          · rw [numericResult_natural]
                            exact fun given => absurd given Bool.false_ne_true
                          · rw [numericResult_natural, ← follows.shape, ← shape]
                            exact (if_pos logical).trans (if_pos ⟨Or.inr isNumeric, same⟩)
              · split at quiet
                · next unknown => exact absurd unknown (not_or.mpr ⟨l.kind, r.kind⟩)
                · cases quiet
      · split at quiet
        · next unknown => exact absurd unknown (not_or.mpr ⟨l.kind, r.kind⟩)
        · cases quiet

omit l r in
theorem Verdict.Numeric.comparison (verdict : Verdict)
    (numeric : verdict.Numeric left right leftLiteral rightLiteral (fun _ _ => boolean) (fun _ _ => boolean))
    (other : ¬ isLogical text) (compares : isEquality text ∨ isRelational text) :
    verdict.Binary text left right leftLiteral rightLiteral := by
  have shape : verdict.type.shape = boolean := by
    rcases numeric.shape with ⟨m, n, -, same⟩ | ⟨n, -, -, same⟩
    · exact same
    · exact same
  have together : (numericPair (recordTypes verdict.naturalOperand left right).1.shape
      (recordTypes verdict.naturalOperand left right).2.shape).isSome ∨
      (numericMixed (recordTypes verdict.naturalOperand left right).1.shape
        (recordTypes verdict.naturalOperand left right).2.shape).isSome := by
    rcases numeric.shape with ⟨m, n, found, -⟩ | ⟨n, -, found, -⟩
    · exact Or.inl (found ▸ rfl)
    · exact Or.inr (found ▸ rfl)
  refine ⟨numeric.known, numeric.literal, ?_, ?_⟩
  · unfold binaryRule
    rw [if_neg other, shape]
    by_cases equality : isEquality text
    · rw [if_pos equality, if_pos (together.elim Or.inl (fun mixed => Or.inr (Or.inl mixed)))]
    · rw [if_neg equality, if_pos (compares.resolve_left equality), if_pos together]
  · rw [if_neg other, if_pos compares]
    exact congrArg Shape.kind shape

omit l r in
theorem Verdict.Numeric.arithmetic (verdict : Verdict)
    (numeric : verdict.Numeric left right leftLiteral rightLiteral
      (fun m n => ⟨left.kind, some (pairElements text m n)⟩) (fun kind n => ⟨kind, some (mixedElements text n)⟩))
    (other : ¬ isLogical text) (compares : ¬ (isEquality text ∨ isRelational text))
    (computes : isAdding text ∨ text = "*" ∨ isDividing text) :
    verdict.Binary text left right leftLiteral rightLiteral := by
  obtain ⟨equality, relational⟩ := not_or.mp compares
  have first (m n : Nat) (found : numericPair (recordTypes verdict.naturalOperand left right).1.shape
      (recordTypes verdict.naturalOperand left right).2.shape = some (m, n)) :
      left.kind.isNumericVectorType ∧ (recordTypes verdict.naturalOperand left right).1 = left := by
    unfold numericPair at found
    split at found
    · next kinds =>
        have kind := kinds.1
        unfold recordTypes at kind ⊢
        split
        · split
          · next isNumeric => exact ⟨isNumeric, rfl⟩
          · next natural notNumeric =>
              rw [if_pos natural, if_neg notNumeric] at kind
              exact absurd (show ScalarType.Natural.isNumericVectorType = true from kind) (by decide)
        · next natural =>
            rw [if_neg natural] at kind
            exact ⟨kind, rfl⟩
    · nomatch found
  refine ⟨numeric.known, numeric.literal, ?_, ?_⟩
  · unfold binaryRule
    rw [if_neg other, if_neg equality, if_neg relational, if_pos computes]
    rcases numeric.shape with ⟨m, n, found, shape⟩ | ⟨n, apart, found, shape⟩
    · rw [found, shape, (first m n found).2]
      rfl
    · rw [apart, found, shape]
      rfl
  · rw [if_neg other, if_neg compares]
    rcases numeric.shape with ⟨m, n, found, shape⟩ | ⟨n, apart, found, shape⟩
    · rw [if_pos (first m n found).1]
      exact congrArg Shape.kind shape
    · exact congrArg Shape.kind shape

theorem checkNumeric_numeric (scalars : String) (pair : UInt64 → UInt64 → Verdict)
    (mixed : ScalarType → UInt64 → Verdict) (pairRule : Nat → Nat → Shape) (mixedRule : ScalarType → Nat → Shape)
    (pairs : left.kind.isNumericVectorType → ∀ a b, (pair a b).diagnostics = [] →
      (pair a b).Follows (some (pairRule a.toNat b.toNat)) ∧ (pair a b).naturalOperand = false)
    (mixes : ∀ kind, kind.isNumericVectorType → ∀ a, (mixed kind a).diagnostics = [] →
      (mixed kind a).Follows (some (mixedRule kind a.toNat)))
    (quiet : (checkNumeric text span visibility scalars leftLiteral rightLiteral left right pair mixed).diagnostics =
      []) :
    (checkNumeric text span visibility scalars leftLiteral rightLiteral left right pair mixed).Numeric left right
      leftLiteral rightLiteral pairRule mixedRule := by
  unfold checkNumeric at quiet ⊢
  split at quiet
  · split at quiet
    · next unknown => exact absurd unknown (not_or.mpr ⟨l.kind, r.kind⟩)
    · nomatch quiet
  · next numeric =>
      rw [if_neg numeric]
      split at quiet
      · nomatch quiet
      · next visible =>
          rw [if_neg visible]
          exact numericBinary_numeric text span leftLiteral rightLiteral left right l r pair mixed pairRule mixedRule
            pairs mixes quiet

omit l r in
theorem accept_boolean_follows : (Verdict.accept ⟨.Boolean, none⟩).Follows (some boolean) :=
  ⟨rfl, known_scalar .Boolean (by decide) (by decide)⟩

theorem checkEquality_binary (other : ¬ isLogical text) (equality : isEquality text)
    (quiet : (checkEquality text span visibility leftLiteral rightLiteral left right).diagnostics = []) :
    (checkEquality text span visibility leftLiteral rightLiteral left right).Binary text left right leftLiteral
      rightLiteral := by
  unfold checkEquality at quiet ⊢
  split at quiet
  · next numeric =>
      rw [if_pos numeric]
      split at quiet
      · nomatch quiet
      · next visible =>
          rw [if_neg visible]
          refine Verdict.Numeric.comparison text leftLiteral rightLiteral left right _ ?_ other (Or.inl equality)
          exact numericBinary_numeric text span leftLiteral rightLiteral left right l r _ _ _ _
            (fun _ _ _ _ => ⟨accept_boolean_follows, rfl⟩) (fun _ _ _ _ => accept_boolean_follows) quiet
  · next numeric =>
      rw [if_neg numeric]
      split at quiet
      · next together =>
          rw [if_pos together]
          have agrees := agrees_of_compatible left right l.proper r together
          refine ⟨accept_boolean_follows.known, fun given => (nomatch given), ?_, ?_⟩
          · unfold binaryRule
            rw [if_neg other, if_pos equality]
            exact if_pos (Or.inr (Or.inr ⟨l.kind, agrees⟩))
          · rw [if_neg other, if_pos (Or.inl equality)]
            rfl
      · split at quiet
        · next unknown => exact absurd unknown (not_or.mpr ⟨l.kind, r.kind⟩)
        · nomatch quiet

omit l r in
/-- The sum of two widths that passed the test. -/
theorem toNat_add_of_test (a b : UInt64) (test : ¬ (b > maxResultWidth ∨ a > maxResultWidth - b)) :
    (a + b).toNat = a.toNat + b.toNat := by
  have limit : maxResultWidth.toNat = 2 ^ 63 := by decide +kernel
  obtain ⟨first, second⟩ := not_or.mp test
  rw [gt_iff_lt, UInt64.lt_iff_toNat_lt, Nat.not_lt, limit] at first
  rw [gt_iff_lt, UInt64.lt_iff_toNat_lt, Nat.not_lt, UInt64.toNat_sub_of_le _ _ (UInt64.le_iff_toNat_le.mpr
    (by rw [limit]; exact first)), limit] at second
  rw [UInt64.toNat_add, Nat.mod_eq_of_lt (by omega)]

omit l r in
theorem toNat_double_of_test (a : UInt64) (test : ¬ a > maxResultWidth / 2) : (a * 2).toNat = 2 * a.toNat := by
  have limit : (maxResultWidth / 2).toNat = 2 ^ 62 := by decide +kernel
  have two : (2 : UInt64).toNat = 2 := rfl
  rw [gt_iff_lt, UInt64.lt_iff_toNat_lt, Nat.not_lt, limit] at test
  rw [UInt64.toNat_mul, two, Nat.mod_eq_of_lt (by omega), Nat.mul_comm]

omit l r in
theorem toNat_max (a b : UInt64) : (max a b).toNat = max a.toNat b.toNat := by
  show (if a ≤ b then b else a).toNat = max a.toNat b.toNat
  split
  · next order => exact (max_eq_right (UInt64.le_iff_toNat_le.mp order)).symm
  · next order =>
      rw [UInt64.le_iff_toNat_le] at order
      exact (max_eq_left (by omega)).symm

theorem checkBinary_binary
    (quiet : (checkBinary text span visibility leftLiteral rightLiteral left right).diagnostics = []) :
    (checkBinary text span visibility leftLiteral rightLiteral left right).Binary text left right leftLiteral
      rightLiteral := by
  unfold checkBinary at quiet ⊢
  split at quiet
  · next logical =>
      rw [if_pos logical]
      exact checkLogical_binary text span visibility leftLiteral rightLiteral left right l r logical quiet
  · next logical =>
      rw [if_neg logical]
      split at quiet
      · next equality =>
          rw [if_pos equality]
          exact checkEquality_binary text span visibility leftLiteral rightLiteral left right l r logical equality quiet
      · next equality =>
          rw [if_neg equality]
          split at quiet
          · next relational =>
              rw [if_pos relational]
              refine Verdict.Numeric.comparison text leftLiteral rightLiteral left right _ ?_ logical (Or.inr relational)
              exact checkNumeric_numeric text span visibility leftLiteral rightLiteral left right l r _ _ _ _ _
                (fun _ _ _ _ => ⟨accept_boolean_follows, rfl⟩) (fun _ _ _ _ => accept_boolean_follows) quiet
          · next relational =>
              rw [if_neg relational]
              have compares : ¬ (isEquality text ∨ isRelational text) := not_or.mpr ⟨equality, relational⟩
              split at quiet
              · next adding =>
                  rw [if_pos adding]
                  have star : text ≠ "*" := by
                    rintro rfl
                    exact absurd adding (by decide)
                  refine Verdict.Numeric.arithmetic text leftLiteral rightLiteral left right _ ?_ logical compares
                    (Or.inl adding)
                  refine checkNumeric_numeric text span visibility leftLiteral rightLiteral left right l r _ _ _ _ _
                    ?_ ?_ quiet
                  · intro numeric a b silent
                    refine ⟨?_, numericResult_natural _ _ _ _⟩
                    have follows := (numericResult_follows left.kind numeric _ span _ silent).1
                    rwa [toNat_max, ← show pairElements text a.toNat b.toNat = max a.toNat b.toNat from
                      if_pos adding] at follows
                  · intro kind numeric a silent
                    have follows := (numericResult_follows kind numeric _ span _ silent).1
                    rwa [← show mixedElements text a.toNat = a.toNat from if_neg star] at follows
              · next adding =>
                  rw [if_neg adding]
                  split at quiet
                  · next star =>
                      rw [if_pos star]
                      refine Verdict.Numeric.arithmetic text leftLiteral rightLiteral left right _ ?_ logical compares
                        (Or.inr (Or.inl star))
                      refine checkNumeric_numeric text span visibility leftLiteral rightLiteral left right l r _ _ _ _ _
                        ?_ ?_ quiet
                      · intro numeric a b silent
                        split at silent
                        · nomatch silent
                        · next test =>
                            rw [if_neg test]
                            refine ⟨?_, numericResult_natural _ _ _ _⟩
                            have follows := (numericResult_follows left.kind numeric _ span _ silent).1
                            rwa [toNat_add_of_test a b test,
                              ← show pairElements text a.toNat b.toNat = a.toNat + b.toNat from
                                (if_neg adding).trans (if_pos star)] at follows
                      · intro kind numeric a silent
                        split at silent
                        · nomatch silent
                        · next test =>
                            rw [if_neg test]
                            have follows := (numericResult_follows kind numeric _ span _ silent).1
                            rwa [toNat_double_of_test a test,
                              ← show mixedElements text a.toNat = 2 * a.toNat from if_pos star] at follows
                  · next star =>
                      rw [if_neg star]
                      split at quiet
                      · next dividing =>
                          rw [if_pos dividing]
                          refine Verdict.Numeric.arithmetic text leftLiteral rightLiteral left right _ ?_ logical
                            compares (Or.inr (Or.inr dividing))
                          refine checkNumeric_numeric text span visibility leftLiteral rightLiteral left right l r
                            _ _ _ _ _ ?_ ?_ quiet
                          · intro numeric a b silent
                            refine ⟨?_, numericResult_natural _ _ _ _⟩
                            have follows := (numericResult_follows left.kind numeric _ span _ silent).1
                            have width : (if text = "/" then a else b).toNat = pairElements text a.toNat b.toNat := by
                              refine Eq.trans ?_ ((if_neg adding).trans (if_neg star)).symm
                              split <;> rfl
                            rwa [width] at follows
                          · intro kind numeric a silent
                            have follows := (numericResult_follows kind numeric _ span _ silent).1
                            rwa [← show mixedElements text a.toNat = a.toNat from if_neg star] at follows
                      · nomatch quiet

end binary

end Naja.Vhdl
