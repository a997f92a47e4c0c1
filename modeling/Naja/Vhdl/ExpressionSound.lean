import Naja.Vhdl.CheckSound

/-! What a check without diagnostics says of an expression. A character literal has
no type of its own: where the context expects none, the checker leaves it and
everything above it untyped without a word. -/

namespace Naja.Vhdl

/-- The names an expression reads. -/
def Expression.reads : Expression → List String
  | .mk .Name text canonical _ _ _ _ _ => [if canonical.isEmpty then text else canonical]
  | .mk .Unary _ _ _ (some left) _ _ _ => left.reads
  | .mk .Binary _ _ _ (some left) (some right) _ _ => left.reads ++ right.reads
  | .mk .Conditional _ _ _ (some left) (some right) (some condition) _ =>
      condition.reads ++ left.reads ++ right.reads
  | _ => []

/-- The kind a context expects of the left operand of an operator. -/
def leftKind (text : String) (expected : ScalarType) : ScalarType := (leftExpected text ⟨expected, none⟩).kind

def rightKind (text : String) (expected left : ScalarType) : ScalarType :=
  (rightExpected text ⟨expected, none⟩ ⟨left, none⟩).kind

/-- The kind of an expression in a context that expects one. -/
def kindOf (kinds : String → ScalarType) (expected : ScalarType) : Expression → ScalarType
  | .mk .Name text canonical _ _ _ _ _ => kinds (if canonical.isEmpty then text else canonical)
  | .mk .IntegerLiteral _ _ _ _ _ _ _ => if expected = .Natural then .Natural else .Integer
  | .mk .RealLiteral _ _ _ _ _ _ _ => .Real
  | .mk .StringLiteral _ _ _ _ _ _ _ => .String
  | .mk .CharacterLiteral _ _ _ _ _ _ _ => expected
  | .mk .Unary _ _ _ (some left) _ _ _ => kindOf kinds expected left
  | .mk .Binary text _ _ (some left) (some right) _ _ =>
      let l := kindOf kinds (leftKind text expected) left
      if isLogical text then l
      else if isEquality text ∨ isRelational text then .Boolean
      else if l.isNumericVectorType then l
      else kindOf kinds (rightKind text expected l) right
  | .mk .Conditional _ _ _ (some left) _ _ _ =>
      let l := kindOf kinds expected left
      if expected ≠ .Unknown ∧ sameKind expected l then expected else l
  | _ => .Unknown

/-- Every character literal stands where its context has a kind. -/
def Anchored (kinds : String → ScalarType) (expected : ScalarType) : Expression → Bool
  | .mk .CharacterLiteral _ _ _ _ _ _ _ => expected != .Unknown
  | .mk .Unary _ _ _ (some left) _ _ _ => Anchored kinds expected left
  | .mk .Binary text _ _ (some left) (some right) _ _ =>
      if isEquality text && left.kind == .CharacterLiteral then
        Anchored kinds .Unknown right && Anchored kinds (kindOf kinds .Unknown right) left
      else
        Anchored kinds (leftKind text expected) left &&
          Anchored kinds (rightKind text expected (kindOf kinds (leftKind text expected) left)) right
  | .mk .Conditional _ _ _ (some left) (some right) (some condition) _ =>
      Anchored kinds .Boolean condition && Anchored kinds expected left && Anchored kinds expected right
  | _ => true

theorem leftExpected_kind (text : String) (expected : CheckedType) :
    (leftExpected text expected).kind = leftKind text expected.kind := by
  unfold leftKind leftExpected
  split
  · split <;> rfl
  · split
    · split <;> rfl
    · rfl

theorem rightExpected_kind (text : String) (expected left : CheckedType) :
    (rightExpected text expected left).kind = rightKind text expected.kind left.kind := by
  unfold rightKind rightExpected
  split
  · split
    · exact leftExpected_kind text expected
    · rfl
  · split
    · rfl
    · split
      · split <;> rfl
      · rfl

theorem leftExpected_proper (text : String) (expected : CheckedType) (proper : expected.Proper) :
    (leftExpected text expected).Proper := by
  unfold leftExpected
  split
  · split
    · exact proper
    · exact proper_unknown
  · split
    · split
      · exact proper
      · exact proper_unknown
    · exact proper_unknown

theorem rightExpected_proper (text : String) (expected left : CheckedType) (proper : expected.Proper)
    (known : left.Proper) : (rightExpected text expected left).Proper := by
  unfold rightExpected
  split
  · split
    · exact leftExpected_proper text expected proper
    · exact known
  · split
    · exact known
    · split
      · split
        · exact known
        · exact proper_unknown
      · exact proper_unknown

theorem Shape.agrees_iff (a b : Shape) : a.agrees b ↔ sameKind a.kind b.kind ∧ a.elements = b.elements := by
  rw [Shape.agrees, Bool.and_eq_true, beq_iff_eq]

theorem Shape.agrees_trans (a b c : Shape) (first : a.agrees b) (second : b.agrees c) : a.agrees c := by
  rw [Shape.agrees_iff] at first second ⊢
  refine ⟨?_, first.2.trans second.2⟩
  have kinds := first.1
  have kinds' := second.1
  unfold sameKind at kinds kinds' ⊢
  rw [beq_iff_eq] at kinds kinds' ⊢
  exact kinds.trans kinds'

/-- A type that agrees with a known one is known. -/
theorem known_of_agrees (type other : CheckedType) (proper : type.Proper) (known : other.Known)
    (agrees : type.shape.agrees other.shape) : type.Known := by
  obtain ⟨kinds, elements⟩ := (Shape.agrees_iff _ _).mp agrees
  refine ⟨proper, ?_, ?_⟩
  · intro vector
    have same : other.kind.isVector := by
      have kinds' : sameKind type.kind other.kind := kinds
      revert kinds' vector
      cases type.kind <;> cases other.kind <;> decide
    have there := known.vector same
    have elements' : type.range.map DiscreteRange.elements = other.range.map DiscreteRange.elements := elements
    rw [← Option.isSome_map (f := DiscreteRange.elements), elements', Option.isSome_map]
    exact there
  · intro unknown
    have kinds' : sameKind type.kind other.kind := kinds
    have there := known.kind
    rw [unknown] at kinds'
    revert kinds' there
    cases other.kind <;> decide

/-- Types of one kind that are not compatible are no integers. -/
theorem kind_eq_of_not_compatible (left right : CheckedType) (l : left.kind ≠ .Unknown) (r : right.kind ≠ .Unknown)
    (same : sameKind left.kind right.kind) (apart : ¬ compatible left right) : left.kind = right.kind := by
  by_cases whole : right.kind.isInteger
  · have whole' := isInteger_of_sameKind left.kind right.kind same whole
    have met : compatible left right := by
      unfold compatible
      rw [if_neg (not_or.mpr ⟨l, r⟩), if_pos ⟨whole', whole⟩]
    exact absurd met apart
  · exact sameKind_eq left.kind right.kind same whole

/-- A conditional expression has the type its branches have, and its context's where that is the same. -/
structure Verdict.Branches (verdict : Verdict) (expected condition whenTrue whenFalse : CheckedType) : Prop where
  test : condition.shape = boolean
  known : verdict.type.Known
  left : verdict.type.shape.agrees whenTrue.shape
  right : verdict.type.shape.agrees whenFalse.shape
  kind : verdict.type.kind =
    if expected.kind ≠ .Unknown ∧ sameKind expected.kind whenTrue.kind then expected.kind else whenTrue.kind

theorem checkConditional_branches (span : SourceSpan) (expected condition whenTrue whenFalse : CheckedType)
    (proper : expected.Proper) (c : condition.Known) (t : whenTrue.Known) (f : whenFalse.Known)
    (quiet : (checkConditional span expected condition whenTrue whenFalse).diagnostics = []) :
    (checkConditional span expected condition whenTrue whenFalse).Branches expected condition whenTrue whenFalse := by
  unfold checkConditional at quiet ⊢
  split at quiet
  · next together =>
      rw [if_pos together]
      have branches := agrees_of_compatible whenTrue whenFalse t.proper f together.2
      have test : condition.shape = boolean := by
        rw [CheckedType.shape, c.proper.scalar (by rw [together.1]; decide), together.1]
        rfl
      by_cases chosen : expected.kind ≠ .Unknown ∧ compatible expected whenTrue
      · rw [if_pos chosen]
        have agrees := agrees_of_compatible expected whenTrue proper t chosen.2
        refine ⟨test, known_of_agrees expected whenTrue proper t agrees, agrees,
          Shape.agrees_trans _ _ _ agrees branches, ?_⟩
        exact (if_pos ⟨chosen.1, ((Shape.agrees_iff _ _).mp agrees).1⟩).symm
      · rw [if_neg chosen]
        refine ⟨test, t, (Shape.agrees_iff _ _).mpr ⟨beq_self_eq_true _, rfl⟩, branches, ?_⟩
        split
        · next same =>
            have apart : ¬ compatible expected whenTrue := fun met => chosen ⟨same.1, met⟩
            exact (kind_eq_of_not_compatible expected whenTrue same.1 t.kind same.2 apart).symm
        · rfl
  · split at quiet
    · next unknown => exact absurd unknown (by simp [c.kind, t.kind, f.kind])
    · cases quiet

/-- The declarations an expression reads, as the analyzer has them and as they are. -/
structure Reads (declarations : Declarations) (declared : String → Option Shape) (names : List String) : Prop where
  known : ∀ name ∈ names, ∀ type, declarations.lookup name = some type → type.kind ≠ .Unknown → type.Known
  exact : ∀ name ∈ names, ∀ type, declarations.lookup name = some type → type.kind ≠ .Unknown →
    declared name = some type.shape

def kindsOf (declarations : Declarations) (name : String) : ScalarType :=
  ((declarations.lookup name).map CheckedType.kind).getD .Unknown

/-- What is recorded for an expression: types that follow the rules, and the kind its context gives it. -/
structure Sound (declared : String → Option Shape) (kind : ScalarType) (e : Expression) ( annotation : Annotation) :
    Prop where
  ruled : Ruled declared e annotation
  known : annotation.type.Known
  kind : annotation.type.kind = kind

theorem Reads.mono (declarations : Declarations) (declared : String → Option Shape) (names some : List String)
    (reads : Reads declarations declared names) (part : ∀ name ∈ some, name ∈ names) :
    Reads declarations declared some :=
  ⟨fun name member => reads.known name (part name member), fun name member => reads.exact name (part name member)⟩

/-- A literal may be recorded as natural. -/
theorem ruled_asNatural (declared : String → Option Shape) (e : Expression) ( annotation : Annotation)
    (literal : e.kind = .IntegerLiteral) (ruled : Ruled declared e annotation) :
    Ruled declared e annotation.asNatural := by
  cases ruled with
  | integer text canonical span l r c elements kind whole => exact .integer text canonical span l r c elements _ rfl
  | _ => nomatch literal

theorem ruled_recordOperands (declared : String → Option Shape) (verdict : Verdict) (left right : Expression)
    (l r : Annotation) (first : Ruled declared left l) (second : Ruled declared right r)
    (literal : verdict.naturalOperand → if l.type.kind.isNumericVectorType then right.kind == .IntegerLiteral
      else left.kind == .IntegerLiteral) :
    Ruled declared left (recordOperands verdict l r).1 ∧ Ruled declared right (recordOperands verdict l r).2 := by
  unfold recordOperands
  split
  · next natural =>
      have given := literal natural
      split
      · next numeric =>
          rw [if_pos numeric, beq_iff_eq] at given
          exact ⟨first, ruled_asNatural declared right r given second⟩
      · next numeric =>
          rw [if_neg numeric, beq_iff_eq] at given
          exact ⟨ruled_asNatural declared left l given first, second⟩
  · exact ⟨first, second⟩

section binary
variable (declared : String → Option Shape) (text canonical : String) (span : SourceSpan) (visibility : Visibility)
  (left right : Expression) (c : Option Expression) (elements : List Expression) (l r : Annotation)

/-- The verdict on a binary operator. -/
abbrev binaryVerdict : Verdict :=
  checkBinary text span visibility (left.kind == .IntegerLiteral) (right.kind == .IntegerLiteral) l.type r.type

theorem ruled_binary (first : Ruled declared left l) (second : Ruled declared right r) (knownL : l.type.Known)
    (knownR : r.type.Known) (quiet : (binaryVerdict text span visibility left right l r).diagnostics = []) :
    Ruled declared (.mk .Binary text canonical span (some left) (some right) c elements)
      (.mk (binaryVerdict text span visibility left right l r).type
        (some (recordOperands (binaryVerdict text span visibility left right l r) l r).1)
        (some (recordOperands (binaryVerdict text span visibility left right l r) l r).2) none) ∧
    (binaryVerdict text span visibility left right l r).type.Known ∧
    (binaryVerdict text span visibility left right l r).type.kind =
      if isLogical text then l.type.kind
      else if isEquality text ∨ isRelational text then .Boolean
      else if l.type.kind.isNumericVectorType then l.type.kind else r.type.kind := by
  have binary := checkBinary_binary text span visibility _ _ l.type r.type knownL knownR quiet
  obtain ⟨ruledL, ruledR⟩ := ruled_recordOperands declared (binaryVerdict text span visibility left right l r) left right
    l r first second binary.literal
  refine ⟨.binary text canonical span left right c elements _ _ _ ruledL ruledR ?_, binary.known, binary.kind⟩
  have types := recordOperands_types (binaryVerdict text span visibility left right l r) l r
  rw [(Prod.mk.inj types).1, (Prod.mk.inj types).2]
  exact binary.rule

end binary

theorem not_isLogical_of_isEquality (text : String) (equality : isEquality text) : ¬ isLogical text := by
  rw [isEquality, Bool.or_eq_true, beq_iff_eq, beq_iff_eq] at equality
  rcases equality with rfl | rfl <;> decide

theorem checkName_quiet (text : String) (span : SourceSpan) (found : Option CheckedType)
    (quiet : (checkName text span found).diagnostics = []) :
    ∃ type, found = some type ∧ type.kind ≠ .Unknown ∧ (checkName text span found).type = type := by
  cases found with
  | none => nomatch quiet
  | some type =>
      unfold checkName at quiet ⊢
      simp only at quiet ⊢
      split at quiet
      · nomatch quiet
      · next known =>
          rw [if_neg known]
          exact ⟨type, rfl, known, rfl⟩

theorem checkCharacter_quiet (text : String) (span : SourceSpan) (expected : CheckedType)
    (expects : expected.kind ≠ .Unknown) (quiet : (checkCharacter text span expected).diagnostics = []) :
    (expected.kind = .Bit ∨ expected.kind = .StdLogic) ∧
      (checkCharacter text span expected).type = ⟨expected.kind, none⟩ := by
  unfold checkCharacter at quiet ⊢
  split at quiet
  · next bit =>
      rw [if_pos bit, bit.1]
      exact ⟨Or.inl rfl, rfl⟩
  · next bit =>
      rw [if_neg bit]
      split at quiet
      · next stdLogic =>
          rw [if_pos stdLogic, stdLogic.1]
          exact ⟨Or.inr rfl, rfl⟩
      · nomatch quiet

theorem checkExpression_sound (declarations : Declarations) (visibility : Visibility)
    (declared : String → Option Shape) (expected : CheckedType) (proper : expected.Proper) (e : Expression)
    ( annotation : Annotation) (reads : Reads declarations declared e.reads)
    (anchored : Anchored (kindsOf declarations) expected.kind e)
    (checked : checkExpression declarations visibility expected e = some ( annotation, [])) :
    Sound declared (kindOf (kindsOf declarations) expected.kind e) e annotation := by
  fun_induction checkExpression declarations visibility expected e generalizing annotation with
  | case1 expected text canonical span l r c elements verdict =>
      obtain ⟨rfl, quiet⟩ := Prod.mk.inj (Option.some.inj checked)
      obtain ⟨type, found, known, same⟩ := checkName_quiet text span _ quiet
      have inside : (if canonical.isEmpty then text else canonical) ∈
          (Expression.mk .Name text canonical span l r c elements).reads := List.mem_singleton_self _
      rw [same]
      refine ⟨.name text canonical span l r c elements type ?_, reads.known _ inside type found known, ?_⟩
      · exact reads.exact _ inside type found known
      · unfold kindOf kindsOf
        rw [found]
        rfl
  | case2 expected text canonical span l r c elements =>
      obtain ⟨rfl, -⟩ := Prod.mk.inj (Option.some.inj checked)
      unfold kindOf
      split
      · exact ⟨.integer text canonical span l r c elements .Natural rfl, known_scalar .Natural (by decide) (by decide),
          rfl⟩
      · exact ⟨.integer text canonical span l r c elements .Integer rfl, known_scalar .Integer (by decide) (by decide),
          rfl⟩
  | case3 expected text canonical span l r c elements =>
      obtain ⟨rfl, -⟩ := Prod.mk.inj (Option.some.inj checked)
      exact ⟨.real text canonical span l r c elements, known_scalar .Real (by decide) (by decide), rfl⟩
  | case4 expected text canonical span l r c elements =>
      obtain ⟨rfl, -⟩ := Prod.mk.inj (Option.some.inj checked)
      exact ⟨.string text canonical span l r c elements, known_scalar .String (by decide) (by decide), rfl⟩
  | case5 expected text canonical span l r c elements verdict =>
      obtain ⟨rfl, quiet⟩ := Prod.mk.inj (Option.some.inj checked)
      have expects : expected.kind ≠ .Unknown := bne_iff_ne.mp anchored
      obtain ⟨logic, same⟩ := checkCharacter_quiet text span expected expects quiet
      rw [same]
      refine ⟨.character text canonical span l r c elements expected.kind logic, ?_, rfl⟩
      refine known_scalar expected.kind expects ?_
      rcases logic with bit | stdLogic
      · rw [bit]
        decide
      · rw [stdLogic]
        decide
  | case6 expected text canonical span left r c elements ih =>
      obtain ⟨⟨operand, reported⟩, inside, made⟩ := Option.bind_eq_some_iff.mp checked
      obtain ⟨rfl, quiet⟩ := Prod.mk.inj (Option.some.inj made)
      obtain ⟨rfl, silent⟩ := List.append_eq_nil_iff.mp quiet
      have operandSound := ih proper operand reads anchored inside
      obtain ⟨follows, kind⟩ := checkUnary_follows text span visibility operand.type operandSound.known silent
      refine ⟨.unary text canonical span left r c elements _ operand operandSound.ruled follows.shape, follows.known, ?_⟩
      exact kind.trans operandSound.kind
  | case7 expected text canonical span left right c elements leftCharacter rightCharacter both ihL ihR =>
      obtain ⟨⟨l, reportedL⟩, -, further⟩ := Option.bind_eq_some_iff.mp checked
      obtain ⟨⟨r, reportedR⟩, -, made⟩ := Option.bind_eq_some_iff.mp further
      nomatch (Prod.mk.inj (Option.some.inj made)).2
  | case8 expected text canonical span left right c elements leftCharacter rightCharacter literals both first ihR ihL =>
      obtain ⟨⟨r, reportedR⟩, checkedR, further⟩ := Option.bind_eq_some_iff.mp checked
      obtain ⟨⟨l, reportedL⟩, checkedL, made⟩ := Option.bind_eq_some_iff.mp further
      obtain ⟨rfl, quiet⟩ := Prod.mk.inj (Option.some.inj made)
      obtain ⟨quiet, silent⟩ := List.append_eq_nil_iff.mp quiet
      obtain ⟨rfl, rfl⟩ := List.append_eq_nil_iff.mp quiet
      have equality : isEquality text := (Bool.and_eq_true_iff.mp first).1
      unfold Anchored at anchored
      rw [if_pos first, Bool.and_eq_true] at anchored
      have rightSound := ihR proper_unknown r (reads.mono _ _ _ _ (fun name => List.mem_append_right _)) anchored.1
        checkedR
      have leftSound := ihL r rightSound.known.proper l (reads.mono _ _ _ _ (fun name => List.mem_append_left _))
        (rightSound.kind ▸ anchored.2) checkedL
      obtain ⟨ruled, known, kind⟩ := ruled_binary declared text canonical span visibility left right c elements l r
        leftSound.ruled rightSound.ruled leftSound.known rightSound.known silent
      refine ⟨ruled, known, kind.trans ?_⟩
      have other : ¬ isLogical text := not_isLogical_of_isEquality text equality
      unfold kindOf
      rw [if_neg other, if_pos (Or.inl equality), if_neg other, if_pos (Or.inl equality)]
  | case9 expected text canonical span left right c elements leftCharacter rightCharacter literals both first ihL ihR =>
      obtain ⟨⟨l, reportedL⟩, checkedL, further⟩ := Option.bind_eq_some_iff.mp checked
      obtain ⟨⟨r, reportedR⟩, checkedR, made⟩ := Option.bind_eq_some_iff.mp further
      obtain ⟨rfl, quiet⟩ := Prod.mk.inj (Option.some.inj made)
      obtain ⟨quiet, silent⟩ := List.append_eq_nil_iff.mp quiet
      obtain ⟨rfl, rfl⟩ := List.append_eq_nil_iff.mp quiet
      unfold Anchored at anchored
      rw [if_neg first, Bool.and_eq_true] at anchored
      have leftSound := ihL (leftExpected_proper text expected proper) l
        (reads.mono _ _ _ _ (fun name => List.mem_append_left _))
        ((leftExpected_kind text expected).symm ▸ anchored.1) checkedL
      rw [leftExpected_kind] at leftSound
      have rightKind_eq := rightExpected_kind text expected l.type
      rw [leftSound.kind] at rightKind_eq
      have rightSound := ihR l (rightExpected_proper text expected l.type proper leftSound.known.proper) r
        (reads.mono _ _ _ _ (fun name => List.mem_append_right _)) (rightKind_eq.symm ▸ anchored.2) checkedR
      rw [rightKind_eq] at rightSound
      obtain ⟨ruled, known, kind⟩ := ruled_binary declared text canonical span visibility left right c elements l r
        leftSound.ruled rightSound.ruled leftSound.known rightSound.known silent
      refine ⟨ruled, known, kind.trans ?_⟩
      rw [leftSound.kind, rightSound.kind]
      rfl
  | case10 expected text canonical span left right condition elements ihC ihL ihR =>
      obtain ⟨⟨c, reportedC⟩, checkedC, further⟩ := Option.bind_eq_some_iff.mp checked
      obtain ⟨⟨l, reportedL⟩, checkedL, further⟩ := Option.bind_eq_some_iff.mp further
      obtain ⟨⟨r, reportedR⟩, checkedR, made⟩ := Option.bind_eq_some_iff.mp further
      obtain ⟨rfl, quiet⟩ := Prod.mk.inj (Option.some.inj made)
      obtain ⟨operands, silent⟩ := List.append_eq_nil_iff.mp quiet
      obtain ⟨firstTwo, rfl⟩ := List.append_eq_nil_iff.mp operands
      obtain ⟨rfl, rfl⟩ := List.append_eq_nil_iff.mp firstTwo
      unfold Anchored at anchored
      rw [Bool.and_eq_true, Bool.and_eq_true] at anchored
      have part (name : String) (names : List String) (inside : name ∈ condition.reads ++ left.reads) :
          name ∈ condition.reads ++ left.reads ++ names := List.mem_append_left _ inside
      have test := ihC (known_scalar .Boolean (by decide) (by decide)).proper c
        (reads.mono _ _ _ _ (fun name inside => part name _ (List.mem_append_left _ inside))) anchored.1.1 checkedC
      have leftSound := ihL proper l
        (reads.mono _ _ _ _ (fun name inside => part name _ (List.mem_append_right _ inside))) anchored.1.2 checkedL
      have rightSound := ihR proper r (reads.mono _ _ _ _ (fun name => List.mem_append_right _)) anchored.2 checkedR
      have branches := checkConditional_branches span expected c.type l.type r.type proper test.known leftSound.known
        rightSound.known silent
      refine ⟨.conditional text canonical span left right condition elements _ l r c leftSound.ruled rightSound.ruled
        test.ruled branches.test branches.left branches.right, branches.known, branches.kind.trans ?_⟩
      rw [leftSound.kind]
      rfl
  | case11 => nomatch checked
  | case12 => nomatch checked
  | case13 => nomatch checked
  | case14 => nomatch checked
  | case15 => nomatch checked
  | case16 => nomatch checked
  | case17 => nomatch (Prod.mk.inj (Option.some.inj checked)).2

end Naja.Vhdl
