import Naja.Vhdl.Expressions

/-! The grammar of expressions, with the tree of every phrase. -/

namespace Naja.Vhdl.Parser

mutual

/-- A tree without the places it comes from. -/
def bare : Expression → Expression
  | .mk kind text canonical _ left right condition elements =>
      .mk kind text canonical nowhere (bareOption left) (bareOption right) (bareOption condition) (bareList elements)

def bareOption : Option Expression → Option Expression
  | none => none
  | some e => some (bare e)

def bareList : List Expression → List Expression
  | [] => []
  | e :: rest => bare e :: bareList rest

end

theorem bareList_map (es : List Expression) : bareList es = es.map bare := by
  induction es with
  | nil => rfl
  | cons e rest ih => rw [bareList, ih, List.map_cons]

/-! ### The grammar -/

/-- The words that are operators before an operand. -/
def operatorWords : List String := ["not", "abs", "and", "or", "nand", "nor", "xor", "xnor"]

/-- A word as the lexer makes it, in any letter case. -/
def Token.spells (token : Token) (value : String) : Bool := token.isWord value && token.text.toList.map Char.toLower == value.toList

def isMultiplying (op : Token) : Bool := ["*", "/"].any op.isSymbol || ["mod", "rem"].any op.spells

def isAdding (op : Token) : Bool := ["+", "-", "&"].any op.isSymbol

def isRelational (op : Token) : Bool := ["=", "/=", "<", "<=", ">", ">="].any op.isSymbol

def isLogical (op : Token) : Bool := ["and", "or", "nand", "nor", "xor", "xnor"].any op.spells

inductive Phrase where
  | name | primary | factor | term | simple | relation | logical (op : String) | expression
  | index | choices | element | further | argument
deriving DecidableEq

/-- The tokens of a list that a separator stands in front of. -/
def separated (items : List (Token × Expression × List Token)) : List Token :=
  items.flatMap (fun item => item.1 :: item.2.2)

def trees (items : List (Token × Expression × List Token)) : List Expression := items.map (fun item => item.2.1)

/-- The tokens that print a tree as a phrase. Parentheses stand where the grammar requires
them; they may also stand around any other expression. -/
inductive Prints : Phrase → Expression → List Token → Prop where
  | simpleName (t : Token) (kind : t.isName) (free : ∀ w ∈ operatorWords, t.isWord w = false)
      (choice : t.isWord "others" = false) : Prints .name (leaf .Name t.text t.canonical nowhere) [t]
  | attributeName {e : Expression} {ts : List Token} (tick t : Token) (left : Prints .name e ts)
      (mark : tick.isSymbol "'") (kind : t.isName) :
      Prints .name (suffix .Attribute nowhere e t) (ts ++ [tick, t])
  | selected {e : Expression} {ts : List Token} (dot t : Token) (left : Prints .name e ts)
      (mark : dot.isSymbol ".") (kind : t.isName) :
      Prints .name (suffix .Selected nowhere e t) (ts ++ [dot, t])
  | indexed {e i : Expression} {ts us : List Token} (opening closing : Token) (left : Prints .name e ts)
      (index : Prints .index i us) (mark : opening.isSymbol "(") (mark' : closing.isSymbol ")") :
      Prints .name (indexed nowhere e i) (ts ++ opening :: (us ++ [closing]))
  | call {e a : Expression} {ts us : List Token} {rest : List (Token × Expression × List Token)}
      (opening closing : Token) (left : Prints .name e ts) (first : Prints .argument a us)
      (more : ∀ item ∈ rest, Prints .argument item.2.1 item.2.2) (commas : ∀ item ∈ rest, item.1.isSymbol ",")
      (several : rest ≠ [] ∨ a.kind = .Association) (mark : opening.isSymbol "(") (mark' : closing.isSymbol ")") :
      Prints .name (call nowhere e (a :: trees rest)) (ts ++ opening :: (us ++ (separated rest ++ [closing])))
  | ofName {e : Expression} {ts : List Token} (name : Prints .name e ts) : Prints .primary e ts
  | literal (t : Token) (kind : ExpressionKind) (known : literalKind t.kind = some kind) :
      Prints .primary (leaf kind t.text "" nowhere) [t]
  | bitString (base t : Token) (known : base.isWord "x" ∨ base.isWord "b" ∨ base.isWord "o")
      (text : t.kind = .StringLiteral) : Prints .primary (leaf .BitStringLiteral t.text base.canonical nowhere) [base, t]
  | basedString {e : Expression} (base t : Token) (known : bitStringBase base)
      (long : base.canonical.length ≠ 1 ∨ base.isWord "d") (text : t.kind = .StringLiteral)
      (parsed : parseExtendedBitString none base t = .ok e) : Prints .primary (bare e) [base, t]
  | sizedString {e : Expression} (length base t : Token) (number : length.kind = .IntegerLiteral)
      (known : bitStringBase base) (text : t.kind = .StringLiteral)
      (parsed : parseExtendedBitString (some length) base t = .ok e) : Prints .primary (bare e) [length, base, t]
  | parenthesized {e : Expression} {ts : List Token} (opening closing : Token) (inside : Prints .expression e ts)
      (mark : opening.isSymbol "(") (mark' : closing.isSymbol ")") : Prints .primary e (opening :: (ts ++ [closing]))
  | others {e : Expression} {ts : List Token} (opening otherwise arrow closing : Token) (value : Prints .expression e ts)
      (mark : opening.isSymbol "(") (known : otherwise.isWord "others") (mark' : arrow.isSymbol "=>")
      (mark'' : closing.isSymbol ")") :
      Prints .primary (others nowhere e) (opening :: otherwise :: arrow :: (ts ++ [closing]))
  | aggregate {e : Expression} {ts : List Token} {rest : List (Token × Expression × List Token)}
      (opening closing : Token) (first : Prints .element e ts)
      (more : ∀ item ∈ rest, Prints .further item.2.1 item.2.2) (commas : ∀ item ∈ rest, item.1.isSymbol ",")
      (several : rest ≠ [] ∨ e.kind = .Association) (mark : opening.isSymbol "(") (mark' : closing.isSymbol ")") :
      Prints .primary (aggregate nowhere (e :: trees rest)) (opening :: (ts ++ (separated rest ++ [closing])))
  | ofPrimary {e : Expression} {ts : List Token} (primary : Prints .primary e ts) : Prints .factor e ts
  | power {e e' : Expression} {ts us : List Token} (op : Token) (left : Prints .primary e ts)
      (right : Prints .primary e' us) (mark : op.isSymbol "**") :
      Prints .factor (binary nowhere op e e') (ts ++ op :: us)
  | unaryWord {e : Expression} {ts : List Token} (op : Token) (operand : Prints .primary e ts)
      (known : op.spells "not" ∨ op.spells "abs" ∨ isLogical op) :
      Prints .factor (unary nowhere op e) (op :: ts)
  | ofFactor {e : Expression} {ts : List Token} (factor : Prints .factor e ts) : Prints .term e ts
  | multiplying {e e' : Expression} {ts us : List Token} (op : Token) (left : Prints .term e ts)
      (right : Prints .factor e' us) (known : isMultiplying op) :
      Prints .term (binary nowhere op e e') (ts ++ op :: us)
  | ofTerm {e : Expression} {ts : List Token} (term : Prints .term e ts) : Prints .simple e ts
  | sign {e : Expression} {ts : List Token} (op : Token) (operand : Prints .term e ts)
      (known : op.isSymbol "+" ∨ op.isSymbol "-") : Prints .simple (unary nowhere op e) (op :: ts)
  | adding {e e' : Expression} {ts us : List Token} (op : Token) (left : Prints .simple e ts)
      (right : Prints .term e' us) (known : isAdding op) :
      Prints .simple (binary nowhere op e e') (ts ++ op :: us)
  | ofSimple {e : Expression} {ts : List Token} (simple : Prints .simple e ts) : Prints .relation e ts
  | relational {e e' : Expression} {ts us : List Token} (op : Token) (left : Prints .simple e ts)
      (right : Prints .simple e' us) (known : isRelational op) :
      Prints .relation (binary nowhere op e e') (ts ++ op :: us)
  | pair {e e' : Expression} {ts us : List Token} (op : Token) (left : Prints .relation e ts)
      (right : Prints .relation e' us) (known : isLogical op) :
      Prints (.logical op.canonical) (binary nowhere op e e') (ts ++ op :: us)
  | chain {e e' : Expression} {ts us : List Token} (op : Token) (left : Prints (.logical op.canonical) e ts)
      (right : Prints .relation e' us) (known : ["and", "or", "xor", "xnor"].any op.spells) :
      Prints (.logical op.canonical) (binary nowhere op e e') (ts ++ op :: us)
  | ofRelation {e : Expression} {ts : List Token} (relation : Prints .relation e ts) : Prints .expression e ts
  | ofLogical {e : Expression} {ts : List Token} (op : String) (logical : Prints (.logical op) e ts) :
      Prints .expression e ts
  | condition {e : Expression} {ts : List Token} (op : Token) (operand : Prints .primary e ts)
      (mark : op.isSymbol "??") : Prints .expression (unary nowhere op e) (op :: ts)
  | ofExpression {e : Expression} {ts : List Token} (value : Prints .expression e ts) : Prints .index e ts
  | range {e e' : Expression} {ts us : List Token} (direction : Token) (left : Prints .simple e ts)
      (right : Prints .simple e' us) (known : direction.isWord "to" ∨ direction.isWord "downto") :
      Prints .index (range direction e e') (ts ++ direction :: us)
  | choice {e : Expression} {ts : List Token} (one : Prints .index e ts) : Prints .choices e ts
  | severalChoices {e : Expression} {ts : List Token} {rest : List (Token × Expression × List Token)}
      (first : Prints .index e ts) (more : ∀ item ∈ rest, Prints .index item.2.1 item.2.2)
      (bars : ∀ item ∈ rest, item.1.isSymbol "|") (several : rest ≠ []) :
      Prints .choices (aggregate nowhere (e :: trees rest)) (ts ++ separated rest)
  | positional {e : Expression} {ts : List Token} (value : Prints .expression e ts) : Prints .element e ts
  | chosen {e e' : Expression} {ts us : List Token} (arrow : Token) (left : Prints .choices e ts)
      (right : Prints .expression e' us) (mark : arrow.isSymbol "=>") :
      Prints .element (association nowhere e e') (ts ++ arrow :: us)
  | ofElement {e : Expression} {ts : List Token} (element : Prints .element e ts) : Prints .further e ts
  | otherElements {e : Expression} {ts : List Token} (otherwise arrow : Token) (value : Prints .expression e ts)
      (known : otherwise.isWord "others") (mark : arrow.isSymbol "=>") :
      Prints .further (association nowhere (leaf .Name otherwise.text otherwise.canonical nowhere) e)
        (otherwise :: arrow :: ts)
  | actual {e : Expression} {ts : List Token} (value : Prints .expression e ts) : Prints .argument e ts
  | named {e e' : Expression} {ts us : List Token} (arrow : Token) (formal : Prints .expression e ts)
      (right : Prints .expression e' us) (mark : arrow.isSymbol "=>") :
      Prints .argument (association nowhere e e') (ts ++ arrow :: us)

/-! ### What may follow -/

/-- What follows a name or a literal is no part of a bit string. -/
structure Quiet (tokens : List Token) : Prop where
  some : tokens ≠ []
  text : (current tokens).kind ≠ .StringLiteral
  base : bitStringBase (current tokens) = false

/-- What follows an expression goes on with operators up to a precedence only. -/
structure Follows (highest : Int) (tokens : List Token) : Prop extends Quiet tokens where
  dot : symbol tokens "." = false
  opening : symbol tokens "(" = false
  tick : symbol tokens "'" = false
  below : precedence (current tokens) ≤ highest

theorem Follows.mono {highest highest' : Int} {tokens : List Token} (given : Follows highest tokens)
    (more : highest ≤ highest') : Follows highest' tokens :=
  { given with below := Int.le_trans given.below more }

theorem current_cons (t : Token) (rest : List Token) : current (t :: rest) = t := rfl

theorem advance_cons (t : Token) (rest : List Token) (read : t.kind ≠ .EndOfFile) : advance (t :: rest) = rest := if_neg read

theorem look_one (t : Token) (rest : List Token) (some_ : rest ≠ []) : look (t :: rest) 1 = current rest := by
  cases rest with
  | nil => exact absurd rfl some_
  | cons next rest => rfl

theorem isSymbol_iff (t : Token) (value : String) : t.isSymbol value = true ↔ t.kind = .Symbol ∧ t.text = value := by
  unfold Token.isSymbol
  rw [Bool.and_eq_true, beq_iff_eq, beq_iff_eq]

theorem isWord_iff (t : Token) (value : String) : t.isWord value = true ↔ t.kind = .Identifier ∧ t.canonical = value := by
  unfold Token.isWord
  rw [Bool.and_eq_true, beq_iff_eq, beq_iff_eq]

theorem spells_iff (t : Token) (value : String) :
    t.spells value = true ↔ t.kind = .Identifier ∧ t.canonical = value ∧ t.text.toList.map Char.toLower = value.toList := by
  unfold Token.spells
  rw [Bool.and_eq_true, isWord_iff, beq_iff_eq, and_assoc]

/-- A binary operator of a precedence, in both tables. -/
structure Operator (level : Int) (op : Token) : Prop where
  read : op.kind ≠ .EndOfFile
  here : precedence op = level
  taken : opPrecedence op = level
  left : op.text ≠ "**"
  follows : ∀ rest, Follows level (op :: rest)

theorem symbol_operator (value : String) (level : Int) (op : Token) (mark : op.isSymbol value = true)
    (here : precedence ⟨.Symbol, value, "", nowhere⟩ = level) (taken : opPrecedence ⟨.Symbol, value, "", nowhere⟩ = level)
    (plain : value ∉ ["**", ".", "(", "'"]) : Operator level op := by
  obtain ⟨kind, text⟩ := (isSymbol_iff op value).mp mark
  obtain ⟨opKind, opText, canonical, span⟩ := op
  dsimp only at kind text
  subst kind text
  have apart (other : String) (listed : other ∈ ["**", ".", "(", "'"]) (rest : List Token) :
      symbol (⟨.Symbol, opText, canonical, span⟩ :: rest) other = false := by
    refine Bool.eq_false_iff.mpr ?_
    intro same
    have text : opText = other := ((isSymbol_iff _ _).mp same).2
    exact plain (text ▸ listed)
  refine ⟨nofun, here, taken, ?_, ?_⟩
  · rintro rfl
    exact plain (by decide)
  · intro rest
    exact ⟨⟨List.cons_ne_nil _ _, nofun, rfl⟩, apart _ (by decide) rest, apart _ (by decide) rest,
      apart _ (by decide) rest, Int.le_of_eq here⟩

theorem word_operator (value : String) (level : Int) (op : Token) (mark : op.spells value = true)
    (here : ∀ text span, precedence ⟨.Identifier, text, value, span⟩ = level)
    (taken : ∀ text span, opPrecedence ⟨.Identifier, text, value, span⟩ = level)
    (base : bitStringBase ⟨.Identifier, "", value, nowhere⟩ = false) (letters : "**".toList.map Char.toLower ≠ value.toList) :
    Operator level op := by
  obtain ⟨kind, canonical, text⟩ := (spells_iff op value).mp mark
  obtain ⟨opKind, opText, opCanonical, span⟩ := op
  dsimp only at kind canonical text
  subst kind canonical
  refine ⟨nofun, here _ _, taken _ _, ?_, ?_⟩
  · rintro rfl
    exact letters text
  · intro rest
    exact ⟨⟨List.cons_ne_nil _ _, nofun, base⟩, rfl, rfl, rfl, Int.le_of_eq (here _ _)⟩

theorem multiplying_operator (op : Token) (known : isMultiplying op = true) : Operator 5 op := by
  unfold isMultiplying at known
  simp only [List.any_cons, List.any_nil, Bool.or_eq_true, Bool.or_false] at known
  rcases known with (mark | mark) | (mark | mark)
  · exact symbol_operator _ _ op mark (by decide) (by decide) (by decide)
  · exact symbol_operator _ _ op mark (by decide) (by decide) (by decide)
  · exact word_operator _ _ op mark (fun _ _ => rfl) (fun _ _ => rfl) rfl (by decide)
  · exact word_operator _ _ op mark (fun _ _ => rfl) (fun _ _ => rfl) rfl (by decide)

theorem adding_operator (op : Token) (known : isAdding op = true) : Operator 4 op := by
  unfold isAdding at known
  simp only [List.any_cons, List.any_nil, Bool.or_eq_true, Bool.or_false] at known
  rcases known with mark | mark | mark
  · exact symbol_operator _ _ op mark (by decide) (by decide) (by decide)
  · exact symbol_operator _ _ op mark (by decide) (by decide) (by decide)
  · exact symbol_operator _ _ op mark (by decide) (by decide) (by decide)

theorem relational_operator (op : Token) (known : isRelational op = true) : Operator 3 op := by
  have facts : ∀ value ∈ ["=", "/=", "<", "<=", ">", ">="], precedence ⟨.Symbol, value, "", nowhere⟩ = 3 ∧
      opPrecedence ⟨.Symbol, value, "", nowhere⟩ = 3 ∧ value ∉ ["**", ".", "(", "'"] := by decide
  obtain ⟨value, listed, mark⟩ := List.any_eq_true.mp known
  obtain ⟨here, taken, plain⟩ := facts value listed
  exact symbol_operator value 3 op mark here taken plain

/-- The precedence of a logical operator. -/
def level (op : String) : Int := if op = "and" ∨ op = "nand" then 2 else 1

theorem logical_operator (op : Token) (known : isLogical op = true) : Operator (level op.canonical) op := by
  obtain ⟨value, listed, mark⟩ := List.any_eq_true.mp known
  rw [((spells_iff op value).mp mark).2.1]
  simp only [List.mem_cons, List.not_mem_nil, or_false] at listed
  rcases listed with rfl | rfl | rfl | rfl | rfl | rfl
  all_goals exact word_operator _ _ op mark (fun _ _ => rfl) (fun _ _ => rfl) rfl (by decide)

/-! ### First tokens -/

/-- Some token comes first, and it is not `others`. -/
def Begins (ts : List Token) : Prop := ∃ t us, ts = t :: us ∧ t.isWord "others" = false

theorem Begins.append {ts : List Token} (begins : Begins ts) (more : List Token) : Begins (ts ++ more) := by
  obtain ⟨t, us, rfl, plain⟩ := begins
  exact ⟨t, us ++ more, rfl, plain⟩

theorem Begins.word {ts : List Token} (begins : Begins ts) (rest : List Token) : word (ts ++ rest) "others" = false := by
  obtain ⟨t, us, rfl, plain⟩ := begins
  exact plain

theorem Begins.some {ts : List Token} (begins : Begins ts) : ts ≠ [] := by
  obtain ⟨t, us, rfl, -⟩ := begins
  exact List.cons_ne_nil t us

theorem begins_symbol (t : Token) (us : List Token) (value : String) (mark : t.isSymbol value = true) : Begins (t :: us) := by
  refine ⟨t, us, rfl, Bool.eq_false_iff.mpr ?_⟩
  intro isWord
  have kind := ((isSymbol_iff _ _).mp mark).1
  rw [((isWord_iff _ _).mp isWord).1] at kind
  cases kind

theorem begins_word (t : Token) (us : List Token) (apart : t.canonical ≠ "others") : Begins (t :: us) := by
  refine ⟨t, us, rfl, Bool.eq_false_iff.mpr ?_⟩
  intro isWord
  exact apart ((isWord_iff _ _).mp isWord).2

theorem begins_literal (t : Token) (us : List Token) (kind : ExpressionKind) (known : literalKind t.kind = some kind) :
    Begins (t :: us) := by
  refine ⟨t, us, rfl, Bool.eq_false_iff.mpr ?_⟩
  intro isWord
  rw [((isWord_iff _ _).mp isWord).1] at known
  cases known

theorem canonical_base (t : Token) (known : bitStringBase t = true) : t.canonical ≠ "others" := by
  intro same
  unfold bitStringBase at known
  rw [same] at known
  simp at known

theorem canonical_unary (op : Token) (known : op.spells "not" = true ∨ op.spells "abs" = true ∨ isLogical op = true) :
    op.canonical ∈ operatorWords := by
  have listed (value : String) (mark : op.spells value = true) (member : value ∈ operatorWords) :
      op.canonical ∈ operatorWords := by
    rw [((spells_iff op value).mp mark).2.1]
    exact member
  rcases known with mark | mark | mark
  · exact listed "not" mark (by decide)
  · exact listed "abs" mark (by decide)
  · obtain ⟨value, inside, spelled⟩ := List.any_eq_true.mp mark
    have all : ∀ value ∈ ["and", "or", "nand", "nor", "xor", "xnor"], value ∈ operatorWords := by decide
    exact listed value spelled (all value inside)

/-- Nothing but an element after a comma begins with `others`. -/
theorem Prints.begins {phrase : Phrase} {e : Expression} {ts : List Token} (printed : Prints phrase e ts)
    (first : phrase ≠ .further) : Begins ts := by
  induction printed with
  | simpleName t kind free choice => exact ⟨t, [], rfl, choice⟩
  | attributeName tick t left mark kind ih => exact (ih nofun).append _
  | selected dot t left mark kind ih => exact (ih nofun).append _
  | indexed opening closing left index mark mark' ih ih' => exact (ih nofun).append _
  | call opening closing left first more commas several mark mark' ih ih' ih'' => exact (ih nofun).append _
  | ofName name ih => exact ih nofun
  | literal t kind known => exact begins_literal t [] kind known
  | bitString base t known text =>
      refine begins_word base [t] ?_
      rcases known with mark | mark | mark
      all_goals
        rw [((isWord_iff _ _).mp mark).2]
        decide
  | basedString base t known long text parsed => exact begins_word base [t] (canonical_base base known)
  | sizedString length base t number known text parsed =>
      exact begins_literal length [base, t] .IntegerLiteral (by rw [number]; rfl)
  | parenthesized opening closing inside mark mark' ih => exact begins_symbol opening _ _ mark
  | others opening otherwise arrow closing value mark known mark' mark'' ih => exact begins_symbol opening _ _ mark
  | aggregate opening closing first more commas several mark mark' ih ih' => exact begins_symbol opening _ _ mark
  | ofPrimary primary ih => exact ih nofun
  | power op left right mark ih ih' => exact (ih nofun).append _
  | unaryWord op operand known ih =>
      have apart : ∀ value ∈ operatorWords, value ≠ "others" := by decide
      exact begins_word op _ (apart _ (canonical_unary op known))
  | ofFactor factor ih => exact ih nofun
  | multiplying op left right known ih ih' => exact (ih nofun).append _
  | ofTerm term ih => exact ih nofun
  | sign op operand known ih =>
      rcases known with mark | mark
      · exact begins_symbol op _ _ mark
      · exact begins_symbol op _ _ mark
  | adding op left right known ih ih' => exact (ih nofun).append _
  | ofSimple simple ih => exact ih nofun
  | relational op left right known ih ih' => exact (ih nofun).append _
  | pair op left right known ih ih' => exact (ih nofun).append _
  | chain op left right known ih ih' => exact (ih nofun).append _
  | ofRelation relation ih => exact ih nofun
  | ofLogical op logical ih => exact ih nofun
  | condition op operand mark ih => exact begins_symbol op _ _ mark
  | ofExpression value ih => exact ih nofun
  | range direction left right known ih ih' => exact (ih nofun).append _
  | choice one ih => exact ih nofun
  | severalChoices first more bars several ih ih' => exact (ih nofun).append _
  | positional value ih => exact ih nofun
  | chosen arrow left right mark ih ih' => exact (ih nofun).append _
  | ofElement element ih => exact absurd rfl first
  | otherElements otherwise arrow value known mark ih => exact absurd rfl first
  | actual value ih => exact ih nofun
  | named arrow formal right mark ih ih' => exact (ih nofun).append _

/-- Only elements and arguments are associations. -/
theorem Prints.kind {phrase : Phrase} {e : Expression} {ts : List Token} (printed : Prints phrase e ts)
    (whole : phrase ∉ [.element, .further, .argument]) : e.kind ≠ .Association := by
  induction printed with
  | ofName name ih => exact ih (by decide)
  | literal t kind known =>
      intro same
      have kind_ : kind = .Association := same
      subst kind_
      cases h : t.kind <;> rw [h] at known <;> cases known
  | basedString base t known long text parsed =>
      obtain ⟨-, -, result, -, -, -, rfl⟩ := parseExtendedBitString_ok _ _ _ _ parsed
      nofun
  | sizedString length base t number known text parsed =>
      obtain ⟨-, -, result, -, -, -, rfl⟩ := parseExtendedBitString_ok _ _ _ _ parsed
      nofun
  | parenthesized opening closing inside mark mark' ih => exact ih (by decide)
  | ofPrimary primary ih => exact ih (by decide)
  | ofFactor factor ih => exact ih (by decide)
  | ofTerm term ih => exact ih (by decide)
  | ofSimple simple ih => exact ih (by decide)
  | ofRelation relation ih => exact ih (by decide)
  | ofLogical op logical ih => exact ih (by simp)
  | ofExpression value ih => exact ih (by decide)
  | choice one ih => exact ih (by decide)
  | positional value ih => exact absurd (by decide) whole
  | chosen arrow left right mark ih ih' => exact absurd (by decide) whole
  | ofElement element ih => exact absurd (by decide) whole
  | otherElements otherwise arrow value known mark ih => exact absurd (by decide) whole
  | actual value ih => exact absurd (by decide) whole
  | named arrow formal right mark ih ih' => exact absurd (by decide) whole
  | _ => nofun

end Naja.Vhdl.Parser
