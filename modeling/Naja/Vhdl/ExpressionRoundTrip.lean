import Naja.Vhdl.ExpressionGrammar
import Mathlib.Order.Filter.AtTopBot.Basic

/-! The parser agrees with the grammar of expressions: from the tokens of a phrase it builds
the tree of the phrase and goes no further. Fuel is left out of account by letting it grow. -/

namespace Naja.Vhdl.Parser
open Filter

/-! ### Steps of the parser -/

theorem eventually_succ {p : Nat → Prop} (later : ∀ᶠ fuel in atTop, p (fuel + 1)) : ∀ᶠ fuel in atTop, p fuel := by
  obtain ⟨bound, all⟩ := eventually_atTop.mp later
  refine eventually_atTop.mpr ⟨bound + 1, ?_⟩
  intro fuel enough
  obtain ⟨fuel, rfl⟩ : ∃ n, fuel = n + 1 := ⟨fuel - 1, by omega⟩
  exact all fuel (by omega)

theorem parseExpression_step {minimum : Int} {tokens rest : List Token} {e : Expression} {result : Parsed}
    (primary : ∀ᶠ fuel in atTop, parsePrimary fuel tokens = .ok (e, rest))
    (operators : ∀ᶠ fuel in atTop, parseOperators fuel minimum e rest = result) :
    ∀ᶠ fuel in atTop, parseExpression fuel minimum tokens = result := by
  apply eventually_succ
  filter_upwards [primary, operators] with fuel first second
  rw [parseExpression, first]
  exact second

theorem parseOperators_stop {minimum highest : Int} {tokens : List Token} (e : Expression)
    (follows : Follows highest tokens) (less : highest < minimum) :
    ∀ᶠ fuel in atTop, parseOperators fuel minimum e tokens = .ok (e, tokens) := by
  apply eventually_succ
  refine Eventually.of_forall ?_
  intro fuel
  have below := follows.below
  rw [parseOperators, if_neg (by omega)]

/-- A binary operator and its right operand. -/
theorem parseOperators_step {minimum : Int} {op : Token} {tokens rest : List Token} {left right : Expression}
    {result : Parsed} (reached : minimum ≤ precedence op) (read : op.kind ≠ .EndOfFile)
    (operand : ∀ᶠ fuel in atTop,
      parseExpression fuel (opPrecedence op + if op.text = "**" then 0 else 1) tokens = .ok (right, rest))
    (operators : ∀ᶠ fuel in atTop,
      parseOperators fuel minimum (binary (join left.span right.span) op left right) rest = result) :
    ∀ᶠ fuel in atTop, parseOperators fuel minimum left (op :: tokens) = result := by
  apply eventually_succ
  filter_upwards [operand, operators] with fuel first second
  rw [parseOperators, current_cons, if_pos reached, advance_cons op tokens read]
  dsimp only
  rw [first]
  exact second

/-- A list goes on with items after separators, up to what is no separator. -/
theorem parseSeparated_all (separator : String) (item : Nat → List Token → Parsed) (Good : List Token → Prop)
    (items : List (Token × Expression × List Token)) (marks : ∀ it ∈ items, it.1.isSymbol separator = true)
    (good : ∀ t rest, t.isSymbol separator = true → Good (t :: rest))
    (reads : ∀ it ∈ items, ∃ e, bare e = it.2.1 ∧
      ∀ rest, Good rest → ∀ᶠ fuel in atTop, item fuel (it.2.2 ++ rest) = .ok (e, rest)) :
    ∃ es, es.map bare = trees items ∧ ∀ rest, Good rest → symbol rest separator = false →
      ∀ᶠ fuel in atTop, ∀ steps, items.length < steps → ∀ acc,
        parseSeparated separator (item fuel) steps acc (separated items ++ rest) = .ok (acc ++ es, rest) := by
  induction items with
  | nil =>
      refine ⟨[], rfl, ?_⟩
      intro rest _ last
      refine Eventually.of_forall ?_
      intro fuel steps enough acc
      obtain ⟨steps, rfl⟩ : ∃ n, steps = n + 1 := ⟨steps - 1, by omega⟩
      change parseSeparated separator (item fuel) (steps + 1) acc rest = _
      rw [parseSeparated, last, List.append_nil]
      rfl
  | cons it items ih =>
      obtain ⟨es, same, all⟩ := ih (fun other member => marks other (List.mem_cons_of_mem _ member))
        (fun other member => reads other (List.mem_cons_of_mem _ member))
      obtain ⟨e, tree, one⟩ := reads it List.mem_cons_self
      have mark := marks it List.mem_cons_self
      refine ⟨e :: es, ?_, ?_⟩
      · rw [List.map_cons, tree, same]
        rfl
      · intro rest next last
        have goodNext : Good (separated items ++ rest) := by
          cases items with
          | nil => exact next
          | cons it' items => exact good _ _ (marks it' (List.mem_cons_of_mem _ List.mem_cons_self))
        filter_upwards [one _ goodNext, all rest next last] with fuel first others
        intro steps enough acc
        obtain ⟨steps, rfl⟩ : ∃ n, steps = n + 1 := ⟨steps - 1, by omega⟩
        have layout : separated (it :: items) ++ rest = it.1 :: (it.2.2 ++ (separated items ++ rest)) := by
          unfold separated
          rw [List.flatMap_cons, List.cons_append, List.cons_append, List.append_assoc]
        have here : symbol (it.1 :: (it.2.2 ++ (separated items ++ rest))) separator = true := mark
        have read : it.1.kind ≠ .EndOfFile := by
          rw [((isSymbol_iff _ _).mp mark).1]
          decide
        rw [layout, parseSeparated, if_pos here, advance_cons _ _ read]
        dsimp only
        rw [first]
        have more := others steps (by simpa using enough) (acc ++ [e])
        rw [List.append_assoc] at more
        exact more

/-! ### What a phrase is read as -/

/-- A parser reads a tree from tokens, whatever good tokens come after them. -/
def Reads (parse : Nat → List Token → Parsed) (Good : List Token → Prop) (e : Expression) (ts : List Token) : Prop :=
  ∃ e', bare e' = e ∧ ∀ rest, Good rest → ∀ᶠ fuel in atTop, parse fuel (ts ++ rest) = .ok (e', rest)

/-- What begins an expression is read as its first operand, and the loop goes on with it. -/
def Operand (highest follow : Int) (e : Expression) (ts : List Token) : Prop :=
  ∃ e', bare e' = e ∧ ∀ minimum, minimum ≤ highest → ∀ rest result, Follows follow rest →
    (∀ᶠ fuel in atTop, parseOperators fuel minimum e' rest = result) →
    ∀ᶠ fuel in atTop, parseExpression fuel minimum (ts ++ rest) = result

theorem Operand.reads {highest follow : Int} {e : Expression} {ts : List Token} (operand : Operand highest follow e ts)
    (minimum limit : Int) (most : minimum ≤ highest) (inside : limit ≤ follow) (less : limit < minimum) :
    Reads (fun fuel => parseExpression fuel minimum) (Follows limit) e ts := by
  obtain ⟨e', tree, goes⟩ := operand
  refine ⟨e', tree, ?_⟩
  intro rest follows
  exact goes minimum most rest _ (follows.mono inside) (parseOperators_stop e' follows less)

theorem bare_binary (span : SourceSpan) (op : Token) (left right : Expression) :
    bare (binary span op left right) = binary nowhere op (bare left) (bare right) := rfl

/-- An operand, an operator and an operand of a higher precedence. -/
theorem Operand.binary {highest follow level : Int} {op : Token} {e e' : Expression} {ts us : List Token}
    (operator : Operator level op) (left : Operand highest follow e ts) (follows : level ≤ follow)
    (right : Reads (fun fuel => parseExpression fuel (level + 1)) (Follows level) e' us)
    (atMost : level ≤ highest) : Operand level level (binary nowhere op e e') (ts ++ op :: us) := by
  obtain ⟨left', leftTree, leftReads⟩ := left
  obtain ⟨right', rightTree, rightReads⟩ := right
  refine ⟨Parser.binary (join left'.span right'.span) op left' right', ?_, ?_⟩
  · rw [bare_binary, leftTree, rightTree]
  · intro minimum most rest result after operators
    rw [List.append_assoc, List.cons_append]
    refine leftReads minimum (Int.le_trans most atMost) _ result ((operator.follows _).mono follows) ?_
    refine parseOperators_step (by rw [operator.here]; exact most) operator.read ?_ operators
    rw [operator.taken, if_neg operator.left]
    exact rightReads rest after

theorem Operand.mono {highest follow highest' follow' : Int} {e : Expression} {ts : List Token}
    (operand : Operand highest follow e ts) (most : highest' ≤ highest) (less : follow' ≤ follow) :
    Operand highest' follow' e ts := by
  obtain ⟨e', tree, goes⟩ := operand
  refine ⟨e', tree, ?_⟩
  intro minimum small rest result follows
  exact goes minimum (Int.le_trans small most) rest result (follows.mono less)

theorem Operand.ofPrimary {highest follow : Int} {e : Expression} {ts : List Token}
    (primary : Reads parsePrimary (Follows follow) e ts) : Operand highest follow e ts := by
  obtain ⟨e', tree, reads⟩ := primary
  refine ⟨e', tree, ?_⟩
  intro minimum _ rest result follows operators
  exact parseExpression_step (reads rest follows) operators

theorem Reads.mono {parse : Nat → List Token → Parsed} {Good Good' : List Token → Prop} {e : Expression}
    {ts : List Token} (reads : Reads parse Good e ts) (less : ∀ rest, Good' rest → Good rest) :
    Reads parse Good' e ts := by
  obtain ⟨e', tree, all⟩ := reads
  exact ⟨e', tree, fun rest good => all rest (less rest good)⟩

/-- The exponent is read with operators of the same precedence, of which the grammar has none. -/
theorem power_operand {e e' : Expression} {ts us : List Token} (op : Token) (mark : op.isSymbol "**" = true)
    (left : Reads parsePrimary (Follows 6) e ts) (right : Reads parsePrimary (Follows 6) e' us) :
    Operand 6 5 (binary nowhere op e e') (ts ++ op :: us) := by
  obtain ⟨left', leftTree, leftReads⟩ := left
  obtain ⟨right', rightTree, rightReads⟩ := right
  refine ⟨binary (join left'.span right'.span) op left' right', ?_, ?_⟩
  · rw [bare_binary, leftTree, rightTree]
  · intro minimum most rest result after operators
    obtain ⟨kind, text⟩ := (isSymbol_iff op _).mp mark
    obtain ⟨opKind, opText, canonical, span⟩ := op
    dsimp only at kind text
    subst kind text
    have follows (next : List Token) : Follows 6 (⟨.Symbol, "**", canonical, span⟩ :: next) :=
      ⟨⟨List.cons_ne_nil _ _, nofun, rfl⟩, rfl, rfl, rfl, Int.le_of_eq rfl⟩
    rw [List.append_assoc, List.cons_append]
    refine parseExpression_step (leftReads _ (follows _)) (parseOperators_step most nofun ?_ operators)
    exact parseExpression_step (rightReads rest (after.mono (by decide)))
      (parseOperators_stop right' after (show (5 : Int) < 6 by decide))

/-! ### Primaries -/

theorem not_extended (t : Token) (rest : List Token) (some_ : rest ≠ [])
    (number : t.kind = .IntegerLiteral → bitStringBase (current rest) = false)
    (base : bitStringBase t = true → (current rest).kind ≠ .StringLiteral) : isExtendedBitString (t :: rest) = false := by
  unfold isExtendedBitString
  rw [look_one t rest some_, current_cons]
  have longer : word (t :: rest) "d" = true → bitStringBase t = true := by
    intro isD
    obtain ⟨kind, canonical⟩ := (isWord_iff t "d").mp isD
    unfold bitStringBase
    rw [kind, canonical]
    rfl
  simp only [Bool.or_eq_false_iff, Bool.and_eq_false_iff, beq_eq_false_iff_ne]
  refine ⟨⟨?_, ?_⟩, ?_⟩
  · by_cases isNumber : t.kind = .IntegerLiteral
    · exact .inl (.inr (number isNumber))
    · exact .inl (.inl isNumber)
  · cases known : bitStringBase t with
    | false => exact .inl (.inl rfl)
    | true => exact .inr (base known)
  · cases known : word (t :: rest) "d" with
    | false => exact .inl rfl
    | true => exact .inr (base (longer known))

theorem not_extended_symbol (t : Token) (rest : List Token) (some_ : rest ≠ []) (value : String)
    (mark : t.isSymbol value = true) : isExtendedBitString (t :: rest) = false := by
  have kind := ((isSymbol_iff t value).mp mark).1
  refine not_extended t rest some_ ?_ ?_
  · intro number
    rw [kind] at number
    cases number
  · intro base
    unfold bitStringBase at base
    rw [kind] at base
    cases base

theorem not_extended_word (t : Token) (rest : List Token) (some_ : rest ≠ []) (value : String)
    (mark : t.spells value = true) (plain : bitStringBase ⟨.Identifier, "", value, nowhere⟩ = false) :
    isExtendedBitString (t :: rest) = false := by
  obtain ⟨kind, canonical, -⟩ := (spells_iff t value).mp mark
  refine not_extended t rest some_ ?_ ?_
  · intro number
    rw [kind] at number
    cases number
  · intro base
    unfold bitStringBase at base plain
    rw [kind, canonical] at base
    rw [plain] at base
    cases base

theorem bare_unary (span : SourceSpan) (op : Token) (operand : Expression) :
    bare (unary span op operand) = unary nowhere op (bare operand) := rfl

/-- `not`, `abs` and the logical operators before one operand apply to one primary. -/
theorem unary_reads {limit : Int} {e : Expression} {ts : List Token} (op : Token) (some_ : ts ≠ [])
    (plain : ∀ rest, rest ≠ [] → isExtendedBitString (op :: rest) = false) (known : isUnary op = true)
    (unsigned : op.text ≠ "+" ∧ op.text ≠ "-") (read : op.kind ≠ .EndOfFile)
    (operand : Reads parsePrimary (Follows limit) e ts) :
    Reads parsePrimary (Follows limit) (unary nowhere op e) (op :: ts) := by
  obtain ⟨e', tree, reads⟩ := operand
  refine ⟨unary (join op.span e'.span) op e', ?_, ?_⟩
  · rw [bare_unary, tree]
  · intro rest follows
    apply eventually_succ
    filter_upwards [reads rest follows] with fuel first
    rw [List.cons_append, parsePrimary, plain _ (by simp [some_]), if_neg (by decide), current_cons, if_pos known,
      advance_cons _ _ read]
    dsimp only
    rw [if_neg (not_or.mpr unsigned), first]
    rfl

/-- A sign applies to a whole term. -/
theorem sign_reads {limit : Int} {e : Expression} {ts : List Token} (op : Token) (some_ : ts ≠ [])
    (known : op.isSymbol "+" = true ∨ op.isSymbol "-" = true)
    (operand : Reads (fun fuel => parseExpression fuel 5) (Follows limit) e ts) :
    Reads parsePrimary (Follows limit) (unary nowhere op e) (op :: ts) := by
  obtain ⟨e', tree, reads⟩ := operand
  refine ⟨unary (join op.span e'.span) op e', ?_, ?_⟩
  · rw [bare_unary, tree]
  · intro rest follows
    apply eventually_succ
    filter_upwards [reads rest follows] with fuel first
    have plain : isExtendedBitString (op :: (ts ++ rest)) = false := by
      rcases known with mark | mark
      · exact not_extended_symbol op _ (by simp [some_]) _ mark
      · exact not_extended_symbol op _ (by simp [some_]) _ mark
    have isUnary_ : isUnary op = true := by
      unfold isUnary
      rcases known with mark | mark
      · simp [mark]
      · simp [mark]
    have read : op.kind ≠ .EndOfFile := by
      rcases known with mark | mark
      · rw [((isSymbol_iff _ _).mp mark).1]
        decide
      · rw [((isSymbol_iff _ _).mp mark).1]
        decide
    have signed : op.text = "+" ∨ op.text = "-" :=
      known.imp (fun mark => ((isSymbol_iff _ _).mp mark).2) (fun mark => ((isSymbol_iff _ _).mp mark).2)
    rw [List.cons_append, parsePrimary, plain, if_neg (by decide), current_cons, if_pos isUnary_,
      advance_cons _ _ read]
    dsimp only
    rw [if_pos signed, first]
    rfl

/-- A literal of one token. -/
theorem literal_reads (t : Token) (kind : ExpressionKind) (known : literalKind t.kind = some kind) :
    Reads parsePrimary (Follows 6) (leaf kind t.text "" nowhere) [t] := by
  refine ⟨leaf kind t.text "" t.span, rfl, ?_⟩
  intro rest follows
  apply eventually_succ
  refine Eventually.of_forall ?_
  intro fuel
  have word_ (value : String) : t.isWord value = false := by
    refine Bool.eq_false_iff.mpr ?_
    intro isWord
    rw [((isWord_iff t value).mp isWord).1] at known
    cases known
  have symbol_ (value : String) : t.isSymbol value = false := by
    refine Bool.eq_false_iff.mpr ?_
    intro isSymbol
    rw [((isSymbol_iff t value).mp isSymbol).1] at known
    cases known
  have base : bitStringBase t = false := by
    refine Bool.eq_false_iff.mpr ?_
    intro isBase
    unfold bitStringBase at isBase
    rw [Bool.and_eq_true, beq_iff_eq] at isBase
    rw [isBase.1] at known
    cases known
  have plain : isExtendedBitString (t :: rest) = false :=
    not_extended t rest follows.some (fun _ => follows.base) (fun isBase => absurd isBase (by rw [base]; decide))
  have noName : t.isName = false := by
    refine Bool.eq_false_iff.mpr ?_
    intro isName
    unfold Token.isName at isName
    rw [Bool.or_eq_true, beq_iff_eq, beq_iff_eq] at isName
    rcases isName with kind_ | kind_
    · rw [kind_] at known
      cases known
    · rw [kind_] at known
      cases known
  have read : t.kind ≠ .EndOfFile := by
    intro end_
    rw [end_] at known
    cases known
  have unary_ : isUnary t = false := by
    unfold isUnary
    simp only [symbol_, word_, List.any_cons, List.any_nil, Bool.or_false]
  change parsePrimary (fuel + 1) (t :: rest) = _
  rw [parsePrimary, plain, if_neg (by decide), current_cons, unary_, if_neg (by decide)]
  have opening : symbol (t :: rest) "(" = false := symbol_ "("
  have letters : ["x", "b", "o"].any (word (t :: rest)) = false := by
    simp only [List.any_cons, List.any_nil, Bool.or_false, word, current_cons, word_]
  rw [opening, if_neg (by decide), letters, Bool.false_and, if_neg (by decide), noName, if_neg (by decide)]
  unfold parseLiteral
  rw [current_cons, known, advance_cons t rest read]

theorem bitString_reads (base t : Token) (known : base.isWord "x" = true ∨ base.isWord "b" = true ∨ base.isWord "o" = true)
    (text : t.kind = .StringLiteral) :
    Reads parsePrimary (Follows 6) (leaf .BitStringLiteral t.text base.canonical nowhere) [base, t] := by
  refine ⟨leaf .BitStringLiteral t.text base.canonical t.span, rfl, ?_⟩
  intro rest follows
  apply eventually_succ
  refine Eventually.of_forall ?_
  intro fuel
  obtain ⟨kind, canonical⟩ : base.kind = .Identifier ∧ base.canonical ∈ ["x", "b", "o"] := by
    rcases known with mark | mark | mark
    all_goals
      rw [((isWord_iff _ _).mp mark).1, ((isWord_iff _ _).mp mark).2]
      decide
  obtain ⟨baseKind, baseText, value, span⟩ := base
  dsimp only at kind canonical
  subst kind
  have next : (look (⟨.Identifier, baseText, value, span⟩ :: t :: rest) 1).kind = .StringLiteral := text
  have facts : ∀ value ∈ ["x", "b", "o"], (value.length != 1) = false ∧ (value == "d") = false ∧
      (["not", "abs", "and", "or", "nand", "nor", "xor", "xnor"].any (fun w => value == w)) = false ∧
      (["x", "b", "o"].any (fun w => value == w)) = true := by decide
  obtain ⟨short, other, nothing, listed⟩ := facts value canonical
  have plain : isExtendedBitString (⟨.Identifier, baseText, value, span⟩ :: t :: rest) = false := by
    unfold isExtendedBitString word Token.isWord
    rw [next, current_cons]
    dsimp only
    rw [short, other]
    simp
  have unary_ : isUnary ⟨.Identifier, baseText, value, span⟩ = false := nothing
  have opening : symbol (⟨.Identifier, baseText, value, span⟩ :: t :: rest) "(" = false := rfl
  have letters : ["x", "b", "o"].any (word (⟨.Identifier, baseText, value, span⟩ :: t :: rest)) = true := listed
  change parsePrimary (fuel + 1) (⟨.Identifier, baseText, value, span⟩ :: t :: rest) = _
  rw [parsePrimary, plain, if_neg (by decide), current_cons, unary_, if_neg (by decide), opening, if_neg (by decide),
    letters, next]
  rfl

theorem basedString_reads {e : Expression} (base t : Token) (known : bitStringBase base = true)
    (long : base.canonical.length ≠ 1 ∨ base.isWord "d" = true) (text : t.kind = .StringLiteral)
    (parsed : parseExtendedBitString none base t = .ok e) : Reads parsePrimary (Follows 6) (bare e) [base, t] := by
  refine ⟨e, rfl, ?_⟩
  intro rest follows
  apply eventually_succ
  refine Eventually.of_forall ?_
  intro fuel
  have kind : base.kind = .Identifier := by
    unfold bitStringBase at known
    rw [Bool.and_eq_true, beq_iff_eq] at known
    exact known.1
  have extended : isExtendedBitString (base :: t :: rest) = true := by
    have next : (look (base :: t :: rest) 1).kind = .StringLiteral := text
    unfold isExtendedBitString
    rw [current_cons, next, known]
    rcases long with longer | isD
    · simp [longer]
    · have here : word (base :: t :: rest) "d" = true := isD
      simp [here]
  change parsePrimary (fuel + 1) (base :: t :: rest) = _
  rw [parsePrimary, if_pos extended]
  unfold extendedBitString
  rw [current_cons, kind]
  have next : look (base :: t :: rest) 1 = t := rfl
  rw [next, if_neg (by decide)]
  dsimp only
  rw [parsed]
  rfl

theorem sizedString_reads {e : Expression} (length base t : Token) (number : length.kind = .IntegerLiteral)
    (known : bitStringBase base = true) (text : t.kind = .StringLiteral)
    (parsed : parseExtendedBitString (some length) base t = .ok e) :
    Reads parsePrimary (Follows 6) (bare e) [length, base, t] := by
  refine ⟨e, rfl, ?_⟩
  intro rest follows
  apply eventually_succ
  refine Eventually.of_forall ?_
  intro fuel
  have first : look (length :: base :: t :: rest) 1 = base := rfl
  have second : look (length :: base :: t :: rest) 2 = t := rfl
  have extended : isExtendedBitString (length :: base :: t :: rest) = true := by
    unfold isExtendedBitString
    rw [current_cons, first, second, number, known, text]
    rfl
  change parsePrimary (fuel + 1) (length :: base :: t :: rest) = _
  rw [parsePrimary, if_pos extended]
  unfold extendedBitString
  rw [current_cons, first, second, if_pos number]
  dsimp only
  rw [parsed]
  rfl

/-! ### Names -/

/-- A name is read up to the suffixes that come after it. -/
def ReadsName (e : Expression) (ts : List Token) : Prop :=
  ∃ e', bare e' = e ∧ ∀ rest result, Quiet rest →
    (∀ᶠ fuel in atTop, parseSuffixes fuel e' rest = result) →
    ∀ᶠ fuel in atTop, parsePrimary fuel (ts ++ rest) = result

theorem simpleName_reads (t : Token) (kind : t.isName = true) (free : ∀ w ∈ operatorWords, t.isWord w = false) :
    ReadsName (leaf .Name t.text t.canonical nowhere) [t] := by
  refine ⟨nameNode t, rfl, ?_⟩
  intro rest result quiet suffixes
  apply eventually_succ
  filter_upwards [suffixes] with fuel first
  have named : t.kind = .Identifier ∨ t.kind = .ExtendedIdentifier := by
    unfold Token.isName at kind
    rwa [Bool.or_eq_true, beq_iff_eq, beq_iff_eq] at kind
  have symbol_ (value : String) : t.isSymbol value = false := by
    refine Bool.eq_false_iff.mpr ?_
    intro isSymbol
    have kind_ := ((isSymbol_iff t value).mp isSymbol).1
    rcases named with kind' | kind'
    · rw [kind_] at kind'
      cases kind'
    · rw [kind_] at kind'
      cases kind'
  have plain : isExtendedBitString (t :: rest) = false := by
    refine not_extended t rest quiet.some ?_ (fun _ => quiet.text)
    intro _
    exact quiet.base
  have unary_ : isUnary t = false := by
    unfold isUnary
    have words : ["not", "abs", "and", "or", "nand", "nor", "xor", "xnor"].any t.isWord = false := by
      refine List.any_eq_false.mpr ?_
      intro value member
      rw [free value member]
      decide
    rw [symbol_, symbol_, symbol_, words]
    rfl
  have read : t.kind ≠ .EndOfFile := by
    rcases named with kind' | kind'
    · rw [kind']
      decide
    · rw [kind']
      decide
  change parsePrimary (fuel + 1) (t :: rest) = _
  have opening : symbol (t :: rest) "(" = false := symbol_ "("
  have noString : ((look (t :: rest) 1).kind == .StringLiteral) = false := by
    rw [look_one t rest quiet.some]
    exact beq_eq_false_iff_ne.mpr quiet.text
  rw [parsePrimary, plain, if_neg (by decide), current_cons, unary_, if_neg (by decide), opening, if_neg (by decide),
    noString, Bool.and_false, if_neg (by decide), if_pos kind, advance_cons t rest read]
  exact first

theorem quiet_symbol (t : Token) (rest : List Token) (value : String) (mark : t.isSymbol value = true) :
    Quiet (t :: rest) := by
  have kind := ((isSymbol_iff t value).mp mark).1
  refine ⟨List.cons_ne_nil _ _, ?_, ?_⟩
  · rw [current_cons, kind]
    decide
  · unfold bitStringBase
    rw [current_cons, kind]
    rfl

theorem symbol_other (t : Token) (rest : List Token) (value other : String) (mark : t.isSymbol value = true)
    (apart : value ≠ other) : symbol (t :: rest) other = false := by
  refine Bool.eq_false_iff.mpr ?_
  intro same
  have text : t.text = other := ((isSymbol_iff _ _).mp same).2
  exact apart (((isSymbol_iff t value).mp mark).2.symm.trans text)

theorem read_symbol (t : Token) (value : String) (mark : t.isSymbol value = true) : t.kind ≠ .EndOfFile := by
  rw [((isSymbol_iff _ _).mp mark).1]
  decide

theorem read_name (t : Token) (kind : t.isName = true) : t.kind ≠ .EndOfFile := by
  intro end_
  unfold Token.isName at kind
  rw [end_] at kind
  cases kind

/-- A name goes on with `'` and an attribute, or with `.` and an element. -/
theorem attribute_reads {e : Expression} {ts : List Token} (tick t : Token) (left : ReadsName e ts)
    (mark : tick.isSymbol "'" = true) (kind : t.isName = true) :
    ReadsName (suffix .Attribute nowhere e t) (ts ++ [tick, t]) := by
  obtain ⟨e', tree, reads⟩ := left
  refine ⟨suffix .Attribute (join e'.span t.span) e' t, ?_, ?_⟩
  · rw [← tree]
    rfl
  · intro rest result quiet suffixes
    rw [List.append_assoc]
    refine reads _ result (quiet_symbol tick _ _ mark) ?_
    apply eventually_succ
    filter_upwards [suffixes] with fuel first
    have here : symbol (tick :: t :: rest) "'" = true := mark
    have name : parseName (t :: rest) = .ok (t, rest) := by
      unfold parseName
      rw [current_cons, if_pos kind, advance_cons t rest (read_name t kind)]
    change parseSuffixes (fuel + 1) e' (tick :: t :: rest) = _
    rw [parseSuffixes, if_pos here, advance_cons _ _ (read_symbol tick _ mark), name]
    exact first

theorem selected_reads {e : Expression} {ts : List Token} (dot t : Token) (left : ReadsName e ts)
    (mark : dot.isSymbol "." = true) (kind : t.isName = true) :
    ReadsName (suffix .Selected nowhere e t) (ts ++ [dot, t]) := by
  obtain ⟨e', tree, reads⟩ := left
  refine ⟨suffix .Selected (join e'.span t.span) e' t, ?_, ?_⟩
  · rw [← tree]
    rfl
  · intro rest result quiet suffixes
    rw [List.append_assoc]
    refine reads _ result (quiet_symbol dot _ _ mark) ?_
    apply eventually_succ
    filter_upwards [suffixes] with fuel first
    have other : symbol (dot :: t :: rest) "'" = false := symbol_other dot _ _ _ mark (by decide)
    have here : symbol (dot :: t :: rest) "." = true := mark
    have name : parseName (t :: rest) = .ok (t, rest) := by
      unfold parseName
      rw [current_cons, if_pos kind, advance_cons t rest (read_name t kind)]
    change parseSuffixes (fuel + 1) e' (dot :: t :: rest) = _
    rw [parseSuffixes, other, if_neg (by decide), if_pos here, advance_cons _ _ (read_symbol dot _ mark), name]
    exact first

theorem name_reads {e : Expression} {ts : List Token} (name : ReadsName e ts) : Reads parsePrimary (Follows 6) e ts := by
  obtain ⟨e', tree, reads⟩ := name
  refine ⟨e', tree, ?_⟩
  intro rest follows
  refine reads rest _ follows.toQuiet ?_
  apply eventually_succ
  refine Eventually.of_forall ?_
  intro fuel
  rw [parseSuffixes, follows.tick, if_neg (by decide), follows.dot, if_neg (by decide), follows.opening,
    if_neg (by decide)]

/-! ### Indices, choices and arguments -/

/-- The next token is one of some symbols. -/
def Ends (marks : List String) (tokens : List Token) : Prop := ∃ mark ∈ marks, symbol tokens mark = true

theorem Ends.mono {marks marks' : List String} {tokens : List Token} (ends : Ends marks tokens)
    (more : marks ⊆ marks') : Ends marks' tokens := by
  obtain ⟨mark, listed, here⟩ := ends
  exact ⟨mark, more listed, here⟩

theorem ends_cons (marks : List String) (value : String) (listed : value ∈ marks) (t : Token) (rest : List Token)
    (mark : t.isSymbol value = true) : Ends marks (t :: rest) := ⟨value, listed, mark⟩

theorem Ends.follows {tokens : List Token} (ends : Ends [",", ")", "=>", "|"] tokens) : Follows (-1) tokens := by
  obtain ⟨value, listed, here⟩ := ends
  cases tokens with
  | nil => cases ((isSymbol_iff _ _).mp here).1
  | cons t rest =>
      have none_ : ∀ value ∈ [",", ")", "=>", "|"], precedence ⟨.Symbol, value, "", nowhere⟩ = -1 ∧
          value ≠ "." ∧ value ≠ "(" ∧ value ≠ "'" := by decide
      obtain ⟨below, dot, opening, tick⟩ := none_ value listed
      obtain ⟨kind, text⟩ := (isSymbol_iff _ _).mp here
      refine ⟨quiet_symbol t rest value here, symbol_other t rest value _ here dot,
        symbol_other t rest value _ here opening, symbol_other t rest value _ here tick, Int.le_of_eq ?_⟩
      obtain ⟨tKind, tText, canonical, span⟩ := t
      change tKind = .Symbol at kind
      change tText = value at text
      subst kind text
      exact below

theorem Ends.word {marks : List String} {tokens : List Token} (ends : Ends marks tokens) (value : String) :
    word tokens value = false := by
  obtain ⟨mark, -, here⟩ := ends
  refine Bool.eq_false_iff.mpr ?_
  intro isWord
  have symbol_ := ((isSymbol_iff _ _).mp here).1
  rw [((isWord_iff _ _).mp isWord).1] at symbol_
  cases symbol_

theorem Ends.other {marks : List String} {tokens : List Token} (ends : Ends marks tokens) (value : String)
    (apart : value ∉ marks) : symbol tokens value = false := by
  obtain ⟨mark, listed, here⟩ := ends
  refine Bool.eq_false_iff.mpr ?_
  intro same
  have text := ((isSymbol_iff _ _).mp here).2
  rw [((isSymbol_iff _ _).mp same).2] at text
  exact apart (text ▸ listed)

abbrev expressionParser (fuel : Nat) : List Token → Parsed := parseExpression fuel 0

theorem parseIndex_plain (expression : List Token → Parsed) (tokens rest : List Token) (e : Expression)
    (marks : List String) (first : expression tokens = .ok (e, rest)) (ends : Ends marks rest) :
    parseIndex expression tokens = .ok (e, rest) := by
  unfold parseIndex
  rw [first]
  change (if word rest "to" || word rest "downto" then _ else _) = _
  rw [ends.word, ends.word]
  rfl

theorem index_of_expression {e : Expression} {ts : List Token} (value : Reads expressionParser (Follows (-1)) e ts) :
    Reads (fun fuel => parseIndex (expressionParser fuel)) (Ends [",", ")", "=>", "|"]) e ts := by
  obtain ⟨e', tree, reads⟩ := value
  refine ⟨e', tree, ?_⟩
  intro rest ends
  filter_upwards [reads rest ends.follows] with fuel first
  exact parseIndex_plain _ _ rest e' _ first ends

theorem bare_range (direction : Token) (left right : Expression) :
    bare (range direction left right) = range direction (bare left) (bare right) := rfl

theorem range_reads {e e' : Expression} {ts us : List Token} (direction : Token)
    (left : Reads expressionParser (Follows (-1)) e ts) (right : Reads expressionParser (Follows (-1)) e' us)
    (known : direction.isWord "to" = true ∨ direction.isWord "downto" = true) :
    Reads (fun fuel => parseIndex (expressionParser fuel)) (Ends [",", ")", "=>", "|"])
      (range direction e e') (ts ++ direction :: us) := by
  obtain ⟨left', leftTree, leftReads⟩ := left
  obtain ⟨right', rightTree, rightReads⟩ := right
  refine ⟨range direction left' right', ?_, ?_⟩
  · rw [bare_range, leftTree, rightTree]
  · intro rest ends
    obtain ⟨kind, canonical⟩ : direction.kind = .Identifier ∧ (direction.canonical = "to" ∨ direction.canonical = "downto") := by
      rcases known with mark | mark
      · exact ⟨((isWord_iff _ _).mp mark).1, .inl ((isWord_iff _ _).mp mark).2⟩
      · exact ⟨((isWord_iff _ _).mp mark).1, .inr ((isWord_iff _ _).mp mark).2⟩
    have follows : Follows (-1) (direction :: (us ++ rest)) := by
      obtain ⟨directionKind, text, value, span⟩ := direction
      dsimp only at kind canonical
      subst kind
      rcases canonical with rfl | rfl
      · exact ⟨⟨List.cons_ne_nil _ _, nofun, rfl⟩, rfl, rfl, rfl, Int.le_of_eq rfl⟩
      · exact ⟨⟨List.cons_ne_nil _ _, nofun, rfl⟩, rfl, rfl, rfl, Int.le_of_eq rfl⟩
    filter_upwards [leftReads _ follows, rightReads rest ends.follows] with fuel first second
    have read : direction.kind ≠ .EndOfFile := by
      rw [kind]
      decide
    have here : (word (direction :: (us ++ rest)) "to" || word (direction :: (us ++ rest)) "downto") = true := by
      rw [Bool.or_eq_true]
      exact known
    rw [List.append_assoc, List.cons_append]
    unfold parseIndex
    rw [first]
    change (if word (direction :: (us ++ rest)) "to" || word (direction :: (us ++ rest)) "downto" then _ else _) = _
    rw [if_pos here, advance_cons _ _ read, second]
    rfl

theorem associate_stop (expression : List Token → Parsed) (e : Expression) (tokens : List Token)
    (last : symbol tokens "=>" = false) : associate expression e tokens = .ok (e, tokens) := by
  unfold associate
  rw [last, if_neg (by decide)]

/-- An arrow and what is associated. -/
theorem associate_reads {e' : Expression} {us : List Token} (arrow : Token) (mark : arrow.isSymbol "=>" = true)
    (right : Reads expressionParser (Follows (-1)) e' us) :
    ∃ right', bare right' = e' ∧ ∀ left rest, Ends [",", ")"] rest → ∀ᶠ fuel in atTop,
      associate (expressionParser fuel) left (arrow :: (us ++ rest)) =
        .ok (association (join left.span right'.span) left right', rest) := by
  obtain ⟨right', tree, reads⟩ := right
  refine ⟨right', tree, ?_⟩
  intro left rest ends
  filter_upwards [reads rest (ends.mono (by decide)).follows] with fuel first
  have here : symbol (arrow :: (us ++ rest)) "=>" = true := mark
  unfold associate
  rw [if_pos here, advance_cons _ _ (read_symbol arrow _ mark), first]
  rfl

theorem bare_association (span : SourceSpan) (left right : Expression) :
    bare (association span left right) = association nowhere (bare left) (bare right) := rfl

/-- An argument, which is read in one way at the first place and in another at the others. -/
def ReadsArgument (e : Expression) (ts : List Token) : Prop :=
  ∃ e', bare e' = e ∧ ∀ rest, Ends [",", ")"] rest →
    (∀ᶠ fuel in atTop, parseArgument (expressionParser fuel) (ts ++ rest) = .ok (e', rest)) ∧
    ∀ᶠ fuel in atTop, (do
      let (index, rest) ← parseIndex (expressionParser fuel) (ts ++ rest)
      associate (expressionParser fuel) index rest) = .ok (e', rest)

theorem actual_reads {e : Expression} {ts : List Token} (value : Reads expressionParser (Follows (-1)) e ts) :
    ReadsArgument e ts := by
  obtain ⟨e', tree, reads⟩ := value
  refine ⟨e', tree, ?_⟩
  intro rest ends
  have ends' : Ends [",", ")", "=>", "|"] rest := ends.mono (by decide)
  have stop (fuel : Nat) := associate_stop (expressionParser fuel) e' rest (ends.other "=>" (by decide))
  constructor
  · filter_upwards [reads rest ends'.follows] with fuel first
    unfold parseArgument
    rw [first]
    exact stop fuel
  · filter_upwards [reads rest ends'.follows] with fuel first
    rw [parseIndex_plain _ _ rest e' _ first ends]
    exact stop fuel

theorem named_reads {e e' : Expression} {ts us : List Token} (arrow : Token)
    (formal : Reads expressionParser (Follows (-1)) e ts) (right : Reads expressionParser (Follows (-1)) e' us)
    (mark : arrow.isSymbol "=>" = true) : ReadsArgument (association nowhere e e') (ts ++ arrow :: us) := by
  obtain ⟨left', leftTree, leftReads⟩ := formal
  obtain ⟨right', rightTree, rightReads⟩ := associate_reads arrow mark right
  refine ⟨association (join left'.span right'.span) left' right', ?_, ?_⟩
  · rw [bare_association, leftTree, rightTree]
  · intro rest ends
    have arrowEnds : Ends [",", ")", "=>", "|"] (arrow :: (us ++ rest)) := ends_cons _ _ (by decide) arrow _ mark
    rw [List.append_assoc, List.cons_append]
    constructor
    · filter_upwards [leftReads _ arrowEnds.follows, rightReads left' rest ends] with fuel first second
      unfold parseArgument
      rw [first]
      exact second
    · filter_upwards [leftReads _ arrowEnds.follows, rightReads left' rest ends] with fuel first second
      rw [parseIndex_plain _ _ _ left' _ first arrowEnds]
      exact second

theorem bare_aggregate (span : SourceSpan) (elements : List Expression) :
    bare (aggregate span elements) = aggregate nowhere (elements.map bare) := by
  rw [← bareList_map]
  rfl

/-- Choices are read up to the arrow after them. -/
def ReadsChoices (e : Expression) (ts : List Token) : Prop :=
  ∃ e', bare e' = e ∧ ∀ rest result, symbol rest "=>" = true →
    (∀ᶠ fuel in atTop, associate (expressionParser fuel) e' rest = result) →
    ∀ᶠ fuel in atTop, parseElement (expressionParser fuel) fuel (ts ++ rest) = result

theorem choice_reads {e : Expression} {ts : List Token}
    (one : Reads (fun fuel => parseIndex (expressionParser fuel)) (Ends [",", ")", "=>", "|"]) e ts) :
    ReadsChoices e ts := by
  obtain ⟨e', tree, reads⟩ := one
  refine ⟨e', tree, ?_⟩
  intro rest result arrow associated
  have ends : Ends ["=>"] rest := ⟨"=>", List.mem_singleton_self _, arrow⟩
  filter_upwards [reads rest (ends.mono (by decide)), associated] with fuel first second
  unfold parseElement
  rw [first]
  change (if symbol rest "|" then _ else _) = _
  rw [ends.other "|" (by decide)]
  exact second

theorem severalChoices_reads {e : Expression} {ts : List Token} {items : List (Token × Expression × List Token)}
    (first : Reads (fun fuel => parseIndex (expressionParser fuel)) (Ends [",", ")", "=>", "|"]) e ts)
    (more : ∀ item ∈ items, Reads (fun fuel => parseIndex (expressionParser fuel)) (Ends [",", ")", "=>", "|"])
      item.2.1 item.2.2)
    (bars : ∀ item ∈ items, item.1.isSymbol "|" = true) (several : items ≠ []) :
    ReadsChoices (aggregate nowhere (e :: trees items)) (ts ++ separated items) := by
  obtain ⟨e', tree, reads⟩ := first
  obtain ⟨es, same, all⟩ := parseSeparated_all "|" (fun fuel => parseIndex (expressionParser fuel))
    (Ends [",", ")", "=>", "|"]) items bars (ends_cons _ _ (by decide)) more
  refine ⟨aggregate e'.span (e' :: es), ?_, ?_⟩
  · rw [bare_aggregate, List.map_cons, tree, same]
  · intro rest result arrow associated
    have ends : Ends ["=>"] rest := ⟨"=>", List.mem_singleton_self _, arrow⟩
    have ends' : Ends [",", ")", "=>", "|"] rest := ends.mono (by decide)
    obtain ⟨item, others, rfl⟩ := List.exists_cons_of_ne_nil several
    have bar : symbol (separated (item :: others) ++ rest) "|" = true := bars item List.mem_cons_self
    have next : Ends [",", ")", "=>", "|"] (separated (item :: others) ++ rest) := ⟨"|", by decide, bar⟩
    filter_upwards [reads _ next, all rest ends' (ends.other "|" (by decide)), eventually_gt_atTop _, associated]
      with fuel one others_ enough last
    rw [List.append_assoc]
    unfold parseElement
    rw [one]
    change (if symbol (separated (item :: others) ++ rest) "|" then _ else _) = _
    rw [if_pos bar, others_ fuel enough [e']]
    change (if symbol rest "=>" then _ else _) = _
    rw [if_pos arrow]
    exact last

theorem positional_reads {e : Expression} {ts : List Token} (value : Reads expressionParser (Follows (-1)) e ts) :
    Reads (fun fuel => parseElement (expressionParser fuel) fuel) (Ends [",", ")"]) e ts := by
  obtain ⟨e', tree, reads⟩ := value
  refine ⟨e', tree, ?_⟩
  intro rest ends
  have ends' : Ends [",", ")", "=>", "|"] rest := ends.mono (by decide)
  filter_upwards [reads rest ends'.follows] with fuel first
  unfold parseElement
  rw [parseIndex_plain _ _ rest e' _ first ends]
  change (if symbol rest "|" then _ else _) = _
  rw [ends.other "|" (by decide)]
  exact associate_stop _ e' rest (ends.other "=>" (by decide))

theorem chosen_reads {e e' : Expression} {ts us : List Token} (arrow : Token) (left : ReadsChoices e ts)
    (right : Reads expressionParser (Follows (-1)) e' us) (mark : arrow.isSymbol "=>" = true) :
    Reads (fun fuel => parseElement (expressionParser fuel) fuel) (Ends [",", ")"])
      (association nowhere e e') (ts ++ arrow :: us) := by
  obtain ⟨left', leftTree, leftReads⟩ := left
  obtain ⟨right', rightTree, rightReads⟩ := associate_reads arrow mark right
  refine ⟨association (join left'.span right'.span) left' right', ?_, ?_⟩
  · rw [bare_association, leftTree, rightTree]
  · intro rest ends
    rw [List.append_assoc, List.cons_append]
    exact leftReads _ _ mark (rightReads left' rest ends)

/-! ### Parentheses -/

theorem ok_bind {α β : Type} (a : α) (next : α → Except Stop β) : (Except.ok a >>= next) = next a := rfl

theorem bind_eq_ok {α β : Type} (read : Except Stop α) (next : α → Except Stop β) (result : β)
    (same : read >>= next = .ok result) : ∃ a, read = .ok a ∧ next a = .ok result := by
  cases read with
  | error stop => cases same
  | ok a => exact ⟨a, rfl, same⟩

theorem expect_ok (t : Token) (rest : List Token) (value : String) (mark : t.isSymbol value = true) :
    expectSymbol (t :: rest) value = .ok (t.span, rest) := by
  have here : symbol (t :: rest) value = true := mark
  unfold expectSymbol
  rw [if_pos here, current_cons, advance_cons t rest (read_symbol t value mark)]

theorem parenthesis_step {opening : Token} {tokens : List Token} {result : Parsed} (some_ : tokens ≠ [])
    (mark : opening.isSymbol "(" = true)
    (inside : ∀ᶠ fuel in atTop, parseParenthesized (expressionParser fuel) fuel opening.span tokens = result) :
    ∀ᶠ fuel in atTop, parsePrimary fuel (opening :: tokens) = result := by
  apply eventually_succ
  filter_upwards [inside] with fuel first
  have here : symbol (opening :: tokens) "(" = true := mark
  have unary_ : isUnary opening = false := by
    obtain ⟨kind, text⟩ := (isSymbol_iff _ _).mp mark
    obtain ⟨openingKind, openingText, canonical, span⟩ := opening
    dsimp only at kind text
    subst kind text
    rfl
  rw [parsePrimary, not_extended_symbol opening tokens some_ _ mark, if_neg (by decide), current_cons, unary_,
    if_neg (by decide), if_pos here, advance_cons _ _ (read_symbol opening _ mark)]
  exact first

theorem bare_withSpan (span : SourceSpan) (e : Expression) : bare (withSpan span e) = bare e := by
  cases e
  rfl

theorem kind_bare (e : Expression) : (bare e).kind = e.kind := by
  cases e
  rfl

theorem ends_closing (closing : Token) (rest : List Token) (mark : closing.isSymbol ")" = true) :
    Ends [",", ")"] (closing :: rest) := ends_cons _ _ (by decide) closing rest mark

theorem parenthesized_reads {e : Expression} {ts : List Token} (opening closing : Token)
    (inside : Reads expressionParser (Follows (-1)) e ts) (some_ : ts ≠ [])
    (plain : ∀ rest, word (ts ++ rest) "others" = false) (kind : e.kind ≠ .Association)
    (mark : opening.isSymbol "(" = true) (mark' : closing.isSymbol ")" = true) :
    Reads parsePrimary (Follows 6) e (opening :: (ts ++ [closing])) := by
  obtain ⟨e', tree, reads⟩ := positional_reads inside
  refine ⟨withSpan (join opening.span closing.span) e', ?_, ?_⟩
  · rw [bare_withSpan, tree]
  · intro rest _
    have ends := ends_closing closing rest mark'
    have kind' : e'.kind ≠ .Association := by
      rw [← kind_bare, tree]
      exact kind
    rw [List.cons_append, List.append_assoc]
    refine parenthesis_step (by simp) mark ?_
    filter_upwards [reads _ ends] with fuel first
    unfold parseParenthesized
    rw [plain, if_neg (by decide)]
    have first' : parseElement (expressionParser fuel) fuel (ts ++ ([closing] ++ rest)) = .ok (e', closing :: rest) := first
    rw [first']
    change (if symbol (closing :: rest) "," || e'.kind = .Association then _ else _) = _
    have last : (symbol (closing :: rest) "," || decide (e'.kind = .Association)) = false := by
      rw [symbol_other closing rest _ _ mark' (by decide), decide_eq_false kind']
      rfl
    rw [last, if_neg (by decide), expect_ok closing rest _ mark']
    rfl

theorem bare_others (span : SourceSpan) (value : Expression) : bare (others span value) = others nowhere (bare value) := rfl

theorem others_reads {e : Expression} {ts : List Token} (opening otherwise arrow closing : Token)
    (value : Reads expressionParser (Follows (-1)) e ts) (mark : opening.isSymbol "(" = true)
    (known : otherwise.isWord "others" = true) (mark' : arrow.isSymbol "=>" = true)
    (mark'' : closing.isSymbol ")" = true) :
    Reads parsePrimary (Follows 6) (others nowhere e) (opening :: otherwise :: arrow :: (ts ++ [closing])) := by
  obtain ⟨e', tree, reads⟩ := value
  refine ⟨others (join opening.span closing.span) e', ?_, ?_⟩
  · rw [bare_others, tree]
  · intro rest _
    have ends : Ends [",", ")", "=>", "|"] (closing :: rest) := (ends_closing closing rest mark'').mono (by decide)
    refine parenthesis_step (by simp) mark ?_
    filter_upwards [reads _ ends.follows] with fuel first
    have layout : ts ++ [closing] ++ rest = ts ++ closing :: rest := List.append_assoc ts [closing] rest
    have here : word (otherwise :: arrow :: (ts ++ closing :: rest)) "others" = true := known
    have read : otherwise.kind ≠ .EndOfFile := by
      rw [((isWord_iff _ _).mp known).1]
      decide
    change parseParenthesized _ _ _ (otherwise :: arrow :: (ts ++ [closing] ++ rest)) = _
    unfold parseParenthesized
    rw [layout, if_pos here, advance_cons _ _ read, expect_ok arrow _ _ mark']
    simp only [ok_bind]
    rw [first]
    simp only [ok_bind]
    rw [expect_ok closing rest _ mark'']
    rfl

/-- The word `others` before an arrow. -/
theorem otherElements_reads {e : Expression} {ts : List Token} (otherwise arrow : Token)
    (value : Reads expressionParser (Follows (-1)) e ts) (known : otherwise.isWord "others" = true)
    (mark : arrow.isSymbol "=>" = true) :
    Reads (fun fuel => parseElement (expressionParser fuel) fuel) (Ends [",", ")"])
      (association nowhere (leaf .Name otherwise.text otherwise.canonical nowhere) e) (otherwise :: arrow :: ts) := by
  obtain ⟨kind, canonical⟩ := (isWord_iff _ _).mp known
  have isName : otherwise.isName = true := by
    unfold Token.isName
    rw [kind]
    rfl
  have free : ∀ w ∈ operatorWords, otherwise.isWord w = false := by
    have apart : ∀ w ∈ operatorWords, "others" ≠ w := by decide
    intro w listed
    refine Bool.eq_false_iff.mpr ?_
    intro same
    exact apart w listed (canonical.symm.trans ((isWord_iff _ _).mp same).2)
  have name := name_reads (simpleName_reads otherwise isName free)
  have operand : Operand 6 6 _ _ := Operand.ofPrimary name
  have left := choice_reads (index_of_expression (operand.reads 0 (-1) (by decide) (by decide) (by decide)))
  exact chosen_reads arrow left value mark

theorem aggregate_reads {e : Expression} {ts : List Token} {items : List (Token × Expression × List Token)}
    (opening closing : Token)
    (first : Reads (fun fuel => parseElement (expressionParser fuel) fuel) (Ends [",", ")"]) e ts)
    (more : ∀ item ∈ items, Reads (fun fuel => parseElement (expressionParser fuel) fuel) (Ends [",", ")"])
      item.2.1 item.2.2)
    (commas : ∀ item ∈ items, item.1.isSymbol "," = true) (several : items ≠ [] ∨ e.kind = .Association)
    (plain : ∀ rest, word (ts ++ rest) "others" = false) (mark : opening.isSymbol "(" = true)
    (mark' : closing.isSymbol ")" = true) :
    Reads parsePrimary (Follows 6) (aggregate nowhere (e :: trees items))
      (opening :: (ts ++ (separated items ++ [closing]))) := by
  obtain ⟨e', tree, reads⟩ := first
  obtain ⟨es, same, all⟩ := parseSeparated_all "," (fun fuel => parseElement (expressionParser fuel) fuel)
    (Ends [",", ")"]) items commas (ends_cons _ _ (by decide)) more
  refine ⟨aggregate (join opening.span closing.span) (e' :: es), ?_, ?_⟩
  · rw [bare_aggregate, List.map_cons, tree, same]
  · intro rest _
    have ends := ends_closing closing rest mark'
    have last := symbol_other closing rest _ "," mark' (by decide)
    have next : Ends [",", ")"] (separated items ++ closing :: rest) := by
      cases items with
      | nil => exact ends
      | cons item others => exact ⟨",", by decide, commas item List.mem_cons_self⟩
    have go : (symbol (separated items ++ closing :: rest) "," || decide (e'.kind = .Association)) = true := by
      rw [Bool.or_eq_true, decide_eq_true_eq, ← kind_bare, tree]
      rcases several with some_ | kind
      · obtain ⟨item, others, rfl⟩ := List.exists_cons_of_ne_nil some_
        exact .inl (commas item List.mem_cons_self)
      · exact .inr kind
    have layout : opening :: (ts ++ (separated items ++ [closing])) ++ rest =
        opening :: (ts ++ (separated items ++ closing :: rest)) := by simp
    rw [layout]
    refine parenthesis_step (by simp) mark ?_
    filter_upwards [reads _ next, all _ ends last, eventually_gt_atTop _] with fuel one others_ enough
    unfold parseParenthesized
    rw [plain, if_neg (by decide), one]
    change (if symbol (separated items ++ closing :: rest) "," || e'.kind = .Association then _ else _) = _
    rw [if_pos go, others_ fuel enough [e']]
    simp only [ok_bind]
    rw [expect_ok closing rest _ mark']
    rfl

/-! ### Indexed names and calls -/

theorem arguments_step {e : Expression} {opening : Token} {tokens rest : List Token} {next : Expression}
    {result : Parsed} (mark : opening.isSymbol "(" = true)
    (inside : ∀ᶠ fuel in atTop, parseArguments (expressionParser fuel) fuel e tokens = .ok (next, rest))
    (suffixes : ∀ᶠ fuel in atTop, parseSuffixes fuel next rest = result) :
    ∀ᶠ fuel in atTop, parseSuffixes fuel e (opening :: tokens) = result := by
  apply eventually_succ
  filter_upwards [inside, suffixes] with fuel first second
  have tick := symbol_other opening tokens _ "'" mark (by decide)
  have dot := symbol_other opening tokens _ "." mark (by decide)
  have here : symbol (opening :: tokens) "(" = true := mark
  rw [parseSuffixes, tick, if_neg (by decide), dot, if_neg (by decide), if_pos here,
    advance_cons _ _ (read_symbol opening _ mark), first]
  exact second

theorem bare_indexed (span : SourceSpan) (left index : Expression) :
    bare (indexed span left index) = indexed nowhere (bare left) (bare index) := rfl

theorem bare_call (span : SourceSpan) (left : Expression) (arguments : List Expression) :
    bare (call span left arguments) = call nowhere (bare left) (arguments.map bare) := by
  rw [← bareList_map]
  rfl

theorem indexed_reads {e i : Expression} {ts us : List Token} (opening closing : Token) (left : ReadsName e ts)
    (index : Reads (fun fuel => parseIndex (expressionParser fuel)) (Ends [",", ")", "=>", "|"]) i us)
    (kind : i.kind ≠ .Association) (mark : opening.isSymbol "(" = true) (mark' : closing.isSymbol ")" = true) :
    ReadsName (indexed nowhere e i) (ts ++ opening :: (us ++ [closing])) := by
  obtain ⟨e', tree, reads⟩ := left
  obtain ⟨i', indexTree, indexReads⟩ := index
  refine ⟨indexed (join e'.span closing.span) e' i', ?_, ?_⟩
  · rw [bare_indexed, tree, indexTree]
  · intro rest result quiet suffixes
    have ends := ends_closing closing rest mark'
    have kind' : i'.kind ≠ .Association := by
      rw [← kind_bare, indexTree]
      exact kind
    have layout : ts ++ opening :: (us ++ [closing]) ++ rest = ts ++ opening :: (us ++ closing :: rest) := by simp
    rw [layout]
    refine reads _ result (quiet_symbol opening _ _ mark) (arguments_step mark ?_ suffixes)
    filter_upwards [indexReads _ (ends.mono (by decide))] with fuel first
    have last : (symbol (closing :: rest) "," || decide (i'.kind = .Association)) = false := by
      rw [symbol_other closing rest _ _ mark' (by decide), decide_eq_false kind']
      rfl
    unfold parseArguments
    rw [first]
    simp only [ok_bind]
    rw [associate_stop _ _ _ (ends.other "=>" (by decide))]
    change (if symbol (closing :: rest) "," || i'.kind = .Association then _ else _) = _
    rw [last, if_neg (by decide), expect_ok closing rest _ mark']
    rfl

theorem call_reads {e a : Expression} {ts us : List Token} {items : List (Token × Expression × List Token)}
    (opening closing : Token) (left : ReadsName e ts) (first : ReadsArgument a us)
    (more : ∀ item ∈ items, ReadsArgument item.2.1 item.2.2) (commas : ∀ item ∈ items, item.1.isSymbol "," = true)
    (several : items ≠ [] ∨ a.kind = .Association) (mark : opening.isSymbol "(" = true)
    (mark' : closing.isSymbol ")" = true) :
    ReadsName (call nowhere e (a :: trees items)) (ts ++ opening :: (us ++ (separated items ++ [closing]))) := by
  obtain ⟨e', tree, reads⟩ := left
  obtain ⟨a', argumentTree, argumentReads⟩ := first
  have rest_ : ∀ item ∈ items, Reads (fun fuel => parseArgument (expressionParser fuel)) (Ends [",", ")"])
      item.2.1 item.2.2 := by
    intro item member
    obtain ⟨other, otherTree, otherReads⟩ := more item member
    exact ⟨other, otherTree, fun rest ends => (otherReads rest ends).1⟩
  obtain ⟨es, same, all⟩ := parseSeparated_all "," (fun fuel => parseArgument (expressionParser fuel))
    (Ends [",", ")"]) items commas (ends_cons _ _ (by decide)) rest_
  refine ⟨call (join e'.span closing.span) e' (a' :: es), ?_, ?_⟩
  · rw [bare_call, List.map_cons, tree, argumentTree, same]
  · intro rest result quiet suffixes
    have ends := ends_closing closing rest mark'
    have last := symbol_other closing rest _ "," mark' (by decide)
    have next : Ends [",", ")"] (separated items ++ closing :: rest) := by
      cases items with
      | nil => exact ends
      | cons item others => exact ⟨",", by decide, commas item List.mem_cons_self⟩
    have go : (symbol (separated items ++ closing :: rest) "," || decide (a'.kind = .Association)) = true := by
      rw [Bool.or_eq_true, decide_eq_true_eq, ← kind_bare, argumentTree]
      rcases several with some_ | kind
      · obtain ⟨item, others, rfl⟩ := List.exists_cons_of_ne_nil some_
        exact .inl (commas item List.mem_cons_self)
      · exact .inr kind
    have layout : ts ++ opening :: (us ++ (separated items ++ [closing])) ++ rest =
        ts ++ opening :: (us ++ (separated items ++ closing :: rest)) := by simp
    rw [layout]
    refine reads _ result (quiet_symbol opening _ _ mark) (arguments_step mark ?_ suffixes)
    filter_upwards [(argumentReads _ next).2, all _ ends last, eventually_gt_atTop _] with fuel one others_ enough
    -- the argument is the index with what `associate` makes of it
    obtain ⟨⟨index, indexRest⟩, read, associated⟩ := bind_eq_ok _ _ _ one
    simp only at associated
    unfold parseArguments
    rw [read]
    simp only [ok_bind]
    rw [associated]
    change (if symbol (separated items ++ closing :: rest) "," || a'.kind = .Association then _ else _) = _
    rw [if_pos go, others_ fuel enough [a']]
    simp only [ok_bind]
    rw [expect_ok closing rest _ mark']
    rfl

/-! ### Phrases -/

/-- How the parser reads a phrase. -/
def Read : Phrase → Expression → List Token → Prop
  | .name => ReadsName
  | .primary => Reads parsePrimary (Follows 6)
  | .factor => Operand 6 5
  | .term => Operand 5 5
  | .simple => Operand 4 4
  | .relation => Operand 3 2
  | .logical op => Operand (level op) (level op)
  | .expression => Reads expressionParser (Follows (-1))
  | .index => Reads (fun fuel => parseIndex (expressionParser fuel)) (Ends [",", ")", "=>", "|"])
  | .choices => ReadsChoices
  | .element => Reads (fun fuel => parseElement (expressionParser fuel) fuel) (Ends [",", ")"])
  | .further => Reads (fun fuel => parseElement (expressionParser fuel) fuel) (Ends [",", ")"])
  | .argument => ReadsArgument

theorem level_bounds (op : String) : 1 ≤ level op ∧ level op ≤ 2 := by
  unfold level
  split
  · decide
  · decide

theorem logical_of_chain (op : Token) (known : ["and", "or", "xor", "xnor"].any op.spells = true) : isLogical op = true := by
  obtain ⟨value, listed, spelled⟩ := List.any_eq_true.mp known
  have all : ∀ value ∈ ["and", "or", "xor", "xnor"], value ∈ ["and", "or", "nand", "nor", "xor", "xnor"] := by decide
  exact List.any_eq_true.mpr ⟨value, all value listed, spelled⟩

theorem unaryWord_reads {e : Expression} {ts : List Token} (op : Token) (some_ : ts ≠ [])
    (known : op.spells "not" = true ∨ op.spells "abs" = true ∨ isLogical op = true)
    (operand : Reads parsePrimary (Follows 6) e ts) :
    Reads parsePrimary (Follows 6) (unary nowhere op e) (op :: ts) := by
  obtain ⟨value, listed, spelled⟩ : ∃ value ∈ operatorWords, op.spells value = true := by
    rcases known with mark | mark | mark
    · exact ⟨"not", by decide, mark⟩
    · exact ⟨"abs", by decide, mark⟩
    · obtain ⟨value, inside, spelled⟩ := List.any_eq_true.mp mark
      have all : ∀ value ∈ ["and", "or", "nand", "nor", "xor", "xnor"], value ∈ operatorWords := by decide
      exact ⟨value, all value inside, spelled⟩
  have facts : ∀ value ∈ operatorWords, bitStringBase ⟨.Identifier, "", value, nowhere⟩ = false ∧
      "+".toList.map Char.toLower ≠ value.toList ∧ "-".toList.map Char.toLower ≠ value.toList := by decide
  obtain ⟨plain, plus, minus⟩ := facts value listed
  obtain ⟨kind, canonical, letters⟩ := (spells_iff op value).mp spelled
  refine unary_reads op some_ ?_ ?_ ⟨?_, ?_⟩ ?_ operand
  · intro rest more
    exact not_extended_word op rest more value spelled plain
  · unfold isUnary
    have word_ : ["not", "abs", "and", "or", "nand", "nor", "xor", "xnor"].any op.isWord = true :=
      List.any_eq_true.mpr ⟨value, listed, (isWord_iff op value).mpr ⟨kind, canonical⟩⟩
    rw [word_, Bool.or_true]
  · intro text
    rw [text] at letters
    exact plus letters
  · intro text
    rw [text] at letters
    exact minus letters
  · rw [kind]
    decide

theorem condition_reads {e : Expression} {ts : List Token} (op : Token) (some_ : ts ≠ []) (mark : op.isSymbol "??" = true)
    (operand : Reads parsePrimary (Follows 6) e ts) :
    Reads parsePrimary (Follows 6) (unary nowhere op e) (op :: ts) := by
  obtain ⟨-, text⟩ := (isSymbol_iff op _).mp mark
  refine unary_reads op some_ (fun rest more => not_extended_symbol op rest more _ mark) ?_ ?_ (read_symbol op _ mark) operand
  · unfold isUnary
    rw [mark]
    rfl
  · rw [text]
    decide

/-- From the tokens of a phrase the parser builds its tree, whatever comes after them. -/
theorem Prints.read {phrase : Phrase} {e : Expression} {ts : List Token} (printed : Prints phrase e ts) :
    Read phrase e ts := by
  induction printed with
  | simpleName t kind free choice => exact simpleName_reads t kind free
  | attributeName tick t left mark kind ih => exact attribute_reads tick t ih mark kind
  | selected dot t left mark kind ih => exact selected_reads dot t ih mark kind
  | indexed opening closing left index mark mark' ih ih' =>
      exact indexed_reads opening closing ih ih' (index.kind (by decide)) mark mark'
  | call opening closing left first more commas several mark mark' ih ih' ih'' =>
      exact call_reads opening closing ih ih' ih'' commas several mark mark'
  | ofName name ih => exact name_reads ih
  | literal t kind known => exact literal_reads t kind known
  | bitString base t known text => exact bitString_reads base t known text
  | basedString base t known long text parsed => exact basedString_reads base t known long text parsed
  | sizedString length base t number known text parsed => exact sizedString_reads length base t number known text parsed
  | parenthesized opening closing inside mark mark' ih =>
      have begins := inside.begins nofun
      exact parenthesized_reads opening closing ih begins.some begins.word (inside.kind (by decide)) mark mark'
  | others opening otherwise arrow closing value mark known mark' mark'' ih =>
      exact others_reads opening otherwise arrow closing ih mark known mark' mark''
  | aggregate opening closing first more commas several mark mark' ih ih' =>
      exact aggregate_reads opening closing ih ih' commas several (first.begins nofun).word mark mark'
  | ofPrimary primary ih => exact Operand.ofPrimary (ih.mono (fun rest follows => follows.mono (by decide)))
  | power op left right mark ih ih' => exact power_operand op mark ih ih'
  | unaryWord op operand known ih =>
      have reads := unaryWord_reads op (operand.begins nofun).some known ih
      exact Operand.ofPrimary (reads.mono (fun rest follows => follows.mono (by decide)))
  | ofFactor factor ih => exact Operand.mono ih (by decide) (by decide)
  | multiplying op left right known ih ih' =>
      exact Operand.binary (multiplying_operator op known) ih (by decide)
        (Operand.reads ih' 6 5 (by decide) (by decide) (by decide)) (by decide)
  | ofTerm term ih => exact Operand.mono ih (by decide) (by decide)
  | sign op operand known ih =>
      have reads := Operand.reads ih 5 4 (by decide) (by decide) (by decide)
      exact Operand.ofPrimary (sign_reads op (operand.begins nofun).some known reads)
  | adding op left right known ih ih' =>
      exact Operand.binary (adding_operator op known) ih (by decide)
        (Operand.reads ih' 5 4 (by decide) (by decide) (by decide)) (by decide)
  | ofSimple simple ih => exact Operand.mono ih (by decide) (by decide)
  | relational op left right known ih ih' =>
      have operand := Operand.binary (relational_operator op known) ih (by decide)
        (Operand.reads ih' 4 3 (by decide) (by decide) (by decide)) (by decide)
      exact operand.mono (by decide) (by decide)
  | pair op left right known ih ih' =>
      obtain ⟨-, most⟩ := level_bounds op.canonical
      exact Operand.binary (logical_operator op known) ih most
        (Operand.reads ih' _ _ (by omega) most (by omega)) (by omega)
  | chain op left right known ih ih' =>
      obtain ⟨-, most⟩ := level_bounds op.canonical
      exact Operand.binary (logical_operator op (logical_of_chain op known)) ih (Int.le_refl _)
        (Operand.reads ih' _ _ (by omega) most (by omega)) (Int.le_refl _)
  | ofRelation relation ih => exact Operand.reads ih 0 (-1) (by decide) (by decide) (by decide)
  | ofLogical op logical ih =>
      obtain ⟨least, -⟩ := level_bounds op
      exact Operand.reads ih 0 (-1) (by omega) (by omega) (by decide)
  | condition op operand mark ih =>
      have operand' : Operand 0 6 _ _ := Operand.ofPrimary (condition_reads op (operand.begins nofun).some mark ih)
      exact operand'.reads 0 (-1) (by decide) (by decide) (by decide)
  | ofExpression value ih => exact index_of_expression ih
  | range direction left right known ih ih' =>
      exact range_reads direction (Operand.reads ih 0 (-1) (by decide) (by decide) (by decide))
        (Operand.reads ih' 0 (-1) (by decide) (by decide) (by decide)) known
  | choice one ih => exact choice_reads ih
  | severalChoices first more bars several ih ih' => exact severalChoices_reads ih ih' bars several
  | positional value ih => exact positional_reads ih
  | chosen arrow left right mark ih ih' => exact chosen_reads arrow ih ih' mark
  | ofElement element ih => exact ih
  | otherElements otherwise arrow value known mark ih => exact otherElements_reads otherwise arrow ih known mark
  | actual value ih => exact actual_reads ih
  | named arrow formal right mark ih ih' => exact named_reads arrow ih ih' mark

/-- No tokens print two trees. -/
theorem Prints.unique {e e' : Expression} {ts : List Token} (first : Prints .expression e ts)
    (second : Prints .expression e' ts) : e = e' := by
  have follows : Follows (-1) [endOfFile] := ⟨⟨List.cons_ne_nil _ _, nofun, rfl⟩, rfl, rfl, rfl, Int.le_of_eq rfl⟩
  obtain ⟨e₁, tree, reads⟩ := first.read
  obtain ⟨e₂, tree', reads'⟩ := second.read
  obtain ⟨fuel, one, other⟩ := ((reads _ follows).and (reads' _ follows)).exists
  rw [one] at other
  cases other
  exact tree.symm.trans tree'

end Naja.Vhdl.Parser
