import Naja.Vhdl.BitStrings

/-! The expression parser: primaries with their suffixes, and a loop over the binary
operators of a precedence. Every call spends one unit of fuel. -/

namespace Naja.Vhdl.Parser

/-- Why no tree was returned: the parser reported an error, or the fuel ran out. -/
inductive Stop where
  | outOfFuel
  | reported (diagnostic : Diagnostic)

abbrev Parsed := Except Stop (Expression × List Token)

/-! ### Tokens -/

def nowhere : SourceSpan := ⟨⟨0, 1, 1⟩, ⟨0, 1, 1⟩⟩

def endOfFile : Token := ⟨.EndOfFile, "", "", nowhere⟩

/-- The token at a distance from the current one; the last one is the end of the file. -/
def look (tokens : List Token) (distance : Nat) : Token := tokens[distance]?.getD (tokens.getLastD endOfFile)

def current (tokens : List Token) : Token := look tokens 0

def advance (tokens : List Token) : List Token := if (current tokens).kind = .EndOfFile then tokens else tokens.drop 1

def Token.isWord (token : Token) (value : String) : Bool := token.kind == .Identifier && token.canonical == value

def Token.isSymbol (token : Token) (value : String) : Bool := token.kind == .Symbol && token.text == value

def word (tokens : List Token) (value : String) : Bool := (current tokens).isWord value

def symbol (tokens : List Token) (value : String) : Bool := (current tokens).isSymbol value

/-- The span of the accepted symbol and the tokens after it. -/
def expectSymbol (tokens : List Token) (value : String) : Except Stop (SourceSpan × List Token) :=
  if symbol tokens value then .ok ((current tokens).span, advance tokens)
  else .error (.reported ⟨"expected '" ++ value ++ "'", (current tokens).span⟩)

def Token.isName (token : Token) : Bool := token.kind == .Identifier || token.kind == .ExtendedIdentifier

def parseName (tokens : List Token) : Except Stop (Token × List Token) :=
  if (current tokens).isName then .ok (current tokens, advance tokens)
  else .error (.reported ⟨"expected an identifier", (current tokens).span⟩)

def join (first last : SourceSpan) : SourceSpan := ⟨first.start, last.stop⟩

/-! ### Operators -/

def precedence (token : Token) : Int :=
  if token.isWord "or" || token.isWord "nor" || token.isWord "xor" || token.isWord "xnor" then 1
  else if token.isWord "and" || token.isWord "nand" then 2
  else if token.isSymbol "=" || token.isSymbol "/=" || token.isSymbol "<" || token.isSymbol "<=" ||
      token.isSymbol ">" || token.isSymbol ">=" then 3
  else if token.isSymbol "+" || token.isSymbol "-" || token.isSymbol "&" then 4
  else if token.isSymbol "*" || token.isSymbol "/" || token.isWord "mod" || token.isWord "rem" then 5
  else if token.isSymbol "**" then 6
  else -1

/-- The table again, for a token that has been taken. -/
def opPrecedence (op : Token) : Int :=
  if op.kind == .Identifier && ["or", "nor", "xor", "xnor"].contains op.canonical then 1
  else if op.kind == .Identifier && ["and", "nand"].contains op.canonical then 2
  else if op.kind == .Identifier && ["mod", "rem"].contains op.canonical then 5
  else if ["=", "/=", "<", "<=", ">", ">="].contains op.text then 3
  else if ["+", "-", "&"].contains op.text then 4
  else if ["*", "/"].contains op.text then 5
  else if op.text == "**" then 6
  else -1

def operatorText (op : Token) : String := if op.kind = .Identifier then op.canonical else op.text

def isUnary (token : Token) : Bool :=
  token.isSymbol "??" || token.isSymbol "+" || token.isSymbol "-" ||
    ["not", "abs", "and", "or", "nand", "nor", "xor", "xnor"].any token.isWord

/-! ### Nodes -/

def leaf (kind : ExpressionKind) (text canonical : String) (span : SourceSpan) : Expression :=
  .mk kind text canonical span none none none []

def nameNode (name : Token) : Expression := leaf .Name name.text name.canonical name.span

def unary (span : SourceSpan) (op : Token) (operand : Expression) : Expression :=
  .mk .Unary (operatorText op) "" span (some operand) none none []

def binary (span : SourceSpan) (op : Token) (left right : Expression) : Expression :=
  .mk .Binary (operatorText op) "" span (some left) (some right) none []

/-- An attribute or a selected element. -/
def suffix (kind : ExpressionKind) (span : SourceSpan) (left : Expression) (name : Token) : Expression :=
  .mk kind name.text name.canonical span (some left) none none []

def indexed (span : SourceSpan) (left index : Expression) : Expression :=
  .mk .Indexed "" "" span (some left) (some index) none []

def call (span : SourceSpan) (left : Expression) (arguments : List Expression) : Expression :=
  .mk .Call "" "" span (some left) none none arguments

def range (direction : Token) (left right : Expression) : Expression :=
  .mk .Range direction.canonical "" nowhere (some left) (some right) none []

def association (span : SourceSpan) (left right : Expression) : Expression :=
  .mk .Association "" "" span (some left) (some right) none []

def aggregate (span : SourceSpan) (elements : List Expression) : Expression :=
  .mk .Aggregate "" "" span none none none elements

def others (span : SourceSpan) (value : Expression) : Expression := .mk .Others "" "" span (some value) none none []

def withSpan (span : SourceSpan) : Expression → Expression
  | .mk kind text canonical _ left right condition elements =>
      .mk kind text canonical span left right condition elements

/-! ### Lists -/

/-- A list of items between separators, after its first items. -/
def parseSeparated (separator : String) (item : List Token → Parsed) :
    Nat → List Expression → List Token → Except Stop (List Expression × List Token)
  | 0, _, _ => .error .outOfFuel
  | fuel + 1, items, tokens =>
      if symbol tokens separator then do
        let (e, rest) ← item (advance tokens)
        parseSeparated separator item fuel (items ++ [e]) rest
      else .ok (items, tokens)

/-! The functions below take the parser of whole expressions, `parseExpression(0)`. -/

section
variable (expression : List Token → Parsed) (fuel : Nat)

def parseIndex (tokens : List Token) : Parsed := do
  let (left, rest) ← expression tokens
  if word rest "to" || word rest "downto" then
    let (right, last) ← expression (advance rest)
    .ok (range (current rest) left right, last)
  else .ok (left, rest)

def associate (actual : Expression) (tokens : List Token) : Parsed :=
  if symbol tokens "=>" then do
    let (right, rest) ← expression (advance tokens)
    .ok (association (join actual.span right.span) actual right, rest)
  else .ok (actual, tokens)

def parseElement (tokens : List Token) : Parsed := do
  let (element, rest) ← parseIndex expression tokens
  if symbol rest "|" then
    let (choices, rest) ← parseSeparated "|" (parseIndex expression) fuel [element] rest
    if symbol rest "=>" then associate expression (aggregate element.span choices) rest
    else .error (.reported ⟨"aggregate choices require an association", (current rest).span⟩)
  else associate expression element rest

def parseArgument (tokens : List Token) : Parsed := do
  let (argument, rest) ← expression tokens
  associate expression argument rest

/-- What follows an opening parenthesis that begins a primary. -/
def parseParenthesized (start : SourceSpan) (tokens : List Token) : Parsed :=
  if word tokens "others" then do
    let (_, rest) ← expectSymbol (advance tokens) "=>"
    let (value, rest) ← expression rest
    let (close, rest) ← expectSymbol rest ")"
    .ok (others (join start close) value, rest)
  else do
    let (nested, rest) ← parseElement expression fuel tokens
    if symbol rest "," || nested.kind = .Association then
      let (elements, rest) ← parseSeparated "," (parseElement expression fuel) fuel [nested] rest
      let (close, rest) ← expectSymbol rest ")"
      .ok (aggregate (join start close) elements, rest)
    else
      let (close, rest) ← expectSymbol rest ")"
      .ok (withSpan (join start close) nested, rest)

/-- An opening parenthesis after a name begins an index or the arguments of a call. -/
def parseArguments (name : Expression) (tokens : List Token) : Parsed := do
  let (index, rest) ← parseIndex expression tokens
  let (index, rest) ← associate expression index rest
  if symbol rest "," || index.kind = .Association then
    let (arguments, rest) ← parseSeparated "," (parseArgument expression) fuel [index] rest
    let (close, rest) ← expectSymbol rest ")"
    .ok (call (join name.span close) name arguments, rest)
  else
    let (close, rest) ← expectSymbol rest ")"
    .ok (indexed (join name.span close) name index, rest)

end

/-! ### Expressions -/

/-- The tokens at which a bit string with a length or a longer base begins. -/
def isExtendedBitString (tokens : List Token) : Bool :=
  ((current tokens).kind == .IntegerLiteral && bitStringBase (look tokens 1) && (look tokens 2).kind == .StringLiteral) ||
    (bitStringBase (current tokens) && (current tokens).canonical.length != 1 && (look tokens 1).kind == .StringLiteral) ||
    (word tokens "d" && (look tokens 1).kind == .StringLiteral)

def extendedBitString (tokens : List Token) : Parsed :=
  let parsed :=
    if (current tokens).kind = .IntegerLiteral then
      (parseExtendedBitString (some (current tokens)) (look tokens 1) (look tokens 2), tokens.drop 3)
    else (parseExtendedBitString none (current tokens) (look tokens 1), tokens.drop 2)
  match parsed.1 with
  | .error diagnostic => .error (.reported diagnostic)
  | .ok e => .ok (e, parsed.2)

def literalKind : TokenKind → Option ExpressionKind
  | .IntegerLiteral => some .IntegerLiteral
  | .RealLiteral => some .RealLiteral
  | .StringLiteral => some .StringLiteral
  | .CharacterLiteral => some .CharacterLiteral
  | _ => none

def parseLiteral (tokens : List Token) : Parsed :=
  match literalKind (current tokens).kind with
  | none => .error (.reported ⟨"expected a name, literal, or parenthesized expression", (current tokens).span⟩)
  | some kind => .ok (leaf kind (current tokens).text "" (current tokens).span, advance tokens)

mutual

def parseExpression : Nat → Int → List Token → Parsed
  | 0, _, _ => .error .outOfFuel
  | fuel + 1, minimumPrecedence, tokens => do
      let (left, rest) ← parsePrimary fuel tokens
      parseOperators fuel minimumPrecedence left rest

def parseOperators : Nat → Int → Expression → List Token → Parsed
  | 0, _, _, _ => .error .outOfFuel
  | fuel + 1, minimumPrecedence, left, tokens =>
      if minimumPrecedence ≤ precedence (current tokens) then do
        let op := current tokens
        let (right, rest) ← parseExpression fuel (opPrecedence op + if op.text = "**" then 0 else 1) (advance tokens)
        parseOperators fuel minimumPrecedence (binary (join left.span right.span) op left right) rest
      else .ok (left, tokens)

def parsePrimary : Nat → List Token → Parsed
  | 0, _ => .error .outOfFuel
  | fuel + 1, tokens =>
      if isExtendedBitString tokens then extendedBitString tokens
      else if isUnary (current tokens) then do
        let op := current tokens
        let (operand, rest) ←
          if op.text = "+" ∨ op.text = "-" then parseExpression fuel 5 (advance tokens)
          else parsePrimary fuel (advance tokens)
        .ok (unary (join op.span operand.span) op operand, rest)
      else if symbol tokens "(" then
        parseParenthesized (parseExpression fuel 0) fuel (current tokens).span (advance tokens)
      else if ["x", "b", "o"].any (word tokens) && (look tokens 1).kind == .StringLiteral then
        .ok (leaf .BitStringLiteral (look tokens 1).text (current tokens).canonical (look tokens 1).span, tokens.drop 2)
      else if (current tokens).isName then parseSuffixes fuel (nameNode (current tokens)) (advance tokens)
      else parseLiteral tokens

def parseSuffixes : Nat → Expression → List Token → Parsed
  | 0, _, _ => .error .outOfFuel
  | fuel + 1, e, tokens =>
      if symbol tokens "'" then do
        let (name, rest) ← parseName (advance tokens)
        parseSuffixes fuel (suffix .Attribute (join e.span name.span) e name) rest
      else if symbol tokens "." then do
        let (field, rest) ← parseName (advance tokens)
        parseSuffixes fuel (suffix .Selected (join e.span field.span) e field) rest
      else if symbol tokens "(" then do
        let (e, rest) ← parseArguments (parseExpression fuel 0) fuel e (advance tokens)
        parseSuffixes fuel e rest
      else .ok (e, tokens)

end

end Naja.Vhdl.Parser
