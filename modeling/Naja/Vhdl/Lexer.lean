import Naja.Vhdl.BitStrings

/-! The lexer. A source is the list of its bytes, each as the character of its number. The
scanner keeps what is left of the source and its position; a token is scanned from the
bytes that are left. -/

namespace Naja.Vhdl.Lexer
open Parser

/-- What `peek` returns behind the end of the source. -/
def nul : Char := Char.ofNat 0

def tick : Char := Char.ofNat 39

def peek (rest : List Char) (lookahead : Nat) : Char := rest.getD lookahead nul

def isAlpha (c : Char) : Bool := (c ≥ 'A' && c ≤ 'Z') || (c ≥ 'a' && c ≤ 'z')

def isDigit (c : Char) : Bool := c ≥ '0' && c ≤ '9'

def isAlphaNumeric (c : Char) : Bool := isAlpha c || isDigit c

def isWhitespace (c : Char) : Bool :=
  c == ' ' || c == '\t' || c == '\n' || c == '\r' || c == Char.ofNat 12

def lower (c : Char) : Char := if c ≥ 'A' && c ≤ 'Z' then Char.ofNat (c.toNat + 32) else c

/-- The bytes of one token: how many they are, and what they are taken for. -/
structure Scanned where
  length : Nat
  kind : TokenKind
  canonical : List Char := []
  message : Option String := none
deriving DecidableEq

def invalid (length : Nat) (message : String) : Scanned :=
  { length := length, kind := .Invalid, message := some message }

/-! ### Identifiers -/

def inIdentifier (c : Char) : Bool := isAlphaNumeric c || c == '_'

/-- No underscore at the end and no two in a row. -/
def validIdentifier (text : List Char) : Bool :=
  text != [] && text.getLast? != some '_' &&
    (List.range text.length).all (fun i => i == 0 || !(peek text i == '_' && peek text (i - 1) == '_'))

def scanIdentifier (rest : List Char) : Scanned :=
  let text := rest.takeWhile inIdentifier
  if validIdentifier text then { length := text.length, kind := .Identifier, canonical := text.map lower }
  else invalid text.length "malformed basic identifier"

/-- The bytes up to a closing quote; two quotes in a row stand for one. -/
def closing (quote : Char) : List Char → Option Nat
  | [] => none
  | c :: rest =>
      if c ≠ quote then (closing quote rest).map (· + 1)
      else
        match rest with
        | d :: rest => if d = quote then (closing quote rest).map (· + 2) else some 1
        | [] => some 1

def scanExtendedIdentifier (rest : List Char) : Scanned :=
  match closing '\\' (rest.drop 1) with
  | some n => { length := 1 + n, kind := .ExtendedIdentifier }
  | none => invalid rest.length "unterminated extended identifier"

def scanString (rest : List Char) : Scanned :=
  match closing '"' (rest.drop 1) with
  | some n => { length := 1 + n, kind := .StringLiteral }
  | none => invalid rest.length "unterminated string literal"

/-! ### Numbers -/

def digits (rest : List Char) : Nat := (rest.takeWhile (fun c => isDigit c || c == '_')).length

/-- Every underscore stands between two digits. -/
def validSeparators (isDigit : Char → Bool) (text : List Char) : Bool :=
  (List.range text.length).all fun i =>
    peek text i != '_' ||
      (i != 0 && i + 1 != text.length && isDigit (peek text (i - 1)) && isDigit (peek text (i + 1)))

def sign (c : Char) : Bool := c == '+' || c == '-'

/-- The exponent of a literal that has `n` bytes: where it ends, and what is wrong with it. -/
def exponent (missing : String) (rest : List Char) (n : Nat) : Nat × Option String :=
  if peek rest n == 'e' || peek rest n == 'E' then
    let start := if sign (peek rest (n + 1)) then n + 2 else n + 1
    if !isDigit (peek rest start) then (start, some missing)
    else
      let stop := start + digits (rest.drop start)
      if validSeparators isDigit ((rest.drop start).take (stop - start)) then (stop, none)
      else (stop, some "underscores in an exponent must separate digits")
  else (n, none)

def literal (real : Bool) : Nat × Option String → Scanned
  | (n, some message) => invalid n message
  | (n, none) => { length := n, kind := if real then .RealLiteral else .IntegerLiteral }

/-- A based literal whose base has `n` bytes. -/
def scanBased (rest : List Char) (n : Nat) : Scanned :=
  let inner := (rest.drop (n + 1)).takeWhile (fun c => c != '#')
  let stop := n + 1 + inner.length
  if peek rest stop != '#' then invalid stop "unterminated based literal"
  else if !validSeparators isAlphaNumeric inner then
    invalid (stop + 1) "underscores in a based literal must separate digits"
  else literal (inner.contains '.') (exponent "based literal exponent requires at least one digit" rest (stop + 1))

/-- A decimal literal whose integer part has `n` bytes. -/
def scanDecimal (rest : List Char) (n : Nat) : Scanned :=
  if peek rest n == '.' && isDigit (peek rest (n + 1)) then
    let stop := n + 1 + digits (rest.drop (n + 1))
    if validSeparators isDigit ((rest.drop (n + 1)).take (stop - (n + 1))) then
      literal true (exponent "exponent requires at least one digit" rest stop)
    else invalid stop "underscores in a decimal fraction must separate digits"
  else literal false (exponent "exponent requires at least one digit" rest n)

def scanNumber (rest : List Char) : Scanned :=
  let n := digits rest
  if !validSeparators isDigit (rest.take n) then
    invalid n "underscores in a decimal literal must separate digits"
  else if peek rest n == '#' then scanBased rest n
  else scanDecimal rest n

/-! ### Character literals and symbols -/

def isCharacterLiteral (rest : List Char) : Bool :=
  (peek rest 1 == tick && peek rest 2 == tick && peek rest 3 == tick) ||
    (peek rest 1 != nul && peek rest 2 == tick && peek rest 1 != '\n')

def characterLength (rest : List Char) : Nat :=
  if rest.take 3 == [tick, tick, tick] && peek rest 3 == tick then 4 else 3

def scanCharacter (rest : List Char) : Scanned := { length := characterLength rest, kind := .CharacterLiteral }

def compound : List (List Char) :=
  [[':', '='], ['<', '='], ['>', '='], ['/', '='], ['=', '>'], ['*', '*'], ['<', '>'], ['?', '?']]

def punctuation : List Char :=
  ['&', tick, '(', ')', '*', '+', ',', '-', '.', '/', ':', ';', '<', '=', '>', '|', '[', ']', '?']

def candidate (rest : List Char) : List Char :=
  if 1 < rest.length then [peek rest 0, peek rest 1] else [peek rest 0]

def symbolLength (rest : List Char) : Nat := if compound.contains (candidate rest) then 2 else 1

def scanSymbol (rest : List Char) : Scanned :=
  if punctuation.contains (peek rest 0) then { length := symbolLength rest, kind := .Symbol }
  else invalid 1 "invalid character in VHDL source"

def scanToken (rest : List Char) : Scanned :=
  let c := peek rest 0
  if isAlpha c then scanIdentifier rest
  else if c == '\\' then scanExtendedIdentifier rest
  else if isDigit c then scanNumber rest
  else if c == '"' then scanString rest
  else if c == tick && isCharacterLiteral rest then scanCharacter rest
  else scanSymbol rest

/-! ### The scanner -/

/-- `advance` over one byte -/
def SourcePosition.advance (position : SourcePosition) (c : Char) : SourcePosition :=
  if c == '\n' then ⟨position.offset + 1, position.line + 1, 1⟩
  else ⟨position.offset + 1, position.line, position.column + 1⟩

def SourcePosition.after (position : SourcePosition) (text : List Char) : SourcePosition :=
  text.foldl SourcePosition.advance position

structure Scanner where
  rest : List Char
  position : SourcePosition := ⟨0, 1, 1⟩
  excluded : Bool := false
  exclusionStart : SourcePosition := ⟨0, 1, 1⟩
  tokens : List Token := []
  diagnostics : List Diagnostic := []

structure LexResult where
  tokens : List Token
  diagnostics : List Diagnostic

/-- What `operator>>` skips. -/
def isSpace (c : Char) : Bool := isWhitespace c || c == Char.ofNat 11

/-- The next word of a stream and what follows it. -/
def word (text : List Char) : List Char × List Char :=
  let text := text.dropWhile isSpace
  (text.takeWhile (fun c => !isSpace c), text.dropWhile (fun c => !isSpace c))

/-- `true` where a comment, without its dashes, starts an excluded region, `false` where it ends one. -/
def command (comment : List Char) : Option Bool :=
  let (first, later) := word (comment.map lower)
  let (second, _) := word later
  if first ∉ ["pragma".toList, "synthesis".toList, "synopsys".toList] then none
  else if second = "translate_off".toList then some true
  else if second = "translate_on".toList then some false
  else none

namespace Scanner

def advance (scanner : Scanner) (n : Nat) : Scanner :=
  { scanner with rest := scanner.rest.drop n, position := SourcePosition.after scanner.position (scanner.rest.take n) }

def push (scanner : Scanner) (diagnostic : Diagnostic) : Scanner :=
  { scanner with diagnostics := scanner.diagnostics ++ [diagnostic] }

def diagnose (scanner : Scanner) (message : Option String) (start : SourcePosition) : Scanner :=
  match message with
  | none => scanner
  | some message => if scanner.excluded then scanner else scanner.push ⟨message, ⟨start, scanner.position⟩⟩

def emit (scanner : Scanner) (kind : TokenKind) (start : SourcePosition) (text canonical : List Char) : Scanner :=
  if scanner.excluded then scanner
  else
    { scanner with
      tokens := scanner.tokens ++ [⟨kind, String.ofList text, String.ofList canonical, ⟨start, scanner.position⟩⟩] }

/-- A comment that starts at `start` and ends where the scanner is. -/
def pragma (scanner : Scanner) (start : SourcePosition) (comment : List Char) : Scanner :=
  match command comment with
  | none => scanner
  | some true =>
      if scanner.excluded then scanner.push ⟨"nested translate_off is unsupported", ⟨start, scanner.position⟩⟩
      else { scanner with excluded := true, exclusionStart := start }
  | some false =>
      { (if scanner.excluded then scanner
          else scanner.push ⟨"translate_on without translate_off", ⟨start, scanner.position⟩⟩) with excluded := false }

/-- White space and comments are skipped, as many times as there are comments. -/
def skipTrivia (synthesis : Bool) : Nat → Scanner → Scanner
  | 0, scanner => scanner
  | fuel + 1, scanner =>
      let scanner := scanner.advance (scanner.rest.takeWhile isWhitespace).length
      if peek scanner.rest 0 != '-' then scanner
      else if peek scanner.rest 1 != '-' then scanner
      else
        let comment := scanner.rest.takeWhile (fun c => c != '\n')
        let behind := scanner.advance comment.length
        skipTrivia synthesis fuel
          (if synthesis then behind.pragma scanner.position (comment.drop 2) else behind)

def scanOne (scanner : Scanner) : Scanner :=
  let scanned := scanToken scanner.rest
  let behind := scanner.advance scanned.length
  (behind.diagnose scanned.message scanner.position).emit scanned.kind scanner.position
    (scanner.rest.take scanned.length) scanned.canonical

/-- The loop of `run`. -/
def loop (synthesis : Bool) : Nat → Scanner → Scanner
  | 0, scanner => scanner
  | fuel + 1, scanner =>
      if scanner.rest = [] then scanner
      else
        let scanner := skipTrivia synthesis (scanner.rest.length + 1) scanner
        if scanner.rest = [] then scanner else loop synthesis fuel (scanOne scanner)

/-- The end of `run`. -/
def result (scanner : Scanner) : LexResult :=
  { tokens := scanner.tokens ++ [⟨.EndOfFile, "", "", ⟨scanner.position, scanner.position⟩⟩]
    diagnostics := scanner.diagnostics ++
      if scanner.excluded then [⟨"unterminated translate_off region", ⟨scanner.exclusionStart, scanner.position⟩⟩] else [] }

end Scanner

def scan (source : List Char) (synthesis : Bool) : LexResult :=
  (Scanner.loop synthesis (source.length + 1) { rest := source }).result

end Naja.Vhdl.Lexer
