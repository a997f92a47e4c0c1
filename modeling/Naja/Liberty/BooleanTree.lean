import Mathlib.Algebra.Ring.Nat
import Mathlib.Data.List.TakeWhile

/-! The Boolean functions of Liberty cells. The parser keeps a stack of operators
and of nodes with their precedence, reduces its top with one token of look-ahead,
and shifts. The stack is a list here, its top first. -/

namespace Naja.Liberty

/-- What an input node reads: a term by its order ID, a state, or a constant. -/
inductive Input where
  | term (orderID : Nat)
  | state (index : Nat) (inverted : Bool)
  | constant0
  | constant1
deriving DecidableEq, Repr

/-- The values of terms and states. -/
abbrev Assignment := Input → Bool

def Input.getValue (σ : Assignment) : Input → Bool
  | .constant0 => false
  | .constant1 => true
  | input => σ input

inductive Node where
  | input (input : Input)
  | buffer (operand : Node)
  | not (operand : Node)
  | and (left right : Node)
  | or (left right : Node)
  | xor (left right : Node)
deriving DecidableEq, Repr

def Node.getValue (σ : Assignment) : Node → Bool
  | .input i => i.getValue σ
  | .buffer operand => operand.getValue σ
  | .not operand => !operand.getValue σ
  | .and left right => left.getValue σ && right.getValue σ
  | .or left right => left.getValue σ || right.getValue σ
  | .xor left right => left.getValue σ ^^ right.getValue σ

inductive Symbol where
  | openParen | closeParen | quote | bang | caret | star | plus | bar | ampersand
  /-- `Token('.')`, the look-ahead at the end. -/
  | stop
deriving DecidableEq, Repr

/-- The types 0 to 3 of node tokens. -/
inductive Level where
  | unary | xor | and | or
deriving DecidableEq, Repr

inductive Token where
  | symbol (symbol : Symbol)
  | node (level : Level) (node : Node)
deriving DecidableEq, Repr

/-- The look-ahead goes on with a conjunction. -/
def Token.continuesAnd : Token → Bool
  | .symbol .star | .symbol .ampersand | .symbol .openParen | .symbol .bang => true
  | .node .unary _ => true
  | _ => false

def reduce (stack : List Token) (next : Token) : Option (List Token) :=
  match stack with
  | .node .unary n :: .symbol .bang :: rest => some (.node .unary (.not n) :: rest)
  | .symbol .quote :: .node .unary n :: rest => some (.node .unary (.not n) :: rest)
  | .node .unary n :: rest => if next = .symbol .quote then none else some (.node .xor n :: rest)
  | .node .xor b :: .symbol .caret :: .node .xor a :: rest => some (.node .xor (.xor a b) :: rest)
  | .node .xor n :: rest => if next = .symbol .caret then none else some (.node .and n :: rest)
  | .node .and b :: .node .and a :: rest => some (.node .and (.and a b) :: rest)
  | .node .and b :: .symbol .star :: .node .and a :: rest => some (.node .and (.and a b) :: rest)
  | .node .and b :: .symbol .ampersand :: .node .and a :: rest => some (.node .and (.and a b) :: rest)
  | .node .and n :: rest => if next.continuesAnd then none else some (.node .or n :: rest)
  | .node .or b :: .symbol .plus :: .node .or a :: rest => some (.node .or (.or a b) :: rest)
  | .node .or b :: .symbol .bar :: .node .or a :: rest => some (.node .or (.or a b) :: rest)
  | .symbol .closeParen :: .node .or n :: .symbol .openParen :: rest => some (.node .unary n :: rest)
  | _ => none

/-- What the reductions use up: every one makes the stack lighter. -/
def weight (stack : List Token) : Nat :=
  (stack.map (fun token => match token with
    | .symbol _ => 4
    | .node .unary _ => 4
    | .node .xor _ => 3
    | .node .and _ => 2
    | .node .or _ => 1)).sum

/-- `while (reduce(…)) {}`, with as many turns as the stack has weight. -/
def reduceLoop (next : Token) : Nat → List Token → List Token
  | 0, stack => stack
  | turns + 1, stack =>
      match reduce stack next with
      | none => stack
      | some lighter => reduceLoop next turns lighter

def reduceAll (stack : List Token) (next : Token) : List Token := reduceLoop next (weight stack) stack

def shift (stack : List Token) (next : Token) : List Token := next :: reduceAll stack next

/-! ### Characters -/

/-- The names a function can use; a name is looked up as a state, then as an alias, then as a term. -/
structure Names where
  stateIdentifiers : String → Option (Nat × Bool)
  termAliases : String → Option Nat
  scalarTerms : String → Option Nat

def isSpace (c : Char) : Bool := c == ' ' || (decide (9 ≤ c.toNat) && decide (c.toNat ≤ 13))

def isIdentifierCharacter (c : Char) : Bool :=
  ('a' ≤ c && c ≤ 'z') || ('A' ≤ c && c ≤ 'Z') || ('0' ≤ c && c ≤ '9') || c == '.' || c == '_' || c == '[' || c == ']'

def symbolOf (c : Char) : Option Symbol :=
  if c = '(' then some .openParen
  else if c = ')' then some .closeParen
  else if c = '\'' then some .quote
  else if c = '!' then some .bang
  else if c = '^' then some .caret
  else if c = '*' then some .star
  else if c = '+' then some .plus
  else if c = '|' then some .bar
  else if c = '&' then some .ampersand
  else none

/-- The input that an identifier at a position names. -/
def resolveInput (names : Names) (pos : Nat) (identifier : String) : Except String Input :=
  if identifier = "0" then .ok .constant0
  else if identifier = "1" then .ok .constant1
  else
    match names.stateIdentifiers identifier with
    | some (index, inverted) => .ok (.state index inverted)
    | none =>
        match names.termAliases identifier with
        | some orderID => .ok (.term orderID)
        | none =>
            match names.scalarTerms identifier with
            | some orderID => .ok (.term orderID)
            | none => .error ("Scalar term `" ++ identifier ++ "` referenced at character " ++ toString (pos + 1) ++
                " was not found in the cell interface.")

def parseInput (names : Names) (pos : Nat) (rest : List Char) : Except String Input :=
  let identifier := rest.takeWhile isIdentifierCharacter
  if identifier.isEmpty then
    .error ("Expected an identifier at character " ++ toString (pos + 1) ++ " near `" ++ String.ofList rest ++ "`.")
  else resolveInput names pos (String.ofList identifier)

/-- The loop over the characters, from a position on. -/
def parseLoop (names : Names) (pos : Nat) (rest : List Char) (stack : List Token) : Except String (List Token) :=
  match rest with
  | [] => .ok stack
  | car :: others =>
      if isSpace car || car == '"' then parseLoop names (pos + 1) others stack
      else
        match symbolOf car with
        | some symbol => parseLoop names (pos + 1) others (shift stack (.symbol symbol))
        | none =>
            match parseInput names pos (car :: others) with
            | .error message => .error message
            | .ok input =>
                parseLoop names (pos + 1 + (others.takeWhile isIdentifierCharacter).length)
                  (others.dropWhile isIdentifierCharacter) (shift stack (.node .unary (.input input)))
termination_by rest.length
decreasing_by
  · exact Nat.lt_succ_self _
  · exact Nat.lt_succ_self _
  · exact Nat.lt_succ_of_le (List.dropWhile_sublist _).length_le

/-- `std::quoted` -/
def quoted (text : List Char) : String :=
  "\"" ++ String.ofList (text.flatMap (fun c => if c = '"' ∨ c = '\\' then ['\\', c] else [c])) ++ "\""

/-- The root is a function node: an input alone is buffered. -/
def rootOf : Node → Node
  | .input input => .buffer (.input input)
  | node => node

def finish (function : List Char) (stack : List Token) : Except String Node :=
  match reduceAll stack (.symbol .stop) with
  | [.node .or node] => .ok (rootOf node)
  | _ => .error ("Malformed Boolean expression " ++ quoted function ++
      ": operators and parentheses could not be reduced to one expression.")

def parse (names : Names) (function : List Char) : Except String Node :=
  match parseLoop names 0 function [] with
  | .error message => .error message
  | .ok stack => finish function stack

/-- The tokens of a text. -/
def tokenize (names : Names) (pos : Nat) (rest : List Char) : Except String (List Token) :=
  match rest with
  | [] => .ok []
  | car :: others =>
      if isSpace car || car == '"' then tokenize names (pos + 1) others
      else
        match symbolOf car with
        | some symbol => (tokenize names (pos + 1) others).map (fun tokens => .symbol symbol :: tokens)
        | none =>
            match parseInput names pos (car :: others) with
            | .error message => .error message
            | .ok input =>
                (tokenize names (pos + 1 + (others.takeWhile isIdentifierCharacter).length)
                  (others.dropWhile isIdentifierCharacter)).map (fun tokens => .node .unary (.input input) :: tokens)
termination_by rest.length
decreasing_by
  · exact Nat.lt_succ_self _
  · exact Nat.lt_succ_self _
  · exact Nat.lt_succ_of_le (List.dropWhile_sublist _).length_le

/-- The characters are read as tokens that are shifted one by one. -/
theorem parseLoop_eq (names : Names) (pos : Nat) (rest : List Char) (stack : List Token) :
    parseLoop names pos rest stack = (tokenize names pos rest).map (fun tokens => tokens.foldl shift stack) := by
  fun_induction parseLoop names pos rest stack with
  | case1 pos stack =>
      unfold tokenize
      rfl
  | case2 pos stack car others skip ih =>
      unfold tokenize
      rw [if_pos skip, ih]
  | case3 pos stack car others skip symbol found ih =>
      unfold tokenize
      rw [if_neg skip, found, ih]
      simp only
      cases tokenize names (pos + 1) others <;> rfl
  | case4 pos stack car others skip found message failed =>
      unfold tokenize
      rw [if_neg skip, found, failed]
      rfl
  | case5 pos stack car others skip found input read ih =>
      unfold tokenize
      rw [if_neg skip, found, read, ih]
      simp only
      cases tokenize names _ _ <;> rfl

end Naja.Liberty
