/-! Syntax trees of the VHDL front end: names with their spelling and canonical
form, expressions, declarations and assignments. Basic identifiers are compared by
their canonical form; an extended identifier has none and keeps its spelling. -/

namespace Naja.Vhdl

structure SourcePosition where
  offset : Nat
  line : Nat
  column : Nat
deriving DecidableEq, Repr

structure SourceSpan where
  start : SourcePosition
  stop : SourcePosition
deriving DecidableEq, Repr

structure Name where
  spelling : String
  canonical : String
  span : SourceSpan
deriving DecidableEq, Repr

def key (name : Name) : String := if name.canonical.isEmpty then name.spelling else name.canonical

inductive ExpressionKind where
  | Name | IntegerLiteral | RealLiteral | StringLiteral | CharacterLiteral | Unary | Binary
  | Conditional | Indexed | Others | Aggregate | Range | BitStringLiteral | Call | Selected
  | Association | Attribute
deriving DecidableEq, Repr

/-- An expression node; the parts a kind does not use are absent. -/
inductive Expression where
  | mk (kind : ExpressionKind) (text canonical : String) (span : SourceSpan)
      (left right condition : Option Expression) (elements : List Expression)

namespace Expression

def kind : Expression → ExpressionKind
  | .mk kind .. => kind

def text : Expression → String
  | .mk _ text .. => text

def canonical : Expression → String
  | .mk _ _ canonical .. => canonical

def span : Expression → SourceSpan
  | .mk _ _ _ span .. => span

/-- The key under which a name expression is looked up. -/
def name (e : Expression) : String := if e.canonical.isEmpty then e.text else e.canonical

end Expression

inductive AssignmentKind where
  | Signal | Variable
deriving DecidableEq, Repr

structure Assignment where
  target : Name
  value : Expression
  span : SourceSpan
  kind : AssignmentKind
  indices : List Expression

structure Diagnostic where
  message : String
  span : SourceSpan
deriving DecidableEq, Repr

end Naja.Vhdl
