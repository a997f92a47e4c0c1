import Naja.Liberty.ParseExact
import Naja.TruthTable.Cofactor

/-! From a parsed function to its truth table and to its Boolean expression. The
rows of the table are counted over the input terms in reverse order, the first of
them in the highest bit, and the dependencies are encoded as a set of order IDs. -/

namespace Naja.Liberty
open TruthTable TruthTable.BitDependencies TruthTable.SNLTruthTable TruthTable.StorageRoundTrip
open Primitives (Direction)
open Primitives.PinRoles (rowIndex evaluate)

/-! ### Pins -/

/-- A bit term of a primitive; its order ID is its place. Only scalar terms have a name of their own. -/
structure Pin where
  name : String
  direction : Direction
  scalar : Bool
deriving DecidableEq, Repr

def getScalarTerm (pins : List Pin) (name : String) : Option Nat :=
  pins.findIdx? (fun pin => pin.scalar && pin.name == name)

/-- `tree->parse(primitive, function)`: no states and no aliases. -/
def namesOf (pins : List Pin) : Names := ⟨fun _ => none, fun _ => none, getScalarTerm pins⟩

def isInput (pins : List Pin) (orderID : Nat) : Bool := (pins[orderID]?).any (fun pin => pin.direction == .Input)

/-- The terms that `parseTerms` lists, before it reverses them. -/
def inputTerms (pins : List Pin) : List Nat := (List.range pins.length).filter (isInput pins)

def Node.references (orderID : Nat) : Node → Bool
  | .input i => i == .term orderID
  | .buffer operand => operand.references orderID
  | .not operand => operand.references orderID
  | .and left right => left.references orderID || right.references orderID
  | .or left right => left.references orderID || right.references orderID
  | .xor left right => left.references orderID || right.references orderID

/-- `inputs_`, in the order of its terms. -/
def referencedTerms (pins : List Pin) (root : Node) : List Nat :=
  (List.range pins.length).filter (fun orderID => root.references orderID)

/-! ### The truth table -/

/-- `int rows = pow(2, n)`. From 31 inputs on the power is no int and the conversion is undefined in C++;
it gives the smallest int on x86-64, and the loop over the rows does not start. -/
def rowCount (n : Nat) : Nat := if n < 31 then 2 ^ n else 0

/-- The values of the input nodes in row `i`; the node of a state keeps its initial value. -/
def rowAssignment (deps : List Nat) (i : Nat) : Assignment
  | .term orderID => decide (orderID ∈ deps) && i.testBit (deps.length - deps.idxOf orderID - 1)
  | _ => false

def tableRow (root : Node) (deps : List Nat) (i : Nat) : Bool := root.getValue (rowAssignment deps i)

/-- `getTruthTable` of a parsed tree; terms without an input node are skipped. -/
def getTruthTable (pins : List Pin) (function : List Char) (root : Node) (terms : List Nat) :
    Except String SNLTruthTable :=
  let deps := terms.filter (fun orderID => root.references orderID)
  match (referencedTerms pins root).find? (fun orderID => !terms.contains orderID) with
  | some orderID =>
      .error ("Term \x60" ++ ((pins[orderID]?).map Pin.name).getD "" ++ "\x60 referenced by Boolean expression \x60" ++
        String.ofList function ++ "\x60 is not a truth table input.")
  | none =>
      let n := deps.length
      if 6 < n then
        ofVector n ((List.range (oneShiftLeft n)).map (fun i => decide (i < rowCount n) && tableRow root deps i))
          (encodeBits deps)
      else ofMask n (maskOfRows ((List.range (rowCount n)).map (tableRow root deps))) (encodeBits deps)

/-! ### The Boolean expression -/

inductive Operator where
  | Constant | Term | State | Not | And | Or | Xor
deriving DecidableEq, Repr

structure ExpressionNode where
  operation : Operator
  constant : Bool := false
  term : Option Nat := none
  state : Nat := 0
  operands : List Nat := []
deriving DecidableEq, Repr

/-- The nodes in the order in which they were added, and the place of the root. -/
structure BooleanExpression where
  nodes : List ExpressionNode
  root : Nat
deriving DecidableEq, Repr

def addNode (nodes : List ExpressionNode) (node : ExpressionNode) : List ExpressionNode × Nat :=
  (nodes ++ [node], nodes.length)

def appendInputNode (nodes : List ExpressionNode) : Input → List ExpressionNode × Nat
  | .term orderID => addNode nodes { operation := .Term, term := some orderID }
  | .state index inverted =>
      let (nodes, state) := addNode nodes { operation := .State, state := index }
      if inverted then addNode nodes { operation := .Not, operands := [state] } else (nodes, state)
  | .constant0 => addNode nodes { operation := .Constant, constant := false }
  | .constant1 => addNode nodes { operation := .Constant, constant := true }

/-- Append both operands, then the operation. -/
def addBinary (operation : Operator) (nodes : List ExpressionNode)
    (left right : List ExpressionNode → List ExpressionNode × Nat) : List ExpressionNode × Nat :=
  let (nodes, a) := left nodes
  let (nodes, b) := right nodes
  addNode nodes { operation := operation, operands := [a, b] }

def appendBooleanExpressionNode (nodes : List ExpressionNode) : Node → List ExpressionNode × Nat
  | .input i => appendInputNode nodes i
  | .buffer operand => appendBooleanExpressionNode nodes operand
  | .not operand =>
      let (nodes, a) := appendBooleanExpressionNode nodes operand
      addNode nodes { operation := .Not, operands := [a] }
  | .and left right =>
      addBinary .And nodes (fun nodes => appendBooleanExpressionNode nodes left)
        (fun nodes => appendBooleanExpressionNode nodes right)
  | .or left right =>
      addBinary .Or nodes (fun nodes => appendBooleanExpressionNode nodes left)
        (fun nodes => appendBooleanExpressionNode nodes right)
  | .xor left right =>
      addBinary .Xor nodes (fun nodes => appendBooleanExpressionNode nodes left)
        (fun nodes => appendBooleanExpressionNode nodes right)

def getBooleanExpression (root : Node) : BooleanExpression :=
  let (nodes, place) := appendBooleanExpressionNode [] root
  ⟨nodes, place⟩

/-- A node on the values of its operands. -/
def ExpressionNode.valueOn (σ : Assignment) (node : ExpressionNode) (operands : List Bool) : Bool :=
  match node.operation with
  | .Constant => node.constant
  | .Term => node.term.any (fun orderID => σ (.term orderID))
  | .State => σ (.state node.state false)
  | .Not => !operands.any id
  | .And => operands.all id
  | .Or => operands.any id
  | .Xor => operands.countP id % 2 != 0

/-- A node on the values of the nodes before it. -/
def ExpressionNode.getValue (σ : Assignment) (done : List Bool) (node : ExpressionNode) : Bool :=
  node.valueOn σ (node.operands.map (fun place => done.getD place false))

def nodeValues (σ : Assignment) (nodes : List ExpressionNode) : List Bool :=
  nodes.foldl (fun done node => done ++ [node.getValue σ done]) []

def BooleanExpression.getValue (σ : Assignment) (e : BooleanExpression) : Option Bool :=
  (nodeValues σ e.nodes)[e.root]?

theorem nodeValues_concat (σ : Assignment) (nodes : List ExpressionNode) (node : ExpressionNode) :
    nodeValues σ (nodes ++ [node]) = nodeValues σ nodes ++ [node.getValue σ (nodeValues σ nodes)] := by
  unfold nodeValues
  rw [List.foldl_append]
  rfl

theorem length_nodeValues (σ : Assignment) (nodes : List ExpressionNode) :
    (nodeValues σ nodes).length = nodes.length := by
  induction nodes using List.reverseRecOn with
  | nil => rfl
  | append_singleton nodes node ih =>
      rw [nodeValues_concat, List.length_append, List.length_append, ih]
      rfl

/-- Nodes added later leave the values of the earlier ones. -/
theorem nodeValues_keep (σ : Assignment) (nodes more : List ExpressionNode) (place : Nat) (value : Bool)
    (found : (nodeValues σ nodes)[place]? = some value) :
    (nodeValues σ (nodes ++ more))[place]? = some value := by
  induction more using List.reverseRecOn with
  | nil => simpa using found
  | append_singleton more node ih =>
      rw [← List.append_assoc, nodeValues_concat]
      exact List.getElem?_append_left (List.getElem?_eq_some_iff.mp ih).1 ▸ ih

theorem nodeValues_addNode (σ : Assignment) (nodes : List ExpressionNode) (node : ExpressionNode) :
    (nodeValues σ (addNode nodes node).1)[(addNode nodes node).2]? =
      some (node.getValue σ (nodeValues σ nodes)) := by
  change (nodeValues σ (nodes ++ [node]))[nodes.length]? = _
  rw [nodeValues_concat, ← length_nodeValues σ nodes, List.getElem?_concat_length]

/-- Appending to the nodes adds some and gives the place of one with the value. -/
def Appends (σ : Assignment) (append : List ExpressionNode → List ExpressionNode × Nat) (value : Bool) : Prop :=
  ∀ nodes, ∃ more, (append nodes).1 = nodes ++ more ∧ (nodeValues σ (append nodes).1)[(append nodes).2]? = some value

theorem appends_addNode (σ : Assignment) (node : ExpressionNode) (value : Bool)
    (same : ∀ done, node.getValue σ done = value) : Appends σ (fun nodes => addNode nodes node) value := by
  intro nodes
  exact ⟨[node], rfl, by rw [nodeValues_addNode, same]⟩

/-- An operation on one appended operand. -/
theorem Appends.not (σ : Assignment) (append : List ExpressionNode → List ExpressionNode × Nat) (value : Bool)
    (operand : Appends σ append value) :
    Appends σ (fun nodes => addNode (append nodes).1 { operation := .Not, operands := [(append nodes).2] }) (!value) := by
  intro nodes
  obtain ⟨more, grown, found⟩ := operand nodes
  refine ⟨more ++ [_], by change (append nodes).1 ++ _ = _; rw [grown, List.append_assoc], ?_⟩
  rw [nodeValues_addNode]
  simp [ExpressionNode.getValue, ExpressionNode.valueOn, List.getD_eq_getElem?_getD, found]

theorem Appends.binary (σ : Assignment) (operation : Operator)
    (left right : List ExpressionNode → List ExpressionNode × Nat) (a b : Bool) (first : Appends σ left a)
    (second : Appends σ right b) (value : Bool)
    (same : ∀ places, ExpressionNode.valueOn σ { operation := operation, operands := places } [a, b] = value) :
    Appends σ (fun nodes => addBinary operation nodes left right) value := by
  intro nodes
  obtain ⟨more, grown, found⟩ := first nodes
  obtain ⟨more', grown', found'⟩ := second (left nodes).1
  have kept : (nodeValues σ (right (left nodes).1).1)[(left nodes).2]? = some a := by
    rw [grown']
    exact nodeValues_keep σ _ more' _ a found
  have operands : [(left nodes).2, (right (left nodes).1).2].map
      (fun place => (nodeValues σ (right (left nodes).1).1).getD place false) = [a, b] := by
    simp [List.getD_eq_getElem?_getD, kept, found']
  let node : ExpressionNode :=
    { operation := operation, operands := [(left nodes).2, (right (left nodes).1).2] }
  refine ⟨more ++ (more' ++ [node]), ?_, ?_⟩
  · calc
      (right (left nodes).1).1 ++ [node] = (nodes ++ more) ++ more' ++ [node] := by rw [grown', grown]
      _ = nodes ++ (more ++ (more' ++ [node])) := by rw [List.append_assoc, List.append_assoc]
  · change (nodeValues σ (addNode (right (left nodes).1).1 node).1)[(addNode (right (left nodes).1).1 node).2]? = _
    rw [nodeValues_addNode, ExpressionNode.getValue, operands, same]

/-- Every input of the tree has a property. -/
def Node.All (P : Input → Prop) : Node → Prop
  | .input i => P i
  | .buffer operand => operand.All P
  | .not operand => operand.All P
  | .and left right => left.All P ∧ right.All P
  | .or left right => left.All P ∧ right.All P
  | .xor left right => left.All P ∧ right.All P

/-- An inverted state is the complement of its state. -/
def StatesAgree (σ : Assignment) (i : Input) : Prop :=
  ∀ index, i = .state index true → σ i = !σ (.state index false)

theorem appendInputNode_appends (σ : Assignment) (i : Input) (agree : StatesAgree σ i) :
    Appends σ (fun nodes => appendInputNode nodes i) (i.getValue σ) := by
  cases i with
  | term orderID => exact appends_addNode σ _ _ (fun _ => rfl)
  | constant0 => exact appends_addNode σ _ _ (fun _ => rfl)
  | constant1 => exact appends_addNode σ _ _ (fun _ => rfl)
  | state index inverted =>
      have state := appends_addNode σ { operation := .State, state := index } (σ (.state index false)) (fun _ => rfl)
      cases inverted with
      | false => exact state
      | true =>
          have inverted := Appends.not σ _ _ state
          rw [← agree index rfl] at inverted
          exact inverted

theorem appendBooleanExpressionNode_appends (σ : Assignment) (n : Node) (agree : n.All (StatesAgree σ)) :
    Appends σ (fun nodes => appendBooleanExpressionNode nodes n) (n.getValue σ) := by
  induction n with
  | input i => exact appendInputNode_appends σ i agree
  | buffer operand ih => exact ih agree
  | not operand ih => exact Appends.not σ _ _ (ih agree)
  | and left right ihl ihr =>
      refine Appends.binary σ .And _ _ _ _ (ihl agree.1) (ihr agree.2) _ (fun places => ?_)
      simp [ExpressionNode.valueOn, Node.getValue]
  | or left right ihl ihr =>
      refine Appends.binary σ .Or _ _ _ _ (ihl agree.1) (ihr agree.2) _ (fun places => ?_)
      simp [ExpressionNode.valueOn, Node.getValue]
  | xor left right ihl ihr =>
      refine Appends.binary σ .Xor _ _ _ _ (ihl agree.1) (ihr agree.2) _ (fun places => ?_)
      rw [Node.getValue]
      cases left.getValue σ <;> cases right.getValue σ <;> rfl

/-- The expression has the value of the tree. -/
theorem getBooleanExpression_getValue (σ : Assignment) (root : Node) (agree : root.All (StatesAgree σ)) :
    (getBooleanExpression root).getValue σ = some (root.getValue σ) := by
  obtain ⟨more, -, found⟩ := appendBooleanExpressionNode_appends σ root agree []
  exact found

/-! ### The inputs of parsed functions -/

/-- Every node of the stack has only inputs with the property. -/
def StackAll (P : Input → Prop) (stack : List Token) : Prop :=
  ∀ level n, Token.node level n ∈ stack → n.All P

theorem StackAll.of_cons {P : Input → Prop} {level : Level} {n : Node} {stack : List Token}
    (all : StackAll P (.node level n :: stack)) : n.All P ∧ StackAll P stack :=
  ⟨all level n List.mem_cons_self, fun level' n' mem => all level' n' (List.mem_cons_of_mem _ mem)⟩

theorem StackAll.tail {P : Input → Prop} {token : Token} {stack : List Token}
    (all : StackAll P (token :: stack)) : StackAll P stack :=
  fun level n mem => all level n (List.mem_cons_of_mem _ mem)

theorem StackAll.push {P : Input → Prop} {level : Level} {n : Node} {stack : List Token}
    (head : n.All P) (all : StackAll P stack) : StackAll P (.node level n :: stack) := by
  intro level' n' mem
  rcases List.mem_cons.mp mem with same | mem
  · cases same
    exact head
  · exact all level' n' mem

theorem StackAll.symbol {P : Input → Prop} {x : Symbol} {stack : List Token} (all : StackAll P stack) :
    StackAll P (.symbol x :: stack) := by
  intro level n mem
  rcases List.mem_cons.mp mem with same | mem
  · cases same
  · exact all level n mem

theorem reduce_all (P : Input → Prop) (next : Token) (stack lighter : List Token)
    (reduced : reduce stack next = some lighter) (all : StackAll P stack) : StackAll P lighter := by
  revert reduced
  fun_cases reduce stack next with
  | case1 n rest =>
      intro reduced
      cases reduced
      exact .push all.of_cons.1 all.tail.tail
  | case2 n rest =>
      intro reduced
      cases reduced
      exact .push all.tail.of_cons.1 all.tail.tail
  | case4 n rest | case7 n rest | case12 n rest =>
      intro reduced
      cases reduced
      exact .push all.of_cons.1 all.tail
  | case5 b a rest | case9 b a rest | case10 b a rest | case13 b a rest | case14 b a rest =>
      intro reduced
      cases reduced
      exact .push ⟨all.tail.tail.of_cons.1, all.of_cons.1⟩ all.tail.tail.tail
  | case8 b a rest =>
      intro reduced
      cases reduced
      exact .push ⟨all.tail.of_cons.1, all.of_cons.1⟩ all.tail.tail
  | case15 n rest =>
      intro reduced
      cases reduced
      exact .push all.tail.of_cons.1 all.tail.tail.tail
  | case3 | case6 | case11 | case16 =>
      intro reduced
      cases reduced

theorem shifts_all (P : Input → Prop) (tokens stack : List Token) (inputs : StackAll P tokens)
    (all : StackAll P stack) : StackAll P (tokens.foldl shift stack) := by
  induction tokens generalizing stack with
  | nil => exact all
  | cons next tokens ih =>
      have reduced : StackAll P (reduceAll stack next) := reduceAll_keeps next (reduce_all P next) stack all
      apply ih (shift stack next) inputs.tail
      cases next with
      | symbol x => exact reduced.symbol
      | node level n => exact reduced.push inputs.of_cons.1

/-- What the names resolve to is what the inputs of the tokens can be. -/
theorem tokenize_all (names : Names) (P : Input → Prop)
    (resolves : ∀ pos identifier i, resolveInput names pos identifier = .ok i → P i) (pos : Nat) (rest : List Char) :
    ∀ tokens, tokenize names pos rest = .ok tokens → StackAll P tokens := by
  fun_induction tokenize names pos rest with
  | case1 pos =>
      intro tokens same
      cases same
      exact fun level n member => absurd member List.not_mem_nil
  | case2 pos car others skip ih => exact ih
  | case3 pos car others skip symbol found ih =>
      intro tokens same
      cases read : tokenize names (pos + 1) others with
      | error message => rw [read] at same; cases same
      | ok later =>
          rw [read] at same
          cases same
          exact (ih later read).symbol
  | case4 pos car others skip found message failed =>
      intro tokens same
      cases same
  | case5 pos car others skip found input parsed ih =>
      intro tokens same
      have resolved : P input := by
        unfold parseInput at parsed
        simp only at parsed
        split at parsed
        · cases parsed
        · exact resolves pos _ input parsed
      cases read : tokenize names (pos + 1 + (others.takeWhile isIdentifierCharacter).length)
          (others.dropWhile isIdentifierCharacter) with
      | error message => rw [read] at same; cases same
      | ok later =>
          rw [read] at same
          cases same
          exact (ih later read).push resolved

theorem parse_all (names : Names) (P : Input → Prop)
    (resolves : ∀ pos identifier i, resolveInput names pos identifier = .ok i → P i) (function : List Char)
    (root : Node) (parsed : parse names function = .ok root) : root.All P := by
  cases read : tokenize names 0 function with
  | error message =>
      unfold parse at parsed
      rw [parseLoop_eq, read] at parsed
      cases parsed
  | ok tokens =>
      rw [parse_tokens names function tokens read] at parsed
      obtain ⟨n, reduced, rfl⟩ := finish_ok function _ root parsed
      have shifted := shifts_all P tokens [] (tokenize_all names P resolves 0 function tokens read) nofun
      have all : StackAll P (reduceAll (tokens.foldl shift []) (.symbol .stop)) :=
        reduceAll_keeps _ (reduce_all P _) _ shifted
      rw [reduced] at all
      have inputs := all.of_cons.1
      cases n <;> exact inputs

/-- The terms of a function on the pins of a primitive are pins, and it reads no state. -/
def PinInput (pins : List Pin) : Input → Prop
  | .term orderID => orderID < pins.length
  | .state _ _ => False
  | _ => True

theorem resolveInput_pins (pins : List Pin) (pos : Nat) (identifier : String) (i : Input)
    (resolved : resolveInput (namesOf pins) pos identifier = .ok i) : PinInput pins i := by
  unfold resolveInput at resolved
  split at resolved
  · cases resolved
    trivial
  split at resolved
  · cases resolved
    trivial
  change (match getScalarTerm pins identifier with | some orderID => _ | none => _) = _ at resolved
  cases found : getScalarTerm pins identifier with
  | none =>
      rw [found] at resolved
      cases resolved
  | some orderID =>
      rw [found] at resolved
      cases resolved
      exact (List.findIdx?_eq_some_iff_getElem.mp found).1

theorem getValue_congr (σ τ : Assignment) (n : Node) (same : n.All (fun i => i.getValue σ = i.getValue τ)) :
    n.getValue σ = n.getValue τ := by
  induction n with
  | input i => exact same
  | buffer operand ih => exact ih same
  | not operand ih => exact congrArg not (ih same)
  | and left right ihl ihr => rw [Node.getValue, Node.getValue, ihl same.1, ihr same.2]
  | or left right ihl ihr => rw [Node.getValue, Node.getValue, ihl same.1, ihr same.2]
  | xor left right ihl ihr => rw [Node.getValue, Node.getValue, ihl same.1, ihr same.2]

/-- Without states, the value is a function of the referenced terms. -/
theorem getValue_terms (pins : List Pin) (σ τ : Assignment) (n : Node) (inputs : n.All (PinInput pins))
    (same : ∀ orderID, n.references orderID = true → σ (.term orderID) = τ (.term orderID)) :
    n.getValue σ = n.getValue τ := by
  apply getValue_congr
  induction n with
  | input i =>
      cases i with
      | term orderID => exact same orderID (beq_self_eq_true _)
      | state => exact inputs.elim
      | constant0 => rfl
      | constant1 => rfl
  | buffer operand ih => exact ih inputs same
  | not operand ih => exact ih inputs same
  | and left right ihl ihr | or left right ihl ihr | xor left right ihl ihr =>
      exact ⟨ihl inputs.1 (fun id ref => same id (Bool.or_eq_true_iff.mpr (.inl ref))),
        ihr inputs.2 (fun id ref => same id (Bool.or_eq_true_iff.mpr (.inr ref)))⟩

theorem references_lt (pins : List Pin) (n : Node) (inputs : n.All (PinInput pins)) (orderID : Nat)
    (ref : n.references orderID = true) : orderID < pins.length := by
  induction n with
  | input i =>
      rw [Node.references, beq_iff_eq] at ref
      subst ref
      exact inputs
  | buffer operand ih => exact ih inputs ref
  | not operand ih => exact ih inputs ref
  | and left right ihl ihr | or left right ihl ihr | xor left right ihl ihr =>
      rcases Bool.or_eq_true_iff.mp ref with ref | ref
      · exact ihl inputs.1 ref
      · exact ihr inputs.2 ref

theorem statesAgree_of_pins (pins : List Pin) (σ : Assignment) (n : Node) (inputs : n.All (PinInput pins)) :
    n.All (StatesAgree σ) := by
  induction n with
  | input i =>
      intro index same
      subst same
      exact inputs.elim
  | buffer operand ih => exact ih inputs
  | not operand ih => exact ih inputs
  | and left right ihl ihr | or left right ihl ihr | xor left right ihl ihr =>
      exact ⟨ihl inputs.1, ihr inputs.2⟩

/-! ### Agreement -/

/-- The table, read by its dependencies in increasing order, and the expression have the value of the function,
and the dependencies are the referenced pins. -/
def FunctionAgrees (pins : List Pin) (function : List Char) (root : Node) : Prop :=
  ∃ table, getTruthTable pins function root (inputTerms pins).reverse = .ok table ∧
    decodeBits table.dependencies = referencedTerms pins root ∧
    ∀ σ : Assignment,
      evaluate table ((decodeBits table.dependencies).map (fun orderID => σ (.term orderID))) = some (root.getValue σ) ∧
      (getBooleanExpression root).getValue σ = some (root.getValue σ)

section function
variable (pins : List Pin) (function : List Char) (root : Node)
variable (inputs : root.All (PinInput pins)) (inside : ∀ orderID, root.references orderID = true → isInput pins orderID = true)

theorem referencedTerms_nodup : (referencedTerms pins root).Nodup := List.nodup_range.filter _

include inputs in
theorem mem_referencedTerms (orderID : Nat) : orderID ∈ referencedTerms pins root ↔ root.references orderID = true := by
  rw [referencedTerms, List.mem_filter, List.mem_range]
  exact ⟨And.right, fun ref => ⟨references_lt pins root inputs orderID ref, ref⟩⟩

include inside in
theorem used_inputTerms : (inputTerms pins).reverse.filter (fun orderID => root.references orderID) =
    (referencedTerms pins root).reverse := by
  rw [List.filter_reverse, inputTerms, List.filter_filter]
  refine congrArg List.reverse (List.filter_congr (fun orderID _ => ?_))
  cases ref : root.references orderID with
  | false => rfl
  | true => rw [inside orderID ref, Bool.and_self]

include inside in
theorem missing_none : (referencedTerms pins root).find? (fun orderID => !(inputTerms pins).reverse.contains orderID) =
    none := by
  rw [List.find?_eq_none]
  intro orderID mem
  obtain ⟨bound, ref⟩ := List.mem_filter.mp mem
  have listed : orderID ∈ (inputTerms pins).reverse :=
    List.mem_reverse.mpr (List.mem_filter.mpr ⟨bound, inside orderID ref⟩)
  simpa using listed

include inputs in
/-- The row of an assignment: bit `k` is the value of the `k`-th referenced pin. -/
theorem tableRow_rowIndex (σ : Assignment) :
    tableRow root (referencedTerms pins root).reverse
      (rowIndex ((referencedTerms pins root).map (fun orderID => σ (.term orderID)))) = root.getValue σ := by
  apply getValue_terms pins _ _ root inputs
  intro orderID ref
  have mem := (mem_referencedTerms pins root inputs orderID).mpr ref
  obtain ⟨k, below, rfl⟩ := List.mem_iff_getElem.mp mem
  generalize terms_eq : referencedTerms pins root = terms at *
  have nodup : terms.Nodup := terms_eq ▸ referencedTerms_nodup pins root
  have place : terms.reverse.idxOf terms[k] = terms.length - 1 - k := by
    have inReverse : terms.length - 1 - k < terms.reverse.length := by
      rw [List.length_reverse]
      omega
    have same : terms.reverse[terms.length - 1 - k] = terms[k] := by
      rw [List.getElem_reverse]
      congr 1
      omega
    rw [← same]
    exact (List.nodup_reverse.mpr nodup).idxOf_getElem _ _
  have position : terms.reverse.length - (terms.length - 1 - k) - 1 = k := by
    rw [List.length_reverse]
    omega
  change (decide (terms[k] ∈ terms.reverse) && _) = _
  rw [place, position, TruthTable.testBit_rowIndex, decide_eq_true (List.mem_reverse.mpr mem), Bool.true_and]
  simp [List.getD_eq_getElem?_getD, below]

theorem encoded : decodeBits (encodeBits (referencedTerms pins root).reverse) = referencedTerms pins root := by
  apply decodeBits_encodeBits_eq
  · exact List.pairwise_lt_range.filter _
  · intro other
    exact List.mem_reverse.symm

theorem encoded_count : countBitsForVector (encodeBits (referencedTerms pins root).reverse) =
    (referencedTerms pins root).length := by
  rw [← length_decodeBits, encoded]

include inside in
theorem getTruthTable_eq : getTruthTable pins function root (inputTerms pins).reverse =
    if 6 < (referencedTerms pins root).length then
      ofVector (referencedTerms pins root).length
        ((List.range (oneShiftLeft (referencedTerms pins root).length)).map (fun i =>
          decide (i < rowCount (referencedTerms pins root).length) && tableRow root (referencedTerms pins root).reverse i))
        (encodeBits (referencedTerms pins root).reverse)
    else
      ofMask (referencedTerms pins root).length
        (maskOfRows ((List.range (rowCount (referencedTerms pins root).length)).map
          (tableRow root (referencedTerms pins root).reverse)))
        (encodeBits (referencedTerms pins root).reverse) := by
  unfold getTruthTable
  rw [missing_none pins root inside, used_inputTerms pins root inside]
  simp only [List.length_reverse]

include inside in
/-- Below 32 referenced pins there is a table with the rows of the loop. -/
theorem getTruthTable_ok (small : (referencedTerms pins root).length < 32) :
    ∃ table, getTruthTable pins function root (inputTerms pins).reverse = .ok table ∧ table.genericType = .NONE ∧
      table.dependencies = encodeBits (referencedTerms pins root).reverse ∧
      ∀ i < 2 ^ (referencedTerms pins root).length, table.bits.bit i =
        (decide (i < rowCount (referencedTerms pins root).length) &&
          tableRow root (referencedTerms pins root).reverse i) := by
  rw [getTruthTable_eq pins function root inside]
  have count := encoded_count pins root
  generalize referencedTerms pins root = terms at *
  by_cases large : 6 < terms.length
  · rw [if_pos large, ofVector_eq_ok _ _ _ large small count.le]
    refine ⟨_, rfl, rfl, rfl, fun i below => ?_⟩
    simp [NLBitVecDynamic.bit, oneShiftLeft_eq _ small, below]
  · rw [if_neg large, ofMask_eq_ok _ _ _ (by omega) (fun _ => count.le)]
    refine ⟨_, rfl, rfl, rfl, fun i below => ?_⟩
    have word := (pow_le_64 terms.length).mpr (by omega)
    have rows : rowCount terms.length = 2 ^ terms.length := if_pos (by omega)
    simp only [NLBitVecDynamic.bit, maskOfRows, BitVec.getLsbD_ofNat, rows, testBit_rowIndex]
    simp [show i < 64 by omega, below]

include inputs inside in
/-- With fewer than 31 referenced pins, everything agrees. -/
theorem functionAgrees_of_few (few : (referencedTerms pins root).length < 31) : FunctionAgrees pins function root := by
  obtain ⟨table, built, type, dependencies, bits⟩ := getTruthTable_ok pins function root inside (by omega)
  have decoded : decodeBits table.dependencies = referencedTerms pins root := by rw [dependencies, encoded]
  refine ⟨table, built, decoded, fun σ => ⟨?_, ?_⟩⟩
  · have length := rowIndex_lt ((referencedTerms pins root).map (fun orderID => σ (.term orderID)))
    rw [List.length_map] at length
    have rows : rowCount (referencedTerms pins root).length = 2 ^ (referencedTerms pins root).length := if_pos few
    rw [decoded, evaluate, type]
    simp only
    rw [bits _ length, rows, decide_eq_true length, Bool.true_and, tableRow_rowIndex pins root inputs]
  · exact getBooleanExpression_getValue σ root (statesAgree_of_pins pins σ root inputs)

include inputs inside in
/-- With 31 referenced pins no row is computed: the table is the one of the constant false. -/
theorem functionAgrees_31 (count : (referencedTerms pins root).length = 31) :
    FunctionAgrees pins function root ↔ ∀ σ, root.getValue σ = false := by
  obtain ⟨table, built, type, dependencies, bits⟩ := getTruthTable_ok pins function root inside (by omega)
  have decoded : decodeBits table.dependencies = referencedTerms pins root := by rw [dependencies, encoded]
  have rows : rowCount (referencedTerms pins root).length = 0 := if_neg (by omega)
  have read (σ : Assignment) :
      evaluate table ((referencedTerms pins root).map (fun orderID => σ (.term orderID))) = some false := by
    have length := rowIndex_lt ((referencedTerms pins root).map (fun orderID => σ (.term orderID)))
    rw [List.length_map] at length
    rw [evaluate, type]
    simp only
    rw [bits _ length, rows, decide_eq_false (Nat.not_lt_zero _), Bool.false_and]
  constructor
  · rintro ⟨other, built', decoded', agrees⟩ σ
    rw [built] at built'
    cases built'
    have value := (agrees σ).1
    rw [decoded, read σ] at value
    exact (Option.some.inj value).symm
  · intro zero
    refine ⟨table, built, decoded, fun σ => ⟨?_, ?_⟩⟩
    · rw [decoded, read σ, zero σ]
    · exact getBooleanExpression_getValue σ root (statesAgree_of_pins pins σ root inputs)

include inside in
/-- With 32 or more referenced pins there is no table: the shift that sizes it has no value. -/
theorem not_functionAgrees_many (many : 32 ≤ (referencedTerms pins root).length) :
    ¬ FunctionAgrees pins function root := by
  intro ⟨table, built, _⟩
  rw [getTruthTable_eq pins function root inside, if_pos (by omega)] at built
  obtain ⟨long, -⟩ := ofVector_spec _ _ _ _ built
  have small := small_of_oneShiftLeft _ (Nat.lt_trans (by decide) long)
  omega

end function

/-- The table, the expression and the function agree exactly with at most 30 referenced pins, or with 31 for the
constant false. -/
theorem functionAgrees_iff (pins : List Pin) (function : List Char) (root : Node)
    (parsed : parse (namesOf pins) function = .ok root)
    (inside : ∀ orderID, root.references orderID = true → isInput pins orderID = true) :
    FunctionAgrees pins function root ↔
      (referencedTerms pins root).length < 31 ∨
        (referencedTerms pins root).length = 31 ∧ ∀ σ, root.getValue σ = false := by
  have inputs : root.All (PinInput pins) := parse_all (namesOf pins) _ (resolveInput_pins pins) function root parsed
  rcases Nat.lt_trichotomy (referencedTerms pins root).length 31 with few | exactly | many
  · exact ⟨fun _ => .inl few, fun _ => functionAgrees_of_few pins function root inputs inside few⟩
  · rw [functionAgrees_31 pins function root inputs inside exactly]
    exact ⟨fun zero => .inr ⟨exactly, zero⟩, fun given => (given.resolve_left (by omega)).2⟩
  · have never := not_functionAgrees_many pins function root inside (by omega)
    exact ⟨fun agrees => absurd agrees never, fun given => by omega⟩

/-- A cell with an output between its inputs and an unused input. -/
def aoiPins : List Pin :=
  [⟨"B", .Input, true⟩, ⟨"Y", .Output, true⟩, ⟨"N", .Input, true⟩, ⟨"A", .Input, true⟩, ⟨"C", .Input, true⟩]

def aoiRoot : Node :=
  .not (.or (.and (.input (.term 3)) (.not (.input (.term 0)))) (.input (.term 4)))

theorem aoi_agrees :
    parse (namesOf aoiPins) "(A B' + C)'".toList = .ok aoiRoot ∧
      (FunctionAgrees aoiPins "(A B' + C)'".toList aoiRoot ↔
        (referencedTerms aoiPins aoiRoot).length < 31 ∨
          (referencedTerms aoiPins aoiRoot).length = 31 ∧ ∀ σ, aoiRoot.getValue σ = false) := by
  have parsed : parse (namesOf aoiPins) "(A B' + C)'".toList = .ok aoiRoot := by decide +kernel
  have inputs := parse_all _ _ (resolveInput_pins aoiPins) _ _ parsed
  have inside : ∀ orderID < 5, aoiRoot.references orderID = true → isInput aoiPins orderID = true := by decide
  exact ⟨parsed, functionAgrees_iff aoiPins _ aoiRoot parsed
    (fun orderID ref => inside orderID (references_lt aoiPins aoiRoot inputs orderID ref) ref)⟩

/-- A cell with 31 inputs and the conjunction of them all. -/
def wideNames : List Char := "abcdefghijklmnopqrstuvwxyzABCDE".toList

def widePins : List Pin := wideNames.map (fun c => ⟨String.singleton c, .Input, true⟩) ++ [⟨"Y", .Output, true⟩]

def wideFunction : List Char := wideNames.intersperse '*'

def wideRoot : Node := (List.range 30).foldl (fun n k => .and n (.input (.term (k + 1)))) (.input (.term 0))

/-- Its table says false where all inputs are true. -/
theorem wide_disagrees :
    parse (namesOf widePins) wideFunction = .ok wideRoot ∧
      (∀ orderID, wideRoot.references orderID = true → isInput widePins orderID = true) ∧
      ¬ FunctionAgrees widePins wideFunction wideRoot := by
  have parsed : parse (namesOf widePins) wideFunction = .ok wideRoot := by decide +kernel
  have inputs := parse_all _ _ (resolveInput_pins widePins) _ _ parsed
  have inside : ∀ orderID < 32, wideRoot.references orderID = true → isInput widePins orderID = true := by
    decide +kernel
  have inside' (orderID : Nat) (ref : wideRoot.references orderID = true) : isInput widePins orderID = true :=
    inside orderID (references_lt widePins wideRoot inputs orderID ref) ref
  refine ⟨parsed, inside', fun agrees => ?_⟩
  have count : (referencedTerms widePins wideRoot).length = 31 := by decide +kernel
  have zero := (functionAgrees_31 widePins wideFunction wideRoot inputs inside' count).mp agrees (fun _ => true)
  exact absurd zero (by decide +kernel)

end Naja.Liberty
