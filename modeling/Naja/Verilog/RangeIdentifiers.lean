import Naja.Verilog.Expressions

/-! Range identifiers as the reader resolves them: on both sides of an assign, in a
concatenation and as the connection of a port. A null pointer is nothing in the place
of a bit. -/

namespace Naja.Verilog.Reader
open Netlist (NetType)

structure Range where
  msb_ : Int
  lsb_ : Int
  singleValue_ : Bool
deriving DecidableEq, Repr

def Range.first (range : Range) : Int := range.msb_

def Range.last (range : Range) : Int := if range.singleValue_ then range.msb_ else range.lsb_

/-- A range that is not valid is none. -/
structure RangeIdentifier where
  identifier_ : String
  range_ : Option Range
deriving DecidableEq, Repr

structure BusNet where
  name : String
  msb : Int
  lsb : Int
deriving DecidableEq, Repr

inductive Net where
  | scalar (name : String)
  | bus (net : BusNet)
deriving DecidableEq, Repr

inductive BitNet where
  | scalar (name : String)
  | busBit (bus : String) (bit : Int)
  | constant (type : NetType)
deriving DecidableEq, Repr

/-- An exception, an assertion of a build that has them, or what the language leaves undefined. -/
inductive Failure where
  | exception | assertion | undefined
deriving DecidableEq, Repr

abbrev Nets := List (Option BitNet)

namespace BusNet
variable (net : BusNet)

/-- `bits_`, by position. -/
def bits_ : Nets := (busBits net.msb net.lsb).map (fun bit => some (.busBit net.name bit))

def getBitPosition (bit : Int) : Option Nat :=
  if Inside net.msb net.lsb bit then some (net.msb - bit).natAbs else none

def getBit (bit : Int) : Option BitNet := (net.getBitPosition bit).bind (fun position => (net.bits_[position]?).join)

/-- The iterators have to be in the vector and in order. -/
def insertBits (msb lsb : Int) : Except Failure Nets :=
  let msbPos := (net.msb - msb).natAbs
  let lsbPos := (net.msb - lsb).natAbs
  if msbPos ≤ lsbPos + 1 ∧ lsbPos + 1 ≤ net.bits_.length then .ok ((net.bits_.drop msbPos).take (lsbPos + 1 - msbPos))
  else .error .undefined

/-- The loops over the bits between two bounds. -/
def loopBits (msb lsb : Int) : Nets := (busBits msb lsb).map net.getBit

end BusNet

def Net.getBits : Net → Nets
  | .scalar name => [some (.scalar name)]
  | .bus net => net.bits_

abbrev Scope := String → Option Net

/-- A name without a range that is not declared is a scalar net. -/
def getNetOrCreateImplicitNet (scope : Scope) (identifier : RangeIdentifier) : Except Failure Net :=
  match scope identifier.identifier_ with
  | some net => .ok net
  | none => if identifier.range_.isSome then .error .exception else .ok (.scalar identifier.identifier_)

/-- A range of a net through `insertBits`. -/
def insertedNets (scope : Scope) (identifier : RangeIdentifier) : Except Failure Nets :=
  match getNetOrCreateImplicitNet scope identifier with
  | .error e => .error e
  | .ok net =>
      match identifier.range_, net with
      | some range, .bus net => net.insertBits range.first range.last
      | some _, .scalar _ => .error .exception
      | none, net => .ok net.getBits

def collectIdentifierNets : Scope → RangeIdentifier → Except Failure Nets := insertedNets

/-- The right side of an assign that is a range identifier. -/
def rightIdentifierNets : Scope → RangeIdentifier → Except Failure Nets := insertedNets

def createConstantNets (number : Number) : Except Failure Nets :=
  match number.value_ with
  | .other => .error .exception
  | .based basedNumber =>
      match numberToNetTypes basedNumber with
      | .error _ => .error .exception
      | .ok types =>
          if types.length ≠ basedNumber.size_ then .error .exception
          else .ok (types.reverse.map (fun type => some (.constant type)))

/-- `invalid` stands for an expression that is not valid or not supported. -/
inductive Element where
  | invalid
  | number (number : Number)
  | rangeIdentifier (identifier : RangeIdentifier)
  | other
deriving DecidableEq, Repr

/-- One element of a concatenation. -/
def elementNets (scope : Scope) : Element → Except Failure Nets
  | .invalid | .other => .error .exception
  | .number number => createConstantNets number
  | .rangeIdentifier identifier =>
      match getNetOrCreateImplicitNet scope identifier with
      | .error e => .error e
      | .ok (.scalar name) => if identifier.range_.isSome then .error .exception else .ok [some (.scalar name)]
      | .ok (.bus net) =>
          match identifier.range_ with
          | none => .ok net.bits_
          | some range =>
              if range.singleValue_ then .ok [net.getBit range.msb_] else .ok (net.loopBits range.msb_ range.lsb_)

def concatenated {α : Type} (nets : α → Except Failure Nets) : List α → Except Failure Nets
  | [] => .ok []
  | x :: xs => (nets x).bind (fun first => (concatenated nets xs).map (fun rest => first ++ rest))

def collectConcatenationBitNets (scope : Scope) (expressions_ : List Element) : Except Failure Nets :=
  concatenated (elementNets scope) expressions_

/-! ### Port connections -/

inductive Term where
  | scalar
  | bus (msb lsb : Int)
deriving DecidableEq, Repr

/-- The bits of a term; a scalar one is its own bit. -/
def Term.bits : Term → List (Option Int)
  | .scalar => [none]
  | .bus msb lsb => (busBits msb lsb).map some

/-- A bit of a term and the net it gets. -/
abbrev Connections := List (Option Int × Option BitNet)

/-- A null terminal is only asserted against. -/
def setTermsNets (assertions : Bool) (terms : List (Option (Option Int))) (nets : Nets) : Except Failure Connections :=
  if terms.length ≠ nets.length then .error .exception
  else if terms.any Option.isNone then .error (if assertions then .assertion else .undefined)
  else .ok ((terms.filterMap id).zip nets)

/-- The bits of a term from its first one on: null ones outside of its range. -/
def termBits (assertions : Bool) (term : Term) (size : Nat) : Except Failure (List (Option (Option Int))) :=
  match term with
  | .scalar => .ok [some none]
  | .bus msb lsb =>
      let termLSB := if msb < lsb then msb + size - 1 else msb - size + 1
      if assertions ∧ ¬Inside msb lsb termLSB then .error .assertion
      else .ok ((busBits msb termLSB).map (fun bit => if Inside msb lsb bit then some (some bit) else none))

/-- `setTermNet(term, net, netMSB, netLSB)` on a bus net. -/
def setTermNet (assertions : Bool) (term : Term) (net : BusNet) (netMSB netLSB : Int) : Except Failure Connections :=
  match termBits assertions term ((netMSB - netLSB).natAbs + 1) with
  | .error e => .error e
  | .ok terms =>
      if assertions ∧ ¬(Inside net.msb net.lsb netMSB ∧ Inside net.msb net.lsb netLSB) then .error .assertion
      else setTermsNets assertions terms (net.loopBits netMSB netLSB)

/-- `currentInstancePortConnection` with a range identifier. -/
def portConnection (assertions : Bool) (scope : Scope) (term : Term) (identifier : RangeIdentifier) :
    Except Failure Connections :=
  match getNetOrCreateImplicitNet scope identifier with
  | .error e => .error e
  | .ok net =>
      match identifier.range_, net with
      | some range, .bus net => setTermNet assertions term net range.first range.last
      | some _, .scalar _ => .error .exception
      | none, net =>
          if term.bits.length ≠ net.getBits.length then .error .exception
          else setTermsNets assertions (term.bits.map some) net.getBits

/-! ### Assigns -/

inductive Expression where
  | invalid
  | unsupported
  | number (number : Number)
  | rangeIdentifier (identifier : RangeIdentifier)
  | concatenation (expressions_ : List Element)
  | other
deriving DecidableEq, Repr

def leftNets (scope : Scope) (identifiers : List RangeIdentifier) : Except Failure Nets :=
  concatenated (collectIdentifierNets scope) identifiers

def rightNets (scope : Scope) : Expression → Except Failure Nets
  | .invalid => .ok []
  | .unsupported | .other => .error .exception
  | .number number => createConstantNets number
  | .rangeIdentifier identifier => rightIdentifierNets scope identifier
  | .concatenation expressions_ => collectConcatenationBitNets scope expressions_

/-- The loop over the left nets reads the right ones without a check, and connects no null net. -/
def connect : Nets → Nets → Except Failure (List (BitNet × BitNet))
  | [], _ => .ok []
  | some left :: lefts, some right :: rights => (connect lefts rights).map (fun pairs => (left, right) :: pairs)
  | _, _ => .error .undefined

/-- The pairs of nets that get an assign. -/
def addAssign (assertions : Bool) (scope : Scope) (identifiers : List RangeIdentifier) (expression : Expression) :
    Except Failure (List (BitNet × BitNet)) :=
  (leftNets scope identifiers).bind (fun left => (rightNets scope expression).bind (fun right =>
    if assertions ∧ left.length ≠ right.length then .error .assertion else connect left right))

/-! ### What is claimed -/

def Rejected {α : Type} (outcome : Except Failure α) : Prop := outcome = .error .exception ∨ outcome = .error .assertion

/-- The bits from the left bound to the right bound, if both are in the bus. -/
def rangeBits (net : BusNet) : Option Range → Option (List BitNet)
  | none => some ((busBits net.msb net.lsb).map (BitNet.busBit net.name))
  | some range =>
      if Inside net.msb net.lsb range.first ∧ Inside net.msb net.lsb range.last then
        some ((busBits range.first range.last).map (BitNet.busBit net.name))
      else none

/-- A range identifier is used alike in its four places. -/
structure Exact (assertions : Bool) (scope : Scope) (identifier : RangeIdentifier) (bits : List BitNet) : Prop where
  left : collectIdentifierNets scope identifier = .ok (bits.map some)
  right : rightIdentifierNets scope identifier = .ok (bits.map some)
  concatenation : elementNets scope (.rangeIdentifier identifier) = .ok (bits.map some)
  port : ∀ term, term.bits.length = bits.length →
    portConnection assertions scope term identifier = .ok (term.bits.zip (bits.map some))
  wider : ∀ term connections, portConnection assertions scope term identifier = .ok connections →
    connections.map Prod.snd = bits.map some

structure Refused (assertions : Bool) (scope : Scope) (identifier : RangeIdentifier) : Prop where
  left : Rejected (collectIdentifierNets scope identifier)
  right : Rejected (rightIdentifierNets scope identifier)
  concatenation : Rejected (elementNets scope (.rangeIdentifier identifier))
  port : ∀ term, Rejected (portConnection assertions scope term identifier)

def SameBits (assertions : Bool) (scope : Scope) (net : BusNet) (range : Option Range) : Prop :=
  match rangeBits net range with
  | some bits => Exact assertions scope ⟨net.name, range⟩ bits
  | none => Refused assertions scope ⟨net.name, range⟩

/-- Both bounds are in the bus, in the direction of the bus. -/
def InOrder (net : BusNet) : Option Range → Prop
  | none => True
  | some range => Inside net.msb net.lsb range.first ∧ Inside net.msb net.lsb range.last ∧
      SameDirection net.msb net.lsb range.first range.last

/-- The ranges in a concatenation have their bounds in their buses. -/
def Bounded (scope : Scope) : Expression → Prop
  | .concatenation expressions_ => ∀ identifier net range, .rangeIdentifier identifier ∈ expressions_ →
      scope identifier.identifier_ = some (.bus net) → identifier.range_ = some range →
      Inside net.msb net.lsb range.first ∧ Inside net.msb net.lsb range.last
  | _ => True

/-- Sides of the same width are connected pairwise, others are refused. -/
def Pairwise (assertions : Bool) (scope : Scope) (identifiers : List RangeIdentifier) (expression : Expression)
    (left right : Nets) : Prop :=
  if left.length = right.length then
    ∃ lefts rights : List BitNet, left = lefts.map some ∧ right = rights.map some ∧
      addAssign assertions scope identifiers expression = .ok (lefts.zip rights)
  else Rejected (addAssign assertions scope identifiers expression)

/-! ### Ranges of a bus -/

theorem length_busBits (msb lsb : Int) : (busBits msb lsb).length = (msb - lsb).natAbs + 1 := by
  rw [busBits, List.length_map, List.length_range]

theorem mem_busBits (msb lsb bit : Int) (member : bit ∈ busBits msb lsb) : Inside msb lsb bit := by
  obtain ⟨i, inRange, rfl⟩ := List.mem_map.mp member
  rw [List.mem_range] at inRange
  unfold Inside
  split <;> omega

theorem getElem?_busBits (msb lsb bit : Int) (inside : Inside msb lsb bit) :
    (busBits msb lsb)[(msb - bit).natAbs]? = some bit := by
  unfold Inside at inside
  unfold busBits
  rw [List.getElem?_map, List.getElem?_range (by omega), Option.map_some]
  refine congrArg some ?_
  split <;> omega

theorem inside_between (msb lsb first last bit : Int) (insideFirst : Inside msb lsb first) (insideLast : Inside msb lsb last)
    (between : Inside first last bit) : Inside msb lsb bit := by
  unfold Inside at *
  omega

/-- A part of a run is a run. -/
theorem run_part (first step : Int) (n from_ count : Nat) (fits : from_ + count ≤ n) :
    ((run first step n).drop from_).take count = run (first + step * from_) step count := by
  refine List.ext_getElem? ?_
  intro i
  unfold run
  rw [List.getElem?_take]
  split
  · next small =>
      rw [List.getElem?_drop, List.getElem?_map, List.getElem?_map, List.getElem?_range (by omega),
        List.getElem?_range small, Option.map_some, Option.map_some]
      refine congrArg some ?_
      rw [Int.natCast_add, Int.mul_add, Int.add_assoc]
  · next large =>
      rw [List.getElem?_map, List.getElem?_eq_none (by rw [List.length_range]; omega)]
      rfl

section bus
variable (net : BusNet) (first last : Int) (insideFirst : Inside net.msb net.lsb first)
  (insideLast : Inside net.msb net.lsb last)

theorem length_bits : net.bits_.length = (net.msb - net.lsb).natAbs + 1 := by
  rw [BusNet.bits_, List.length_map, length_busBits]

include insideFirst

theorem getBit_inside : net.getBit first = some (.busBit net.name first) := by
  unfold BusNet.getBit BusNet.getBitPosition BusNet.bits_
  rw [if_pos insideFirst, Option.bind_some, List.getElem?_map, getElem?_busBits _ _ _ insideFirst]
  rfl

include insideLast

theorem loopBits_inside : net.loopBits first last = ((busBits first last).map (BitNet.busBit net.name)).map some := by
  rw [BusNet.loopBits, List.map_map]
  refine List.map_congr_left ?_
  intro bit member
  exact getBit_inside net bit (inside_between _ _ first last bit insideFirst insideLast (mem_busBits first last bit member))

/-- In the direction of the bus the iterators span the bits between the bounds. -/
theorem insertBits_inOrder (direction : SameDirection net.msb net.lsb first last) :
    net.insertBits first last = .ok (((busBits first last).map (BitNet.busBit net.name)).map some) := by
  have positions : (net.msb - first).natAbs ≤ (net.msb - last).natAbs ∧
      (net.msb - last).natAbs + 1 ≤ (net.msb - net.lsb).natAbs + 1 := by
    unfold Inside at insideFirst insideLast
    unfold SameDirection at direction
    split at direction <;> omega
  have count : (net.msb - last).natAbs + 1 - (net.msb - first).natAbs = (first - last).natAbs + 1 := by
    unfold Inside at insideFirst insideLast
    unfold SameDirection at direction
    split at direction <;> omega
  have span : ((busBits net.msb net.lsb).drop (net.msb - first).natAbs).take ((first - last).natAbs + 1) =
      busBits first last := by
    rw [busBits_eq_run, run_part _ _ _ _ _ (by omega), busBits_eq_run]
    have start : net.msb + (if net.msb > net.lsb then -1 else 1) * ((net.msb - first).natAbs : Int) = first := by
      unfold Inside at insideFirst
      split <;> omega
    rw [start]
    by_cases single : first = last
    · subst single
      rw [Int.sub_self]
      simp [run]
    · have step : (if net.msb > net.lsb then (-1 : Int) else 1) = if first > last then -1 else 1 := by
        unfold Inside at insideFirst insideLast
        unfold SameDirection at direction
        split at direction <;> split <;> omega
      rw [step]
  unfold BusNet.insertBits
  simp only [length_bits]
  rw [if_pos ⟨by omega, positions.2⟩, count, BusNet.bits_, ← List.map_drop, ← List.map_take, span, List.map_map]
  rfl

/-- Against the direction of the bus they do not. -/
theorem insertBits_reversed (reversed : ¬SameDirection net.msb net.lsb first last) :
    net.insertBits first last ≠ .ok (((busBits first last).map (BitNet.busBit net.name)).map some) := by
  intro same
  have positions : (net.msb - last).natAbs < (net.msb - first).natAbs := by
    unfold Inside at insideFirst insideLast
    unfold SameDirection at reversed
    split at reversed <;> omega
  unfold BusNet.insertBits at same
  simp only at same
  split at same
  · have lengths := congrArg List.length (Except.ok.inj same)
    rw [List.length_map, List.length_map, length_busBits, List.length_take] at lengths
    omega
  · contradiction

end bus

/-- The bits of a term from its first one on, as many as the nets, when they fit it exactly. -/
theorem termBits_exact (assertions : Bool) (term : Term) (size : Nat) (fits : term.bits.length = size) :
    termBits assertions term size = .ok (term.bits.map some) := by
  cases term with
  | scalar => rfl
  | bus msb lsb =>
      rw [Term.bits, List.length_map, length_busBits] at fits
      have termLSB : (if msb < lsb then msb + (size : Int) - 1 else msb - size + 1) = lsb := by
        split <;> omega
      have insideLSB : Inside msb lsb lsb := by
        unfold Inside
        omega
      unfold termBits
      simp only [termLSB]
      rw [if_neg (fun h => h.2 insideLSB), Term.bits, List.map_map]
      refine congrArg Except.ok (List.map_congr_left ?_)
      intro bit member
      rw [if_pos (mem_busBits _ _ _ member)]
      rfl

theorem setTermsNets_exact (assertions : Bool) (bits : List (Option Int)) (nets : Nets)
    (fits : bits.length = nets.length) : setTermsNets assertions (bits.map some) nets = .ok (bits.zip nets) := by
  have present : (bits.map some).any Option.isNone = false := by
    rw [List.any_map, List.any_eq_false]
    intro bit _
    exact Bool.false_ne_true
  have kept : (bits.map some).filterMap id = bits := by
    rw [List.filterMap_map]
    exact List.filterMap_some
  unfold setTermsNets
  rw [List.length_map, if_neg (not_not.mpr fits), present, kept]
  rfl

/-- What gets connected are the nets, whatever the terms. -/
theorem setTermsNets_nets (assertions : Bool) (terms : List (Option (Option Int))) (nets : Nets)
    (connections : Connections) (connected : setTermsNets assertions terms nets = .ok connections) :
    connections.map Prod.snd = nets := by
  unfold setTermsNets at connected
  by_cases sizes : terms.length = nets.length
  · rw [if_neg (not_not.mpr sizes)] at connected
    cases absent : terms.any Option.isNone with
    | true =>
        rw [absent] at connected
        cases connected
    | false =>
        rw [absent] at connected
        cases connected
        have kept : (terms.filterMap id).length = terms.length := by
          rw [List.filterMap_length_eq_length]
          intro term member
          have present := List.any_eq_false.mp absent term member
          cases term with
          | none => exact absurd rfl present
          | some term => rfl
        exact List.map_snd_zip (by omega)
  · rw [if_pos sizes] at connected
    cases connected

section identifier
variable (assertions : Bool) (scope : Scope) (net : BusNet) (declared : scope net.name = some (.bus net))

include declared

theorem insertedNets_of_bus (range : Option Range) :
    insertedNets scope ⟨net.name, range⟩ =
      match range with
      | some range => net.insertBits range.first range.last
      | none => .ok net.bits_ := by
  unfold insertedNets getNetOrCreateImplicitNet
  simp only [declared]
  cases range <;> rfl

theorem elementNets_of_bus (range : Option Range) :
    elementNets scope (.rangeIdentifier ⟨net.name, range⟩) =
      match range with
      | some range => if range.singleValue_ then .ok [net.getBit range.msb_] else .ok (net.loopBits range.msb_ range.lsb_)
      | none => .ok net.bits_ := by
  unfold elementNets getNetOrCreateImplicitNet
  simp only [declared]
  cases range <;> rfl

theorem portConnection_of_bus (term : Term) (range : Option Range) :
    portConnection assertions scope term ⟨net.name, range⟩ =
      match range with
      | some range => setTermNet assertions term net range.first range.last
      | none =>
          if term.bits.length ≠ net.bits_.length then .error .exception
          else setTermsNets assertions (term.bits.map some) net.bits_ := by
  unfold portConnection getNetOrCreateImplicitNet
  simp only [declared]
  cases range <;> rfl

/-- A concatenation takes what it is given. -/
theorem concatenation_accepts (range : Option Range) :
    ¬Rejected (elementNets scope (.rangeIdentifier ⟨net.name, range⟩)) := by
  rw [elementNets_of_bus scope net declared]
  intro rejected
  cases range with
  | none => cases rejected with
    | inl h => cases h
    | inr h => cases h
  | some range =>
      simp only at rejected
      split at rejected
      · cases rejected with
        | inl h => cases h
        | inr h => cases h
      · cases rejected with
        | inl h => cases h
        | inr h => cases h

theorem whole_exact : Exact assertions scope ⟨net.name, none⟩ ((busBits net.msb net.lsb).map (BitNet.busBit net.name)) := by
  have bits : net.bits_ = ((busBits net.msb net.lsb).map (BitNet.busBit net.name)).map some := by
    rw [BusNet.bits_, List.map_map]
    rfl
  have inserted := insertedNets_of_bus scope net declared none
  rw [bits] at inserted
  refine ⟨inserted, inserted, ?_, ?_, ?_⟩
  · rw [elementNets_of_bus scope net declared, bits]
  · intro term width
    rw [portConnection_of_bus assertions scope net declared, bits]
    simp only [List.length_map] at width ⊢
    rw [if_neg (not_not.mpr width)]
    exact setTermsNets_exact assertions _ _ (by simpa using width)
  · intro term connections connected
    rw [portConnection_of_bus assertions scope net declared, bits] at connected
    simp only at connected
    split at connected
    · cases connected
    · exact setTermsNets_nets _ _ _ _ connected

theorem range_exact (range : Range) (insideFirst : Inside net.msb net.lsb range.first)
    (insideLast : Inside net.msb net.lsb range.last)
    (direction : SameDirection net.msb net.lsb range.first range.last) :
    Exact assertions scope ⟨net.name, some range⟩ ((busBits range.first range.last).map (BitNet.busBit net.name)) := by
  have inserted := (insertedNets_of_bus scope net declared (some range)).trans
    (insertBits_inOrder net _ _ insideFirst insideLast direction)
  have looped := loopBits_inside net range.first range.last insideFirst insideLast
  refine ⟨inserted, inserted, ?_, ?_, ?_⟩
  · rw [elementNets_of_bus scope net declared]
    simp only
    by_cases single : range.singleValue_ = true
    · have last : range.last = range.msb_ := by rw [Range.last, if_pos single]
      rw [if_pos single, last]
      refine congrArg Except.ok ?_
      have present := getBit_inside net range.first insideFirst
      change [net.getBit range.first] = ((busBits range.first range.first).map _).map some
      rw [present]
      simp [busBits]
    · have last : range.last = range.lsb_ := by rw [Range.last, if_neg single]
      rw [last] at looped ⊢
      rw [if_neg single]
      exact congrArg Except.ok looped
  · intro term width
    rw [List.length_map, length_busBits] at width
    rw [portConnection_of_bus assertions scope net declared]
    simp only
    unfold setTermNet
    rw [termBits_exact assertions term _ width]
    simp only
    rw [if_neg (fun h => h.2 ⟨insideFirst, insideLast⟩), looped]
    exact setTermsNets_exact assertions _ _ (by simpa [length_busBits] using width)
  · intro term connections connected
    rw [portConnection_of_bus assertions scope net declared] at connected
    simp only at connected
    unfold setTermNet at connected
    split at connected
    · cases connected
    · rw [if_neg (fun h => h.2 ⟨insideFirst, insideLast⟩), looped] at connected
      exact setTermsNets_nets _ _ _ _ connected

/-- The four places agree on the ranges in the bus and in its direction, and on no others. -/
theorem sameBits_iff_inOrder (range : Option Range) : SameBits assertions scope net range ↔ InOrder net range := by
  cases range with
  | none => exact iff_of_true (whole_exact assertions scope net declared) trivial
  | some range =>
      unfold SameBits rangeBits InOrder
      simp only
      by_cases inside : Inside net.msb net.lsb range.first ∧ Inside net.msb net.lsb range.last
      · rw [if_pos inside]
        constructor
        · intro exact_
          refine ⟨inside.1, inside.2, ?_⟩
          by_contra reversed
          refine insertBits_reversed net _ _ inside.1 inside.2 reversed ?_
          exact (insertedNets_of_bus scope net declared (some range)).symm.trans exact_.left
        · intro ordered
          exact range_exact assertions scope net declared range inside.1 inside.2 ordered.2.2
      · rw [if_neg inside]
        constructor
        · intro refused
          exact absurd refused.concatenation (concatenation_accepts scope net declared (some range))
        · intro ordered
          exact absurd ⟨ordered.1, ordered.2.1⟩ inside

end identifier

/-! ### Both sides of an assign -/

theorem connect_complete (lefts rights : List BitNet) (sizes : lefts.length = rights.length) :
    connect (lefts.map some) (rights.map some) = .ok (lefts.zip rights) := by
  induction lefts generalizing rights with
  | nil => rfl
  | cons left lefts ih =>
      cases rights with
      | nil => contradiction
      | cons right rights =>
          rw [List.map_cons, List.map_cons, connect, ih rights (Nat.succ.inj sizes)]
          rfl

/-- The loop never throws: it ends or leaves what the language defines. -/
theorem connect_not_rejected (left right : Nets) : ¬Rejected (connect left right) := by
  fun_induction connect left right with
  | case1 => intro h; cases h <;> contradiction
  | case2 left lefts right rights ih =>
      intro rejected
      cases outcome : connect lefts rights with
      | ok pairs =>
          rw [outcome] at rejected
          cases rejected <;> contradiction
      | error e =>
          rw [outcome] at rejected ih
          refine ih ?_
          cases rejected with
          | inl h => exact .inl (congrArg Except.error (Except.error.inj h))
          | inr h => exact .inr (congrArg Except.error (Except.error.inj h))
  | case3 => intro h; cases h <;> contradiction

theorem complete_iff (nets : Nets) : none ∉ nets ↔ ∃ bits : List BitNet, nets = bits.map some := by
  constructor
  · intro complete
    refine ⟨nets.filterMap id, ?_⟩
    induction nets with
    | nil => rfl
    | cons net nets ih =>
        cases net with
        | none => exact absurd List.mem_cons_self complete
        | some net =>
            exact congrArg _ (ih (fun member => complete (List.mem_cons_of_mem _ member)))
  · rintro ⟨bits, rfl⟩ member
    obtain ⟨bit, _, absurd_⟩ := List.mem_map.mp member
    cases absurd_

theorem insertedNets_complete (scope : Scope) (identifier : RangeIdentifier) (nets : Nets)
    (read : insertedNets scope identifier = .ok nets) : none ∉ nets := by
  have bits_complete (net : BusNet) : none ∉ net.bits_ := by
    intro member
    obtain ⟨bit, _, absurd_⟩ := List.mem_map.mp member
    cases absurd_
  unfold insertedNets at read
  split at read
  · cases read
  · split at read
    · unfold BusNet.insertBits at read
      simp only at read
      split at read
      · cases read
        exact fun member => bits_complete _ (List.mem_of_mem_drop (List.mem_of_mem_take member))
      · cases read
    · cases read
    · next net _ _ _ _ =>
        have bits := Except.ok.inj read
        rw [← bits]
        cases net with
        | scalar name =>
            intro member
            cases List.mem_singleton.mp member
        | bus net => exact bits_complete net

theorem concatenated_complete {α : Type} (nets : α → Except Failure Nets) (xs : List α) (result : Nets)
    (read : concatenated nets xs = .ok result) :
    none ∉ result ↔ ∀ x ∈ xs, ∀ part, nets x = .ok part → none ∉ part := by
  induction xs generalizing result with
  | nil =>
      cases read
      simp
  | cons x xs ih =>
      unfold concatenated at read
      cases first : nets x with
      | error e =>
          rw [first] at read
          cases read
      | ok part =>
          cases others : concatenated nets xs with
          | error e =>
              rw [first, others] at read
              cases read
          | ok rest =>
              rw [first, others] at read
              cases read
              rw [List.mem_append, not_or, ih rest others, List.forall_mem_cons, first]
              simp

/-- The nets of a left side are all there. -/
theorem leftNets_complete (scope : Scope) (identifiers : List RangeIdentifier) (left : Nets)
    (read : leftNets scope identifiers = .ok left) : none ∉ left :=
  (concatenated_complete _ identifiers left read).mpr
    (fun identifier _ part inserted => insertedNets_complete scope identifier part inserted)

theorem createConstantNets_complete (number : Number) (nets : Nets) (read : createConstantNets number = .ok nets) :
    none ∉ nets := by
  unfold createConstantNets at read
  split at read
  · cases read
  · split at read
    · cases read
    · split at read
      · cases read
      · cases read
        simp

theorem loopBits_complete (net : BusNet) (first last : Int) :
    none ∉ net.loopBits first last ↔ Inside net.msb net.lsb first ∧ Inside net.msb net.lsb last := by
  have bound (bit : Int) (inside : Inside first last bit) (all : none ∉ net.loopBits first last) :
      Inside net.msb net.lsb bit := by
    by_contra outside
    refine all (List.mem_map.mpr ⟨bit, List.mem_of_getElem? (getElem?_busBits first last bit inside), ?_⟩)
    unfold BusNet.getBit BusNet.getBitPosition
    rw [if_neg outside]
    rfl
  constructor
  · intro all
    have insideFirst : Inside first last first := by
      unfold Inside
      omega
    have insideLast : Inside first last last := by
      unfold Inside
      omega
    exact ⟨bound first insideFirst all, bound last insideLast all⟩
  · intro inside
    rw [loopBits_inside net first last inside.1 inside.2]
    simp

/-- Only a range in a concatenation gives null nets. -/
theorem elementNets_complete (scope : Scope) (identifier : RangeIdentifier) (nets : Nets)
    (read : elementNets scope (.rangeIdentifier identifier) = .ok nets) :
    none ∉ nets ↔ ∀ net range, scope identifier.identifier_ = some (.bus net) → identifier.range_ = some range →
      Inside net.msb net.lsb range.first ∧ Inside net.msb net.lsb range.last := by
  obtain ⟨name, given⟩ := identifier
  unfold elementNets getNetOrCreateImplicitNet at read
  simp only at read ⊢
  cases found : scope name with
  | none =>
      rw [found] at read
      cases given with
      | none =>
          cases read
          simp
      | some range => cases read
  | some net =>
      rw [found] at read
      cases net with
      | scalar name =>
          cases given with
          | none =>
              cases read
              simp
          | some range => cases read
      | bus net =>
          cases given with
          | none =>
              cases read
              simp [BusNet.bits_]
          | some range =>
              have whole : nets = net.loopBits range.first range.last := by
                simp only at read
                by_cases single : range.singleValue_ = true
                · rw [if_pos single] at read
                  rw [Range.last, if_pos single, ← Except.ok.inj read]
                  simp [BusNet.loopBits, busBits, Range.first]
                · rw [if_neg single] at read
                  rw [Range.last, if_neg single, ← Except.ok.inj read]
                  rfl
              rw [whole, loopBits_complete]
              simp

theorem rightNets_complete (scope : Scope) (expression : Expression) (right : Nets)
    (read : rightNets scope expression = .ok right) : none ∉ right ↔ Bounded scope expression := by
  cases expression with
  | invalid =>
      cases read
      simp [Bounded]
  | unsupported => cases read
  | other => cases read
  | number number => exact iff_of_true (createConstantNets_complete number right read) trivial
  | rangeIdentifier identifier => exact iff_of_true (insertedNets_complete scope identifier right read) trivial
  | concatenation expressions_ =>
      rw [concatenated_complete _ expressions_ right read]
      constructor
      · intro each identifier net range member declared given
        cases part : elementNets scope (.rangeIdentifier identifier) with
        | ok nets => exact (elementNets_complete scope identifier nets part).mp (each _ member nets part) net range declared given
        | error e =>
            unfold elementNets getNetOrCreateImplicitNet at part
            simp only [declared, given] at part
            split at part <;> cases part
      · intro bounded element member nets part
        cases element with
        | invalid => cases part
        | other => cases part
        | number number => exact createConstantNets_complete number nets part
        | rangeIdentifier identifier =>
            refine (elementNets_complete scope identifier nets part).mpr ?_
            intro net range declared given
            exact bounded identifier net range member declared given

section assign
variable (assertions : Bool) (scope : Scope) (identifiers : List RangeIdentifier) (expression : Expression)
  (left right : Nets) (readLeft : leftNets scope identifiers = .ok left) (readRight : rightNets scope expression = .ok right)

include readLeft readRight

theorem addAssign_of_nets :
    addAssign assertions scope identifiers expression =
      if assertions ∧ left.length ≠ right.length then .error .assertion else connect left right := by
  unfold addAssign
  rw [readLeft, readRight]
  rfl

theorem pairwise_iff : Pairwise assertions scope identifiers expression left right ↔
    if left.length = right.length then Bounded scope expression else assertions = true := by
  rw [← rightNets_complete scope expression right readRight]
  have complete := leftNets_complete scope identifiers left readLeft
  obtain ⟨lefts, rfl⟩ := (complete_iff left).mp complete
  unfold Pairwise
  rw [addAssign_of_nets assertions scope identifiers expression _ right readLeft readRight]
  by_cases sizes : (lefts.map some).length = right.length
  · rw [if_pos sizes, if_pos sizes, if_neg (fun h => h.2 sizes)]
    constructor
    · rintro ⟨_, rights, _, whole, _⟩
      exact (complete_iff right).mpr ⟨rights, whole⟩
    · intro all
      obtain ⟨rights, rfl⟩ := (complete_iff right).mp all
      refine ⟨lefts, rights, rfl, rfl, connect_complete lefts rights ?_⟩
      rwa [List.length_map, List.length_map] at sizes
  · rw [if_neg sizes, if_neg sizes]
    constructor
    · intro rejected
      by_contra release
      rw [if_neg (fun h => release h.1)] at rejected
      exact connect_not_rejected _ _ rejected
    · intro checked
      rw [if_pos ⟨checked, sizes⟩]
      exact .inr rfl

end assign

/-- Which ranges mean the same bits in the four places, and which assigns pair the bits or fail. -/
theorem range_identifiers_iff (assertions : Bool) (scope : Scope) :
    (∀ (net : BusNet) (range : Option Range), scope net.name = some (.bus net) →
      (SameBits assertions scope net range ↔ InOrder net range)) ∧
    (∀ (identifiers : List RangeIdentifier) (expression : Expression) (left right : Nets),
      leftNets scope identifiers = .ok left → rightNets scope expression = .ok right →
      (Pairwise assertions scope identifiers expression left right ↔
        if left.length = right.length then Bounded scope expression else assertions = true)) := by
  constructor
  · intro net range declared
    exact sameBits_iff_inOrder assertions scope net declared range
  · intro identifiers expression left right readLeft readRight
    exact pairwise_iff assertions scope identifiers expression left right readLeft readRight

/-- A module with one bus net. -/
def single (net : BusNet) : Scope := fun name => if name = net.name then some (.bus net) else none

/-- `a[2:1] = b` where `b` is two bits of `a`, in a build without assertions. -/
theorem range_identifiers_bus :
    (SameBits false (single ⟨"a", 3, 0⟩) ⟨"a", 3, 0⟩ (some ⟨2, 1, false⟩) ↔
      InOrder ⟨"a", 3, 0⟩ (some ⟨2, 1, false⟩)) ∧
    (Pairwise false (single ⟨"a", 3, 0⟩) [⟨"a", some ⟨2, 1, false⟩⟩] (.rangeIdentifier ⟨"a", some ⟨1, 0, false⟩⟩)
        [some (.busBit "a" 2), some (.busBit "a" 1)] [some (.busBit "a" 1), some (.busBit "a" 0)] ↔
      if ([some (.busBit "a" 2), some (.busBit "a" 1)] : Nets).length =
          ([some (.busBit "a" 1), some (.busBit "a" 0)] : Nets).length then
        Bounded (single ⟨"a", 3, 0⟩) (.rangeIdentifier ⟨"a", some ⟨1, 0, false⟩⟩)
      else false = true) :=
  ⟨(range_identifiers_iff false (single ⟨"a", 3, 0⟩)).1 ⟨"a", 3, 0⟩ (some ⟨2, 1, false⟩) (by decide),
    (range_identifiers_iff false (single ⟨"a", 3, 0⟩)).2 [⟨"a", some ⟨2, 1, false⟩⟩]
      (.rangeIdentifier ⟨"a", some ⟨1, 0, false⟩⟩) [some (.busBit "a" 2), some (.busBit "a" 1)]
      [some (.busBit "a" 1), some (.busBit "a" 0)] (by decide) (by decide)⟩

/-- `b[0:1]` of a bus `[3:0]` has no bits on a side of an assign and two in a concatenation, and `b[5]` is `b[1]`
on the side, a null net in the concatenation. Three bits are assigned to two without a word. -/
theorem range_identifiers_differ :
    rightIdentifierNets (single ⟨"b", 3, 0⟩) ⟨"b", some ⟨0, 1, false⟩⟩ = .ok [] ∧
    elementNets (single ⟨"b", 3, 0⟩) (.rangeIdentifier ⟨"b", some ⟨0, 1, false⟩⟩) =
      .ok [some (.busBit "b" 0), some (.busBit "b" 1)] ∧
    rightIdentifierNets (single ⟨"b", 3, 0⟩) ⟨"b", some ⟨5, 0, true⟩⟩ = .ok [some (.busBit "b" 1)] ∧
    elementNets (single ⟨"b", 3, 0⟩) (.rangeIdentifier ⟨"b", some ⟨5, 0, true⟩⟩) = .ok [none] ∧
    addAssign false (single ⟨"b", 3, 0⟩) [⟨"b", some ⟨1, 0, false⟩⟩] (.rangeIdentifier ⟨"b", some ⟨3, 1, false⟩⟩) =
      .ok [(.busBit "b" 1, .busBit "b" 3), (.busBit "b" 0, .busBit "b" 2)] ∧
    ¬SameBits false (single ⟨"b", 3, 0⟩) ⟨"b", 3, 0⟩ (some ⟨0, 1, false⟩) ∧
    ¬SameBits false (single ⟨"b", 3, 0⟩) ⟨"b", 3, 0⟩ (some ⟨5, 0, true⟩) := by
  refine ⟨by decide, by decide, by decide, by decide, by decide, ?_, ?_⟩
  · intro same
    have ordered := (sameBits_iff_inOrder false _ ⟨"b", 3, 0⟩ (by decide) _).mp same
    exact absurd ordered.2.2 (by decide)
  · intro same
    have ordered := (sameBits_iff_inOrder false _ ⟨"b", 3, 0⟩ (by decide) _).mp same
    exact absurd ordered.1 (by decide)

end Naja.Verilog.Reader
