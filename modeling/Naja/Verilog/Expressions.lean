import Naja.Verilog.NumbersAgree

/-! Net expressions and the bits they stand for, the most significant one first.
Declarations map identifiers to wires and buses over any kind of nets. -/

namespace Naja.Verilog
open Netlist (NetType)

inductive Declaration (α : Type) where
  | wire (net : α)
  | bus (net : α) (msb lsb : Int)
deriving DecidableEq, Repr

inductive ConnectedBit (α : Type) where
  | constant (type : NetType)
  | wire (net : α)
  | select (net : α) (bit : Int)
deriving DecidableEq, Repr

inductive Expression where
  | literal (number : BasedNumber)
  | name (id : String)
  | select (id : String) (bit : Int)
  | range (id : String) (msb lsb : Int)
  | concat (parts : List Expression)

/-- The indexes of a bus or of a part of it, in the direction of its bounds. -/
def busBits (msb lsb : Int) : List Int :=
  (List.range ((msb - lsb).natAbs + 1)).map (fun i : Nat => if msb > lsb then msb - i else msb + i)

def Inside (msb lsb bit : Int) : Prop := lsb ≤ bit ∧ bit ≤ msb ∨ msb ≤ bit ∧ bit ≤ lsb

instance (msb lsb bit : Int) : Decidable (Inside msb lsb bit) := inferInstanceAs (Decidable (_ ∨ _))

/-- A part-select goes in the direction of the declaration. -/
def SameDirection (msb lsb first last : Int) : Prop := if msb > lsb then first ≥ last else first ≤ last

instance (msb lsb first last : Int) : Decidable (SameDirection msb lsb first last) :=
  inferInstanceAs (Decidable (if msb > lsb then first ≥ last else first ≤ last))

section
variable {α : Type} (declared : String → Option (Declaration α))

def selectBit (id : String) (bit : Int) : Option (List (ConnectedBit α)) :=
  match declared id with
  | some (.bus net msb lsb) => if Inside msb lsb bit then some [.select net bit] else none
  | _ => none

def selectRange (id : String) (first last : Int) : Option (List (ConnectedBit α)) :=
  match declared id with
  | some (.bus net msb lsb) =>
      if Inside msb lsb first ∧ Inside msb lsb last ∧ SameDirection msb lsb first last then
        some ((busBits first last).map (ConnectedBit.select net))
      else none
  | _ => none

def nameBits (id : String) : Option (List (ConnectedBit α)) :=
  match declared id with
  | some (.wire net) => some [.wire net]
  | some (.bus net msb lsb) => some ((busBits msb lsb).map (ConnectedBit.select net))
  | none => none

/-- Lists side by side, when all parts have one. -/
def joined {β : Type} : List (Option (List β)) → Option (List β)
  | [] => some []
  | part :: parts => part.bind (fun bits => (joined parts).map (fun rest => bits ++ rest))

def Expression.bits : Expression → Option (List (ConnectedBit α))
  | .literal number => some ((vector number).reverse.map ConnectedBit.constant)
  | .name id => nameBits declared id
  | .select id bit => selectBit declared id bit
  | .range id first last => selectRange declared id first last
  | .concat parts => joined (parts.map (fun part => part.bits))

/-- The bits of expressions side by side. -/
def bitsOf (parts : List Expression) : Option (List (ConnectedBit α)) := joined (parts.map (Expression.bits declared))

theorem bits_concat (parts : List Expression) : (Expression.concat parts).bits declared = bitsOf declared parts := by
  rw [Expression.bits]
  rfl

theorem bitsOf_nil : bitsOf declared [] = some [] := rfl

theorem bitsOf_single (e : Expression) : bitsOf declared [e] = e.bits declared := by
  change (e.bits declared).bind (fun bits => some (bits ++ [])) = _
  cases e.bits declared with
  | none => rfl
  | some bits => exact congrArg some (List.append_nil bits)

theorem bitsOf_append (parts more : List Expression) (bits rest : List (ConnectedBit α))
    (first : bitsOf declared parts = some bits) (second : bitsOf declared more = some rest) :
    bitsOf declared (parts ++ more) = some (bits ++ rest) := by
  induction parts generalizing bits with
  | nil =>
      cases first
      exact second
  | cons e parts ih =>
      change (e.bits declared).bind (fun bits => (bitsOf declared parts).map (fun rest => bits ++ rest)) = _ at first
      change (e.bits declared).bind (fun bits => (bitsOf declared (parts ++ more)).map (fun rest => bits ++ rest)) = _
      obtain ⟨head, found, tailed⟩ := Option.bind_eq_some_iff.mp first
      obtain ⟨tail, found', same⟩ := Option.map_eq_some_iff.mp tailed
      rw [found, Option.bind_some, ih tail found', Option.map_some, ← same, List.append_assoc]

end

/-! ### Runs of bits in the direction of a bus -/

/-- Bits that follow each other by a step. -/
def run (first step : Int) (n : Nat) : List Int := (List.range n).map (fun i : Nat => first + step * i)

theorem busBits_eq_run (msb lsb : Int) :
    busBits msb lsb = run msb (if msb > lsb then -1 else 1) ((msb - lsb).natAbs + 1) := by
  unfold busBits run
  refine List.map_congr_left (fun i _ => ?_)
  split <;> omega

theorem run_succ (first step : Int) (n : Nat) : run first step (n + 1) = first :: run (first + step) step n := by
  unfold run
  rw [List.range_succ_eq_map, List.map_cons, List.map_map]
  refine congrArg₂ List.cons (by simp) (List.map_congr_left (fun i _ => ?_))
  change first + step * ((i + 1 : Nat) : Int) = first + step + step * i
  rw [Int.natCast_succ, Int.mul_add, Int.mul_one]
  omega

/-- A run in the direction of its bus is a part-select between its ends. -/
theorem run_eq_busBits (msb lsb first : Int) (n : Nat) :
    let last := first + (if msb > lsb then -1 else 1) * n
    busBits first last = run first (if msb > lsb then -1 else 1) (n + 1) ∧ SameDirection msb lsb first last := by
  simp only
  rw [busBits_eq_run]
  unfold SameDirection
  cases n with
  | zero =>
      split
      · exact ⟨by simp [run], by omega⟩
      · exact ⟨by simp [run], by omega⟩
  | succ n =>
      split
      · next down =>
          rw [if_pos (by omega), show (first - (first + -1 * ((n + 1 : Nat) : Int))).natAbs = n + 1 by omega]
          exact ⟨rfl, by omega⟩
      · next up =>
          rw [if_neg (by omega), show (first - (first + 1 * ((n + 1 : Nat) : Int))).natAbs = n + 1 by omega]
          exact ⟨rfl, by omega⟩

end Naja.Verilog
