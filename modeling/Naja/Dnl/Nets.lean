import Naja.Dnl.Encoding
import Naja.Netlist.Objects
import Naja.Worklist.NetWalk

/-! The nets of a hierarchy of designs, and what they connect once the hierarchy is
flattened: a terminal of an instance stands on a net outside and on one inside. -/

namespace Naja.Dnl
open Naja.Primitives (Direction)
open Naja.Netlist (NetType)

/-- A bit net: the instance terminals on it, each by the position of its instance and the bit
terminal of the model, and the bit terminals of the design. -/
structure Net where
  type : NetType
  instTerms : List (Nat × Nat)
  bitTerms : List Nat
deriving DecidableEq, Repr

/-- The nets of a design; `directions` are those of its bit terminals. -/
structure Wiring where
  isAssign : Bool
  directions : List Direction
  nets : List Net
deriving DecidableEq, Repr

def wiringOf (wirings : List Wiring) (number : Nat) : Wiring := wirings.getD number ⟨false, [], []⟩

/-- A hierarchy with its nets. A terminal stands on one net at most, and the assign of the
primitives has no instances. -/
structure Circuit extends Hierarchy where
  wirings : List Wiring
  bitTermsInside : ∀ number < wirings.length, ∀ net ∈ (wiringOf wirings number).nets, ∀ bitTerm ∈ net.bitTerms,
    bitTerm < (toHierarchy.design number).bitTerms
  instTermsInside : ∀ number < wirings.length, ∀ net ∈ (wiringOf wirings number).nets, ∀ entry ∈ net.instTerms,
    ∃ inst ∈ (toHierarchy.design number).instances[entry.1]?, entry.2 < (toHierarchy.design inst.model).bitTerms
  bitTermsOnce : ∀ number < wirings.length, ((wiringOf wirings number).nets.flatMap Net.bitTerms).Nodup
  instTermsOnce : ∀ number < wirings.length, ((wiringOf wirings number).nets.flatMap Net.instTerms).Nodup
  assignLeaf : ∀ number < wirings.length, (wiringOf wirings number).isAssign = true →
    (toHierarchy.design number).instances = []

namespace Wiring
variable (wiring : Wiring)

/-- `getNet` of a bit terminal, by the place of the net. -/
def netOfBitTerm (bitTerm : Nat) : Option Nat := wiring.nets.findIdx? (fun net => decide (bitTerm ∈ net.bitTerms))

/-- `getNet` of an instance terminal. -/
def netOfInstTerm (entry : Nat × Nat) : Option Nat := wiring.nets.findIdx? (fun net => decide (entry ∈ net.instTerms))

def direction (bitTerm : Nat) : Direction := wiring.directions.getD bitTerm .Undefined

end Wiring

/-- In lists that share nothing an element is found where it is. -/
theorem findIdx?_mem_iff {α β : Type} (f : α → List β) (xs : List α) (nodup : (xs.flatMap f).Nodup) (b : β)
    [∀ x, Decidable (b ∈ f x)] (n : Nat) : xs.findIdx? (fun x => decide (b ∈ f x)) = some n ↔ ∃ x, xs[n]? = some x ∧ b ∈ f x := by
  constructor
  · intro found
    obtain ⟨bound, holds, -⟩ := List.findIdx?_eq_some_iff_getElem.mp found
    exact ⟨xs[n], List.getElem?_eq_getElem bound, of_decide_eq_true holds⟩
  · intro given
    obtain ⟨x, there, member⟩ := given
    obtain ⟨bound, rfl⟩ := List.getElem?_eq_some_iff.mp there
    refine List.findIdx?_eq_some_iff_getElem.mpr ⟨bound, decide_eq_true member, ?_⟩
    intro j before
    rw [Bool.not_eq_true, decide_eq_false_iff_not]
    intro also
    have apart := List.pairwise_iff_getElem.mp (List.nodup_flatMap.mp nodup).2 j n (by omega) bound before
    exact List.disjoint_left.mp apart also member

namespace Circuit
variable (circuit : Circuit)

def wiring (number : Nat) : Wiring := wiringOf circuit.wirings number

theorem wiring_of_length_le (number : Nat) (above : circuit.wirings.length ≤ number) :
    circuit.wiring number = ⟨false, [], []⟩ := by
  unfold wiring wiringOf
  rw [List.getD_eq_getElem?_getD, List.getElem?_eq_none above]
  rfl

theorem netOfBitTerm_iff (number bitTerm n : Nat) : (circuit.wiring number).netOfBitTerm bitTerm = some n ↔
    ∃ net, (circuit.wiring number).nets[n]? = some net ∧ bitTerm ∈ net.bitTerms := by
  apply findIdx?_mem_iff
  by_cases inside : number < circuit.wirings.length
  · exact circuit.bitTermsOnce number inside
  · rw [circuit.wiring_of_length_le number (by omega)]
    exact List.nodup_nil

theorem netOfInstTerm_iff (number n : Nat) (entry : Nat × Nat) :
    (circuit.wiring number).netOfInstTerm entry = some n ↔
      ∃ net, (circuit.wiring number).nets[n]? = some net ∧ entry ∈ net.instTerms := by
  apply findIdx?_mem_iff
  by_cases inside : number < circuit.wirings.length
  · exact circuit.instTermsOnce number inside
  · rw [circuit.wiring_of_length_le number (by omega)]
    exact List.nodup_nil

theorem bitTerm_lt (number n bitTerm : Nat) (net : Net) (there : (circuit.wiring number).nets[n]? = some net)
    (member : bitTerm ∈ net.bitTerms) : bitTerm < (circuit.design number).bitTerms := by
  by_cases inside : number < circuit.wirings.length
  · exact circuit.bitTermsInside number inside net (List.mem_of_getElem? there) bitTerm member
  · rw [circuit.wiring_of_length_le number (by omega)] at there
    cases there

theorem instTerm_inside (number n : Nat) (net : Net) (entry : Nat × Nat)
    (there : (circuit.wiring number).nets[n]? = some net) (member : entry ∈ net.instTerms) :
    ∃ inst, (circuit.design number).instances[entry.1]? = some inst ∧
      entry.2 < (circuit.design inst.model).bitTerms := by
  by_cases inside : number < circuit.wirings.length
  · exact circuit.instTermsInside number inside net (List.mem_of_getElem? there) entry member
  · rw [circuit.wiring_of_length_le number (by omega)] at there
    cases there

theorem not_assign (number position : Nat) (inst : Instance)
    (listed : (circuit.design number).instances[position]? = some inst) : (circuit.wiring number).isAssign = false := by
  by_cases inside : number < circuit.wirings.length
  · apply Bool.eq_false_iff.mpr
    intro isAssign
    rw [circuit.assignLeaf number inside isAssign] at listed
    cases listed
  · rw [circuit.wiring_of_length_le number (by omega)]

end Circuit

/-! ### The flattened netlist -/

/-- A bit terminal of the design an instance path leads to. -/
structure Pin where
  path : List Nat
  bitTerm : Nat

structure FlatNet where
  path : List Nat
  net : Nat

section Flat
variable (circuit : Circuit)

/-- The design a path leads to. -/
def Circuit.at (path : List Nat) : Option Nat := Unfolding.walk circuit.child circuit.top path

/-- A pin is on a net inside its instance, or on one of the design its instance stands in. An
assign is a cell: the net inside joins nothing. -/
inductive Stands (pin : Pin) (flat : FlatNet) : Prop
  | inside (design : Nat) (net : Net) (leads : circuit.at flat.path = some design)
      (there : (circuit.wiring design).nets[flat.net]? = some net) (same : pin.path = flat.path)
      (member : pin.bitTerm ∈ net.bitTerms) (cell : (circuit.wiring design).isAssign = false)
  | outside (design position : Nat) (net : Net) (leads : circuit.at flat.path = some design)
      (there : (circuit.wiring design).nets[flat.net]? = some net) (same : pin.path = flat.path ++ [position])
      (member : (position, pin.bitTerm) ∈ net.instTerms)

/-- Two pins the flattened nets connect. -/
def Joined : Pin → Pin → Prop := Worklist.Connected (Stands circuit)

end Flat

/-- A circuit with its flat view: the numbering is complete, and no leaf is listed twice. -/
structure DNL extends Circuit, View where
  ready : Ready toHierarchy orders
  built : Built toHierarchy orders toNetwork []
  leavesOnce : leaves.Nodup

end Naja.Dnl
