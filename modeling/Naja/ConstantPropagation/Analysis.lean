import Naja.ConstantPropagation.Netlist
import Naja.Worklist.Rounds

/-! The analysis: from the initial constants, round after round, the readers of
the isos found in the round before. -/

namespace Naja.ConstantPropagation

/-- The output isos of the leaves of a model. -/
def outputIsosOf (n : Netlist) (model : Option Nat) : List Nat :=
  (n.leaves.filter (fun l => decide (some l.model = model))).flatMap (fun l => l.outputs.map LeafTerm.iso)

/-- `collectConstants`. A model is logic 0 before it is logic 1. -/
def collectConstants (n : Netlist) : Constants :=
  { zero := (outputIsosOf n n.logic0 ++ n.constant0Isos).foldl (fun isos iso => insertIso iso isos) [],
    one := ((if n.logic1 = n.logic0 then [] else outputIsosOf n n.logic1) ++ n.constant1Isos).foldl
      (fun isos iso => insertIso iso isos) [] }

structure State where
  constants : Constants
  partialConstantInstances : List Nat
  constantsNew : Isos
deriving DecidableEq, Repr

def addConstant (k : Constants) (iso : Nat) (value : Bool) : Constants :=
  if value then { k with one := insertIso iso k.one } else { k with zero := insertIso iso k.zero }

def isKnown (k : Constants) (iso : Nat) : Bool := decide (iso ∈ k.zero) || decide (iso ∈ k.one)

/-- All terminals but the outputs are constant. -/
def isConst (k : Constants) (l : Leaf) : Bool := l.readIsos.all (isKnown k)

/-- Only leaves with one output, or with an output Q, are looked at. -/
def isEligible (l : Leaf) : Bool := l.outputs.length == 1 || l.q.isSome

def newConst (truthTableEngine : Bool) (n : Netlist) (k : Constants) (l : Leaf) :
    Except String (Option Bool) :=
  let type := designObjectID2Type n l.modelID
  if truthTableEngine && l.q.isNone then computeOutputValue k l
  else if isConst k l then computeOutputValueForConstantInstance k type l
  else .ok (computeOutputValueForPartiallyConstantInstance k type l)

/-- The iso a constant is written to: the first output, and the output Q, where there is one,
only for a partly constant leaf. -/
def outputIso (k : Constants) (l : Leaf) : Nat :=
  let first := ((l.outputs.head?).map LeafTerm.iso).getD DNLID_MAX
  if isConst k l then first else (l.q.map LeafTerm.iso).getD first

/-- The constant a leaf drives, and where, if the engine finds one. -/
def outcome (truthTableEngine : Bool) (n : Netlist) (k : Constants) (l : Leaf) :
    Except String (Option (Nat × Bool)) :=
  if isEligible l then
    (newConst truthTableEngine n k l).map (Option.map (fun value => (outputIso k l, value)))
  else .ok none

/-- The partly constant leaves are kept for the reduction pass. -/
def markPartial (k : Constants) (l : Leaf) (index : Nat) (found : Bool) (instances : List Nat) : List Nat :=
  if isEligible l then
    if isConst k l || found then instances.filter (· ≠ index) else insertIso index instances
  else instances

/-- One reader of a constant iso. -/
def processReader (truthTableEngine : Bool) (n : Netlist) (s : State) (reader : Option Nat) :
    Except String State :=
  match reader.bind (fun index => (n.leaves[index]?).map (fun l => (index, l))) with
  | none => .ok s
  | some (index, l) => do
      let found ← outcome truthTableEngine n s.constants l
      match found with
      | none =>
          return ⟨s.constants, markPartial s.constants l index false s.partialConstantInstances,
            s.constantsNew⟩
      | some (iso, value) =>
          return ⟨addConstant s.constants iso value,
            markPartial s.constants l index true s.partialConstantInstances, insertIso iso s.constantsNew⟩

/-- One pass of the outer loop over the isos of the round before. -/
def round (truthTableEngine : Bool) (n : Netlist) (s : State) (worklist : Isos) : Except String (State × Isos) := do
  let s' ← worklist.foldlM (fun s iso => (n.getReaders iso).foldlM (processReader truthTableEngine n) s)
    { s with constantsNew := [] }
  return (s', s'.constantsNew)

def initialState (n : Netlist) : State := ⟨collectConstants n, [], []⟩

def initialWorklist (n : Netlist) : Isos :=
  ((collectConstants n).zero ++ (collectConstants n).one).foldl (fun isos iso => insertIso iso isos) []

/-- The analysis, for at most `fuel` rounds; `none` when they do not empty the worklist. -/
def performConstantPropagationAnalysis (truthTableEngine : Bool) (n : Netlist) (fuel : Nat) :
    Except String (Option State) :=
  Worklist.run (round truthTableEngine n) fuel (initialState n) (initialWorklist n)

theorem outcome_eq_some (truthTableEngine : Bool) (n : Netlist) (k : Constants) (l : Leaf) (iso : Nat)
    (value : Bool) : outcome truthTableEngine n k l = .ok (some (iso, value)) ↔
      isEligible l = true ∧ newConst truthTableEngine n k l = .ok (some value) ∧ outputIso k l = iso := by
  unfold outcome
  by_cases eligible : isEligible l = true
  · rw [if_pos eligible]
    cases newConst truthTableEngine n k l with
    | error message => exact iff_of_false nofun (fun both => nomatch both.2.1)
    | ok found =>
        cases found with
        | none => exact iff_of_false nofun (fun both => nomatch both.2.1)
        | some v =>
            simp only [Except.map, Option.map_some, Except.ok.injEq, Option.some.injEq, Prod.mk.injEq,
              eligible, true_and]
            exact and_comm
  · rw [if_neg eligible]
    exact iff_of_false nofun (fun both => eligible both.1)

end Naja.ConstantPropagation
