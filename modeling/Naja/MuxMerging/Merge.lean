import Naja.MuxMerging.Design
import Naja.Worklist.While

/-! `SNLUtils::mergeRepeatedMuxSelections`. Instances stand for their pointers; what the pass notes in
the RTL infos of the objects it keeps is left out. -/

namespace Naja.MuxMerging
open Primitives NLDB0 Worklist

def getMux2InputA (width : Nat) : Term := input 0 width
def getMux2InputB (width : Nat) : Term := input 1 width
def getMux2Select : BitTerm := (input 2 1).getBit 0
def getMux2Output (width : Nat) : Term := output 3 width

def getGateSingleTerm : BitTerm := (output 0 1).getBit 0
def getGateNTerms : Term := input 1 2

/-- The map from a net to the multiplexer that drives it, null when more than one output does. -/
abbrev Producers := List (Net × Option Nat)

def emplaceProducer (producers : Producers) (net : Net) (mux : Nat) : Producers :=
  match producers.lookup net with
  | none => producers ++ [(net, some mux)]
  | some _ => producers.map fun entry => if entry.1 = net then (net, none) else entry

def addProducer (producers : Producers) (mux : Instance) : Producers :=
  match mux.model.mux2Width with
  | none => producers
  | some width =>
      ((getMux2Output width).getBits.filterMap mux.net).foldl (fun producers net => emplaceProducer producers net mux.id)
        producers

structure State where
  design : Design
  removed : List Nat

section Branch

variable (design : Design) (outer inner : Instance) (width : Nat) (trueBranch : Bool)

def dataPort (width : Nat) (trueBranch : Bool) : Term := if trueBranch then getMux2InputB width else getMux2InputA width

def commonPort (width : Nat) (trueBranch : Bool) : Term := if trueBranch then getMux2InputA width else getMux2InputB width

/-- A terminal on the net that is neither of the two. -/
def hasOtherConnection (net : Net) (innerOutput outerInput : BitTerm) : Bool :=
  design.instances.any fun i => i.model.getBitTerms.any fun t =>
    i.net t = some net ∧ ¬(i.id = inner.id ∧ t = innerOutput) ∧ ¬(i.id = outer.id ∧ t = outerInput)

/-- One round of the loop that collects the data inputs of the inner multiplexer, if it is compatible. -/
def compatibleInput (outputs : List Net) (bit : Nat) : Option Net :=
  let outerInput := (dataPort width trueBranch).getBit bit
  let innerOutput := (getMux2Output width).getBit bit
  let common := (commonPort width trueBranch).getBit bit
  match inner.net innerOutput, inner.net outerInput, outer.net common with
  | some net, some data, some commonNet =>
      if data ∈ outputs ∨ commonNet ∈ outputs ∨ outer.net outerInput ≠ some net ∨
          inner.net common ≠ some commonNet ∨ design.hasBitTerms net = true ∨
          hasOtherConnection design outer inner net innerOutput outerInput = true then none
      else some data
  | _, _, _ => none

/-- The net for the select of the outer multiplexer: the common one, or the output of a new gate. -/
def combineSelects (innerSelect select : Net) : Design × Net :=
  if select = innerSelect then (design, select)
  else
    let (design, combinedSelect) := design.createNet
    let (design, gate) := design.createInstance (.primitive (.nInputGate (if trueBranch then .And else .Or) 2))
    let design := design.setNet gate (getGateNTerms.getBit 0) innerSelect
    let design := design.setNet gate (getGateNTerms.getBit 1) select
    let design := design.setNet gate getGateSingleTerm combinedSelect
    (design, combinedSelect)

def rewire (inputs : List Net) (innerSelect select : Net) : Design :=
  let (design, combinedSelect) := combineSelects design trueBranch innerSelect select
  let design := ((List.range width).zip inputs).foldl
    (fun design entry => design.setNet outer.id ((dataPort width trueBranch).getBit entry.1) entry.2) design
  let design := design.setNet outer.id getMux2Select combinedSelect
  design.destroyInstance inner.id

end Branch

/-- One branch of the outer multiplexer with its select; `none` where the loop over the branches
continues. -/
def mergeBranch (producers : Producers) (s : State) (outer : Instance) (width : Nat) (select : Net)
    (trueBranch : Bool) : Option State :=
  (outer.net ((dataPort width trueBranch).getBit 0)).bind fun first =>
    (producers.lookup first).join.bind fun found =>
      if found = outer.id ∨ found ∈ s.removed then none
      else
        (s.design.getInstance found).bind fun inner =>
          if inner.model ≠ outer.model then none
          else
            (inner.net getMux2Select).bind fun innerSelect =>
              let outputs := (getMux2Output width).getBits.filterMap outer.net
              if innerSelect ∈ outputs ∨ select ∈ outputs then none
              else
                ((List.range width).mapM (compatibleInput s.design outer inner width trueBranch outputs)).bind
                  fun inputs =>
                    some ⟨rewire s.design outer inner width trueBranch inputs innerSelect select, s.removed ++ [inner.id]⟩

/-- One round of the loop on the select of a multiplexer; `none` when it ends. -/
def mergeOnce (producers : Producers) (outer : Nat) (s : State) : Option State :=
  (s.design.getInstance outer).bind fun outer =>
    outer.model.mux2Width.bind fun width =>
      (outer.net getMux2Select).bind fun select =>
        match mergeBranch producers s outer width select false with
        | some merged => some merged
        | none => mergeBranch producers s outer width select true

def visitMux (producers : Producers) (fuel : Nat) (s : State) (outer : Nat) : Option State :=
  if outer ∈ s.removed then some s else whileSome (mergeOnce producers outer) fuel s

def getMuxes (design : Design) : List Instance :=
  design.instances.filter fun i => i.model.mux2Width.isSome

/-- The design after the pass and the number of multiplexers it has removed. -/
def mergeRepeatedMuxSelections (design : Design) : Option (Design × Nat) :=
  let muxes := getMuxes design
  let producers := muxes.foldl addProducer []
  (muxes.foldlM (fun s outer => visitMux producers (muxes.length + 1) s outer.id) ⟨design, []⟩).map fun s =>
    (s.design, s.removed.length)

end Naja.MuxMerging
