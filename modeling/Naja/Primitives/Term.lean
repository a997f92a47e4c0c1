import Mathlib.Data.List.Nodup
import Mathlib.Data.List.Flatten

/-! Bit terms of a primitive interface and their order IDs. A design lists the
bits of its terms by increasing term ID, each bus from its most to its least
significant bit, and the order ID of a bit is its place in that list. -/

namespace Naja.Primitives

inductive Direction where
  | Input | Output | InOut | Undefined
deriving DecidableEq, Repr

structure BitTerm where
  id : Nat
  bit : Nat
  direction : Direction
deriving DecidableEq, Repr

/-- A term of width `width`, the bus `[width-1:0]`; a scalar term is the bit 0 of width 1. -/
structure Term where
  id : Nat
  direction : Direction
  width : Nat
deriving DecidableEq, Repr

namespace Term

def getBit (term : Term) (bit : Nat) : BitTerm := ⟨term.id, bit, term.direction⟩

def getBits (term : Term) : List BitTerm :=
  (List.range term.width).map (fun i => term.getBit (term.width - 1 - i))

theorem mem_getBits (term : Term) (t : BitTerm) :
    t ∈ term.getBits ↔ t.bit < term.width ∧ t = term.getBit t.bit := by
  simp only [getBits, List.mem_map, List.mem_range]
  constructor
  · rintro ⟨i, bound, rfl⟩
    exact ⟨by simp only [getBit]; omega, rfl⟩
  · rintro ⟨bound, same⟩
    refine ⟨term.width - 1 - t.bit, by omega, ?_⟩
    rw [show term.width - 1 - (term.width - 1 - t.bit) = t.bit by omega]
    exact same.symm

theorem getBit_mem (term : Term) (bit : Nat) (bound : bit < term.width) :
    term.getBit bit ∈ term.getBits :=
  (mem_getBits term _).mpr ⟨bound, rfl⟩

theorem getBits_nodup (term : Term) : term.getBits.Nodup := by
  refine List.Nodup.map_on ?_ List.nodup_range
  intro i inI j inJ same
  have bits := congrArg BitTerm.bit same
  simp only [getBit, List.mem_range] at bits inI inJ
  omega

theorem id_of_mem_getBits (term : Term) (t : BitTerm) (member : t ∈ term.getBits) :
    t.id = term.id := by
  rw [((mem_getBits term t).mp member).2]
  rfl

@[simp] theorem length_getBits (term : Term) : term.getBits.length = term.width := by
  simp [getBits]

end Term

def bitTermsOf (terms : List Term) : List BitTerm := terms.flatMap Term.getBits

theorem bitTermsOf_nodup (terms : List Term) (ids : (terms.map Term.id).Nodup) :
    (bitTermsOf terms).Nodup := by
  refine List.nodup_flatMap.mpr ⟨fun term _ => term.getBits_nodup, ?_⟩
  refine (List.pairwise_map.mp ids).imp ?_
  intro left right distinct t inLeft inRight
  exact distinct ((left.id_of_mem_getBits t inLeft).symm.trans (right.id_of_mem_getBits t inRight))

def orderID (terms : List BitTerm) (t : BitTerm) : Nat := terms.idxOf t

theorem getElem?_orderID (terms : List BitTerm) (t : BitTerm) (member : t ∈ terms) :
    terms[orderID terms t]? = some t := by
  rw [orderID, List.getElem?_eq_getElem (List.idxOf_lt_length_of_mem member), List.getElem_idxOf]

theorem orderID_injective (terms : List BitTerm) (left right : BitTerm)
    (inLeft : left ∈ terms) (inRight : right ∈ terms)
    (same : orderID terms left = orderID terms right) : left = right := by
  have both := getElem?_orderID terms left inLeft
  rw [same, getElem?_orderID terms right inRight] at both
  exact (Option.some.inj both).symm

/-- Order IDs increase along every part of the interface that keeps its order. -/
theorem orderID_sorted (terms pins : List BitTerm) (nodup : terms.Nodup)
    (part : pins.Sublist terms) : (pins.map (orderID terms)).Pairwise (· < ·) := by
  have whole : terms.Pairwise (fun left right => orderID terms left < orderID terms right) := by
    rw [List.pairwise_iff_getElem]
    intro i j inI inJ below
    simpa only [orderID, nodup.idxOf_getElem] using below
  exact List.pairwise_map.mpr (whole.sublist part)

/-- What `resolveOutputIndex` finds out about the bit at place `orderID`: whether it is an
output, its rank among the outputs, and how many outputs there are. -/
def isOutputTerm (terms : List BitTerm) (orderID : Nat) : Bool :=
  (terms[orderID]?).any (fun t => t.direction != .Input)

def outputCount (terms : List BitTerm) : Nat :=
  terms.countP (fun t => t.direction != .Input)

def outputID (terms : List BitTerm) (orderID : Nat) : Nat :=
  if isOutputTerm terms orderID then outputCount (terms.take orderID) else 0

/-- Flat positions of the bits whose direction is not `Output`. -/
def getInputFlatPositions (terms : List BitTerm) : List Nat :=
  (List.range terms.length).filter
    (fun flatPos => (terms[flatPos]?).any (fun t => t.direction != .Output))

theorem mem_getInputFlatPositions (terms : List BitTerm) (position : Nat) :
    position ∈ getInputFlatPositions terms ↔
      ∃ t, terms[position]? = some t ∧ t.direction ≠ .Output := by
  simp only [getInputFlatPositions, List.mem_filter, List.mem_range, Option.any_eq_true, bne_iff_ne]
  constructor
  · rintro ⟨-, found⟩
    exact found
  · rintro ⟨t, found, direction⟩
    exact ⟨(List.getElem?_eq_some_iff.mp found).1, t, found, direction⟩

end Naja.Primitives
