import Naja.Primitives.PinRoles

/-! The part of a design that the merging of multiplexers reads and changes: its nets, the nets of its
terms, and its instances with the nets of their terminals. What a design computes are the values of
its nets that agree with every instance. -/

namespace Naja.MuxMerging
open Primitives NLDB0

abbrev Net := Nat

/-- The model of an instance, a primitive of DB0 or another design with its terms. -/
inductive Model where
  | primitive (signature : Signature)
  | other (design : Nat) (terms : List Term)
deriving DecidableEq

namespace Model

def getBitTerms : Model → List BitTerm
  | primitive signature => NLDB0.getBitTerms signature
  | other _ terms => bitTermsOf terms

/-- `isMux2`, with the width of the multiplexer. -/
def mux2Width : Model → Option Nat
  | primitive (.mux2 width) => some width
  | _ => none

end Model

structure Instance where
  id : Nat
  model : Model
  net : BitTerm → Option Net

def Instance.setNet (t : BitTerm) (net : Net) (i : Instance) : Instance :=
  { i with net := fun t' => if t' = t then some net else i.net t' }

@[simp] theorem Instance.setNet_id (t : BitTerm) (net : Net) (i : Instance) : (i.setNet t net).id = i.id := rfl

@[simp] theorem Instance.setNet_model (t : BitTerm) (net : Net) (i : Instance) :
    (i.setNet t net).model = i.model := rfl

/-- The instances are in the order of their IDs, as `getInstances` lists them. -/
structure Design where
  nets : List Net
  bitTerms : List (BitTerm × Option Net)
  instances : List Instance

namespace Design

def getInstance (design : Design) (id : Nat) : Option Instance :=
  design.instances.find? fun i => i.id = id

/-- The new net has an ID above all others. -/
def createNet (design : Design) : Design × Net :=
  let net := design.nets.foldr max 0 + 1
  ({ design with nets := design.nets ++ [net] }, net)

def createInstance (design : Design) (model : Model) : Design × Nat :=
  let id := (design.instances.map Instance.id).foldr max 0 + 1
  ({ design with instances := design.instances ++ [⟨id, model, fun _ => none⟩] }, id)

def modifyInstance (design : Design) (id : Nat) (f : Instance → Instance) : Design :=
  { design with instances := design.instances.map fun i => if i.id = id then f i else i }

def setNet (design : Design) (id : Nat) (t : BitTerm) (net : Net) : Design :=
  design.modifyInstance id (Instance.setNet t net)

def destroyInstance (design : Design) (id : Nat) : Design :=
  { design with instances := design.instances.filter fun i => i.id ≠ id }

/-- `not net->getBitTerms().empty()`. -/
def hasBitTerms (design : Design) (net : Net) : Bool :=
  design.bitTerms.any fun entry => entry.2 = some net

/-- What the database keeps for a design: the IDs of its instances are distinct, only the terminals an
instance has are connected, and they are to nets of the design, as its terms are. -/
structure Sound (design : Design) : Prop where
  distinct : (design.instances.map Instance.id).Nodup
  pins : ∀ i ∈ design.instances, ∀ t net, i.net t = some net → t ∈ i.model.getBitTerms ∧ net ∈ design.nets
  terms : ∀ entry ∈ design.bitTerms, ∀ net, entry.2 = some net → net ∈ design.nets

end Design

/-- Values for the nets, and for the terminals of instances that have none. -/
structure Valuation where
  net : Net → Bool
  floating : Nat → BitTerm → Bool

def Valuation.pin (v : Valuation) (i : Instance) (t : BitTerm) : Bool :=
  match i.net t with
  | some net => v.net net
  | none => v.floating i.id t

/-- The pin values an instance allows: multiplexers and gates compute their outputs, of all other
instances nothing is assumed but that they restrict them in some way. -/
def Behaves (others : Nat → Model → (BitTerm → Bool) → Prop) (id : Nat) (model : Model) (value : BitTerm → Bool) : Prop :=
  match model with
  | .primitive (.mux2 width) =>
      ∀ o ∈ (output 3 width).getBits, PinRoles.primitiveValue (.mux2 width) o value = some (value o)
  | .primitive (.nInputGate type nbInputs) =>
      ∀ o ∈ (output 0 1).getBits, PinRoles.primitiveValue (.nInputGate type nbInputs) o value = some (value o)
  | model => others id model value

/-- The values agree with every instance. A constant net is one of those that no instance drives: they
may have any value. -/
def Consistent (others : Nat → Model → (BitTerm → Bool) → Prop) (design : Design) (v : Valuation) : Prop :=
  ∀ i ∈ design.instances, Behaves others i.id i.model (v.pin i)

section Lookup

variable {design : Design} (sound : design.Sound)

theorem Design.getInstance_some {design : Design} {id : Nat} {i : Instance} (found : design.getInstance id = some i) :
    i ∈ design.instances ∧ i.id = id := by
  have same := List.find?_some (p := fun i : Instance => decide (i.id = id)) found
  exact ⟨List.mem_of_find?_eq_some found, of_decide_eq_true same⟩

include sound

theorem Design.Sound.eq_of_id (i j : Instance) (inI : i ∈ design.instances) (inJ : j ∈ design.instances)
    (same : i.id = j.id) : i = j :=
  List.inj_on_of_nodup_map sound.distinct inI inJ same

end Lookup

theorem lt_newID (ids : List Nat) (id : Nat) (member : id ∈ ids) : id < ids.foldr max 0 + 1 := by
  induction ids with
  | nil => exact absurd member List.not_mem_nil
  | cons head rest ih =>
      rw [List.foldr_cons]
      rcases List.mem_cons.mp member with rfl | inRest
      · exact Nat.lt_succ_of_le (le_max_left _ _)
      · exact lt_of_lt_of_le (ih inRest) (Nat.succ_le_succ (le_max_right _ _))

theorem newID_fresh (ids : List Nat) : ids.foldr max 0 + 1 ∉ ids :=
  fun member => lt_irrefl _ (lt_newID ids _ member)

end Naja.MuxMerging
