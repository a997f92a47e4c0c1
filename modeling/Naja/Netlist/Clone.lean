import Naja.Netlist.Removal

/-! Cloning a design. The new objects are made one by one, and every net of the clone
looks its components up in the new design: terms and instances by ID, terminals by the
flat ID of their bit. -/

namespace Naja.Netlist
open Naja.Registry

namespace World
variable (w : World)

/-- The address of the copy of an object. -/
def copyAddress (object : Address) : Address := w.next + object

/-- A cloned bus has all its bits. -/
def cloneTerm (e : Entry TermData) : Entry TermData :=
  { e with object := w.copyAddress e.object, data := { e.data with removed := [] } }

def cloneNet (e : Entry NetData) : Entry NetData :=
  { e with object := w.copyAddress e.object, data := { e.data with removed := [] } }

/-- The terminals of the new instance are made from the bits of its model. -/
def cloneInstance (e : Entry InstData) : Entry InstData :=
  let bits := ((w.designs[e.data.model]?).map Design.getBitTerms).getD []
  { e with object := w.copyAddress e.object, data := ⟨e.data.model, bits.map some, e.data.parameters⟩ }

def getSNLDesign (library : Nat) (name : String) : Option Design :=
  w.designs.find? (fun d => d.library == library && d.name == name)

def cloneInterfaceToLibrary (d : Design) (library : Nat) (name : String) : Except Refusal Design :=
  if d.isPrimitive then .error .primitiveClone
  else if (w.libraries[library]?).any Library.isPrimitives then .error .primitivesLibrary
  else if ¬ name.isEmpty ∧ (w.getSNLDesign library name).isSome then .error .designNameTaken
  else .ok ⟨library, name, .Standard, d.terms.copy w.cloneTerm, .empty, .empty, d.parameters, .none⟩

/-- The component of the new design that stands for one of the cloned design. Without a result it is
not found, or a null pointer is followed. -/
def cloneComponent (d new : Design) : Component → Option Component
  | .bitTerm b => do
      let e ← d.terms.entry b.term
      let t ← new.terms.getByID e.id
      let b' ← getTermBit t b.bit
      return .bitTerm b'
  | .instTerm inst slot => do
      let i ← d.instances.entry inst
      let b ← (i.data.table[slot]?).join
      let i' ← new.instances.getByID i.id
      let model ← w.designs[i'.data.model]?
      let flatID ← model.getFlatID b
      let _ ← (i'.data.table[flatID]?).join
      return .instTerm i'.object flatID

/-- One bit of a net: its components are those of the old bit, which must be there. -/
def cloneBit (d new : Design) (links : Links Component BitNet) (bit : Entry NetData × Int) :
    Option (Links Component BitNet) :=
  if bit.2 ∉ bit.1.data.getBits then none
  else do
    let components ← (d.links.components ⟨bit.1.object, bit.2⟩).mapM (w.cloneComponent d new)
    let newBit : BitNet := ⟨w.copyAddress bit.1.object, bit.2⟩
    return {
      netOf := fun c => if c ∈ components then some newBit else links.netOf c
      components := fun n => if n = newBit then components else links.components n }

/-- The bits of all nets, in the order in which they are cloned. -/
def netBits (d : Design) : List (Entry NetData × Int) :=
  d.nets.set.flatMap (fun e => (rangeBits e.data.range).map (fun bit => (e, bit)))

def cloneToLibrary (k library : Nat) (name : String) : Outcome :=
  match w.designs[k]? with
  | none => .undefined
  | some d =>
      if ¬ name.isEmpty ∧ (w.getSNLDesign library name).isSome then .thrown .designNameTaken w
      else match w.cloneInterfaceToLibrary d library name with
        | .error reason => .thrown reason w
        | .ok interface =>
            let instances := d.instances.copy w.cloneInstance
            let nets := d.nets.copy w.cloneNet
            let new : Design := { interface with instances := instances, nets := nets }
            match (netBits d).foldlM (w.cloneBit d new) .none with
            | none => .undefined
            | some links =>
                .done { w with designs := w.designs ++ [{ new with links := links }], next := w.next + w.next }

end World

/-- The bits of a design are numbered without a gap. -/
def FlatIDsDense (m : Design) : Prop :=
  ∀ b ∈ m.getBitTerms, ∃ flatID, m.getFlatID b = some flatID ∧ m.getBitTerms[flatID]? = some b

theorem flatIDsDense_iff (m : Design) : FlatIDsDense m ↔
    ∀ b ∈ m.getBitTerms, (m.getFlatID b).any (fun flatID => m.getBitTerms[flatID]? == some b) := by
  refine forall₂_congr ?_
  intro b _
  rw [Option.any_eq_true]
  simp only [beq_iff_eq]

instance (m : Design) : Decidable (FlatIDsDense m) := decidable_of_iff' _ (flatIDsDense_iff m)

/-- So are those of the models in a design. -/
def ModelsDense (w : World) (d : Design) : Prop :=
  ∀ i ∈ d.instances.set, ∀ m, w.designs[i.data.model]? = some m → FlatIDsDense m

theorem modelsDense_iff (w : World) (d : Design) : ModelsDense w d ↔
    ∀ i ∈ d.instances.set, (w.designs[i.data.model]?).all (fun m => FlatIDsDense m) := by
  refine forall₂_congr ?_
  intro i _
  cases w.designs[i.data.model]? <;> simp

instance (w : World) (d : Design) : Decidable (ModelsDense w d) := decidable_of_iff' _ (modelsDense_iff w d)

end Naja.Netlist
