import Naja.CapnP.Load

/-! What holds of every database in memory, and the parts of it that come back from a
snapshot. -/

namespace Naja.CapnP
open Naja.Netlist (Parameter InstParameter rangeBits)
open Naja.Registry

/-- Only unnamed objects share their name. -/
def NamesDistinct {α : Type} (name : α → String) (xs : List α) : Prop :=
  xs.Pairwise (fun x y => name x ≠ "" → name x ≠ name y)

/-- The component of a design that has this reference. -/
def Design.Has (models : DesignReference → Option Design) (d : Design) : Component → Prop
  | .bitTerm term bit => ∃ t, d.getTerm term = some t ∧ t.getBit bit = some bit
  | .instTerm inst term bit => ∃ i model t, d.getInstance inst = some i ∧ models i.model = some model ∧
      model.getTerm term = some t ∧ t.getBit bit = some bit

structure Design.WellFormed (models : DesignReference → Option Design) (d : Design) : Prop where
  parameters : OrderedBy Parameter.name d.parameters
  terms : OrderedBy Term.id d.terms
  termNames : NamesDistinct Term.name d.terms
  instances : OrderedBy Instance.id d.instances
  instanceNames : NamesDistinct Instance.name d.instances
  primitive : d.isPrimitive = true → d.instances = []
  instParameters : ∀ i ∈ d.instances, OrderedBy InstParameter.name i.parameters
  resolved : ∀ i ∈ d.instances, ∃ model, models i.model = some model ∧
    ∀ p ∈ i.parameters, ∃ q ∈ model.parameters, q.name = p.name
  nets : OrderedBy Net.id d.nets
  netNames : NamesDistinct Net.name d.nets
  netBits : ∀ n ∈ d.nets, n.bits.length = (rangeBits n.range).length
  scalars : ∀ n ∈ d.nets, n.range = none → ∀ b ∈ n.bits, b.isSome
  components : ∀ n ∈ d.nets, ∀ b, some b ∈ n.bits → OrderedBy Component.key b.components
  attached : d.attached.Nodup
  present : ∀ c ∈ d.attached, d.Has models c

/-- The designs of a library and the libraries right inside of it. -/
structure Library.WellFormed (models : DesignReference → Option Design) (l : Library) : Prop where
  designs : OrderedBy Design.id l.designs
  designNames : NamesDistinct Design.name l.designs
  types : ∀ d ∈ l.designs, d.type = .Primitive → l.type = .Primitives
  contents : ∀ d ∈ l.designs, d.WellFormed models
  libraries : OrderedBy Library.id l.libraries
  libraryNames : NamesDistinct Library.name l.libraries
  libraryTypes : ∀ inside ∈ l.libraries, inside.type = l.type

/-- The designs a database refers to: its own, and those of the others in memory. -/
def Database.models (u : Universe) (db : Database) (reference : DesignReference) : Option Design :=
  if reference.dbID = db.id then db.getSNLDesign reference.libraryID reference.designID
  else Universe.getSNLDesign u reference

structure Database.WellFormed (u : Universe) (db : Database) : Prop where
  libraries : ∀ l ∈ db.getGlobalLibraries, l.WellFormed (db.models u)
  ids : (db.getGlobalLibraries.map Library.id).Nodup
  roots : OrderedBy Library.id db.libraries
  top : ∀ top, db.top = some top → (db.getSNLDesign top.1 top.2).isSome

/-! ### What is read back -/

/-- A term is read back with all its bits. -/
def Term.whole (t : Term) : Term := { t with removed := [] }

def Design.whole (d : Design) : Design := { d with terms := d.terms.map Term.whole }

/-- A design of which only the interface is read. -/
def Design.bare (d : Design) : Design := { d.whole with instances := [], nets := [] }

mutual

def Library.bare : Library → Library
  | .mk id name type designs libraries => .mk id name type (designs.map Design.bare) (bareLibraries libraries)

def bareLibraries : List Library → List Library
  | [] => []
  | library :: rest => library.bare :: bareLibraries rest

end

/-- The designs of a root library are read, of those inside of it only the interfaces. -/
def Library.reloaded : Library → Library
  | .mk id name type designs libraries => .mk id name type (designs.map Design.whole) (bareLibraries libraries)

/-! ### The database under another ID -/

def DesignReference.rebase (old new : Nat) (reference : DesignReference) : DesignReference :=
  if reference.dbID = old then { reference with dbID := new } else reference

def Instance.rebase (old new : Nat) (i : Instance) : Instance := { i with model := i.model.rebase old new }

def Design.rebase (old new : Nat) (d : Design) : Design := { d with instances := d.instances.map (Instance.rebase old new) }

mutual

def Library.rebase (old new : Nat) : Library → Library
  | .mk id name type designs libraries =>
      .mk id name type (designs.map (Design.rebase old new)) (rebaseLibraries old new libraries)

def rebaseLibraries (old new : Nat) : List Library → List Library
  | [] => []
  | library :: rest => library.rebase old new :: rebaseLibraries old new rest

end

/-- All references to designs of the database follow its ID. -/
def Database.rebase (db : Database) (new : Nat) : Database :=
  ⟨new, rebaseLibraries db.id new db.libraries, db.top⟩

section lists
variable (ls : List Library)

theorem bareLibraries_eq : bareLibraries ls = ls.map Library.bare := by
  induction ls with
  | nil => rfl
  | cons l rest ih => rw [bareLibraries, ih, List.map_cons]

theorem rebaseLibraries_eq (old new : Nat) : rebaseLibraries old new ls = ls.map (Library.rebase old new) := by
  induction ls with
  | nil => rfl
  | cons l rest ih => rw [rebaseLibraries, ih, List.map_cons]

theorem flatLibraries_eq : flatLibraries ls = ls.flatMap Library.flat := by
  induction ls with
  | nil => rfl
  | cons l rest ih => rw [flatLibraries, ih, List.flatMap_cons]

theorem dumpLibraryInterfaces_eq : dumpLibraryInterfaces ls = ls.map dumpLibraryInterface := by
  induction ls with
  | nil => rfl
  | cons l rest ih => rw [dumpLibraryInterfaces, ih, List.map_cons]

theorem dumpLibraryImplementations_eq : dumpLibraryImplementations ls = ls.map dumpLibraryImplementation := by
  induction ls with
  | nil => rfl
  | cons l rest ih => rw [dumpLibraryImplementations, ih, List.map_cons]

theorem setDesignsIn_eq (id : Nat) (designs : List Design) :
    setDesignsIn id designs ls = ls.map (Library.setDesigns id designs) := by
  induction ls with
  | nil => rfl
  | cons l rest ih => rw [setDesignsIn, ih, List.map_cons]

end lists

theorem flat_eq (l : Library) : l.flat = l :: l.libraries.flatMap Library.flat := by
  cases l with
  | mk id name type designs libraries =>
      rw [Library.flat, flatLibraries_eq]
      rfl

theorem mem_flat_self (l : Library) : l ∈ l.flat := by
  rw [flat_eq]
  exact List.mem_cons_self

/-- An induction over libraries and what is inside of them. -/
theorem Library.induct (motive : Library → Prop)
    (step : ∀ id name type designs libraries, (∀ l ∈ libraries, motive l) → motive (.mk id name type designs libraries))
    (l : Library) : motive l := by
  refine @Library.rec motive (fun ls => ∀ l ∈ ls, motive l) ?_ ?_ ?_ l
  · intro id name type designs libraries inside
    exact step id name type designs libraries inside
  · intro l member
    contradiction
  · intro head tail first rest l member
    rcases List.mem_cons.mp member with rfl | later
    · exact first
    · exact rest l later

end Naja.CapnP
