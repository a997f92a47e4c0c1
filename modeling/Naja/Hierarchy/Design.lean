import Naja.Primitives.Term
import Naja.Unfolding.Walk

/-! A universe of designs: interfaces, instances and bit nets. An instance refers
to its model by the place of the design in the universe, and everything inside a
design refers to its terms and instances by their IDs. The content seen through a
hierarchical path is what the design at its end holds, less the names of shared
hierarchy. -/

namespace Naja.Hierarchy
open Naja.Primitives (Direction)
open Naja.Unfolding

/-- A bit of a term; a scalar term has no bit number. -/
structure BitTerm where
  term : Nat
  bit : Option Int
deriving DecidableEq, Repr

structure Term where
  id : Nat
  name : String
  direction : Direction
  range : Option (Int × Int)
deriving DecidableEq, Repr

inductive NetType where
  | Standard | Assign0 | Assign1 | Supply0 | Supply1 | AssignX | AssignZ
deriving DecidableEq, Repr

inductive NetComponent where
  | bitTerm (b : BitTerm)
  | instTerm (inst : Nat) (b : BitTerm)
deriving DecidableEq, Repr

/-- A scalar net or one bit of a bus net. -/
structure BitNet where
  id : Nat
  bit : Option Int
  name : String
  type : NetType
  components : List NetComponent
deriving DecidableEq, Repr

inductive ParameterType where
  | Decimal | Binary | Boolean | String
deriving DecidableEq, Repr

structure Parameter where
  name : String
  type : ParameterType
  value : String
deriving DecidableEq, Repr

structure InstParameter where
  name : String
  value : String
deriving DecidableEq, Repr

structure Instance where
  id : Nat
  name : String
  model : Nat
  parameters : List InstParameter
deriving DecidableEq, Repr

inductive DesignType where
  | Standard | UserBlackBox | AutoBlackBox | Primitive
deriving DecidableEq, Repr

structure Design where
  library : Nat
  name : String
  type : DesignType
  terms : List Term
  parameters : List Parameter
  instances : List Instance
  nets : List BitNet
deriving DecidableEq, Repr

structure Library where
  string : String
  isPrimitives : Bool
deriving DecidableEq, Repr

/-- The libraries by their IDs, and the designs of all of them in creation order. -/
structure Universe where
  libraries : List Library
  designs : List Design
  top : Nat
deriving DecidableEq, Repr

def isBetween (n msb lsb : Int) : Bool := decide (min msb lsb ≤ n) && decide (n ≤ max msb lsb)

def Term.hasBit (t : Term) : Option Int → Bool
  | none => t.range.isNone
  | some bit => t.range.any (fun (msb, lsb) => isBetween bit msb lsb)

namespace Design

def isPrimitive (d : Design) : Bool := d.type == .Primitive

def isBlackBox (d : Design) : Bool := d.type == .UserBlackBox || d.type == .AutoBlackBox

def isLeaf (d : Design) : Bool := d.isBlackBox || d.isPrimitive

def getTerm (d : Design) (id : Nat) : Option Term := d.terms.find? (fun t => t.id == id)

def getInstance (d : Design) (id : Nat) : Option Instance := d.instances.find? (fun i => i.id == id)

def hasBitTerm (d : Design) (b : BitTerm) : Bool := (d.getTerm b.term).any (fun t => t.hasBit b.bit)

theorem getInstance_some (d : Design) (id : Nat) (inst : Instance) (found : d.getInstance id = some inst) :
    inst ∈ d.instances ∧ inst.id = id := by
  have hit := List.find?_some found
  exact ⟨List.mem_of_find?_eq_some found, by simpa using hit⟩

/-- With distinct IDs the lookup finds every instance. -/
theorem getInstance_of_mem (d : Design) (ids : (d.instances.map Instance.id).Nodup) (inst : Instance)
    (member : inst ∈ d.instances) : d.getInstance inst.id = some inst := by
  have hit : (d.getInstance inst.id).isSome := by
    unfold getInstance
    rw [List.find?_isSome]
    exact ⟨inst, member, beq_self_eq_true inst.id⟩
  obtain ⟨other, found⟩ := Option.isSome_iff_exists.mp hit
  obtain ⟨member', same⟩ := d.getInstance_some inst.id other found
  rw [found, List.inj_on_of_nodup_map ids member' member same]

end Design

/-- What is seen of a design through a path: the model of a primitive is told, the name and the
place of a design that may be cloned are not. -/
structure Content where
  primitive : Option Nat
  type : DesignType
  terms : List Term
  parameters : List Parameter
  instances : List (Nat × String × List InstParameter)
  nets : List BitNet
deriving DecidableEq, Repr

def Design.content (d : Design) (place : Nat) : Content :=
  { primitive := if d.isPrimitive then some place else none
    type := d.type
    terms := d.terms
    parameters := d.parameters
    instances := d.instances.map (fun i => (i.id, i.name, i.parameters))
    nets := d.nets }

namespace Universe

def isPrimitive (u : Universe) (model : Nat) : Bool := (u.designs[model]?).any Design.isPrimitive

/-- The model of an instance of a design. -/
def child (u : Universe) (design id : Nat) : Option Nat :=
  (u.designs[design]?).bind (fun d => (d.getInstance id).map Instance.model)

/-- The design at the end of a path of instance IDs from the top. -/
def walk (u : Universe) (path : List Nat) : Option Nat := Unfolding.walk u.child u.top path

def contentOf (u : Universe) (model : Nat) : Option Content :=
  (u.designs[model]?).map (fun d => d.content model)

/-- The content seen through a path; nothing where the path leads nowhere. -/
def content (u : Universe) (path : List Nat) : Option (Option Content) :=
  (u.walk path).map u.contentOf

/-- The instances of a design, by their own design and ID. -/
def slaveInstances (u : Universe) (model : Nat) : List (Nat × Nat) :=
  u.designs.zipIdx.flatMap (fun (d, design) =>
    (d.instances.filter (fun i => i.model == model)).map (fun i => (design, i.id)))

/-- For primitives slave instances are not cached. -/
def getSlaveInstances (u : Universe) (model : Nat) : List (Nat × Nat) :=
  if u.isPrimitive model then [] else u.slaveInstances model

def edit (u : Universe) (model : Nat) (d : Design) : Universe :=
  { u with designs := u.designs.set model d }

end Universe

/-- The component belongs to the design: a bit of its interface, or a bit of the interface of the
model of one of its instances. -/
def Design.hasComponent (u : Universe) (d : Design) : NetComponent → Bool
  | .bitTerm b => d.hasBitTerm b
  | .instTerm inst b =>
      ((d.getInstance inst).bind (fun i => u.designs[i.model]?)).any (fun model => model.hasBitTerm b)

/-- What the constructors of the netlist objects keep true of a design. -/
structure Design.WellFormed (u : Universe) (d : Design) : Prop where
  termIds : (d.terms.map Term.id).Nodup
  instanceIds : (d.instances.map Instance.id).Nodup
  models : ∀ i ∈ d.instances, ∃ model, u.designs[i.model]? = some model ∧
    ∀ p ∈ i.parameters, p.name ∈ model.parameters.map Parameter.name
  components : ∀ net ∈ d.nets, ∀ c ∈ net.components, d.hasComponent u c
  oneNet : (d.nets.flatMap BitNet.components).Nodup
  primitive : d.isPrimitive → d.instances = []
  library : ∃ library, u.libraries[d.library]? = some library ∧ library.isPrimitives = d.isPrimitive

structure Universe.WellFormed (u : Universe) : Prop where
  designs : ∀ d ∈ u.designs, d.WellFormed u
  top : u.top < u.designs.length
  acyclic : ∃ rank : Nat → Nat, Descends u.child rank

namespace Universe

theorem child_eq_some (u : Universe) (design id model : Nat) :
    u.child design id = some model ↔
      ∃ d inst, u.designs[design]? = some d ∧ d.getInstance id = some inst ∧ inst.model = model := by
  unfold child
  rw [Option.bind_eq_some_iff]
  constructor
  · rintro ⟨d, found, edge⟩
    obtain ⟨inst, found', same⟩ := Option.map_eq_some_iff.mp edge
    exact ⟨d, inst, found, found', same⟩
  · rintro ⟨d, inst, found, found', same⟩
    exact ⟨d, found, Option.map_eq_some_iff.mpr ⟨inst, found', same⟩⟩

theorem child_lt (u : Universe) (wf : u.WellFormed) (design id model : Nat)
    (edge : u.child design id = some model) : model < u.designs.length := by
  obtain ⟨d, inst, found, found', rfl⟩ := (u.child_eq_some design id model).mp edge
  have member := (d.getInstance_some id inst found').1
  obtain ⟨target, place, -⟩ := (wf.designs d (List.mem_of_getElem? found)).models inst member
  exact (List.getElem?_eq_some_iff.mp place).1

theorem mem_slaveInstances (u : Universe) (wf : u.WellFormed) (model design id : Nat) :
    (design, id) ∈ u.slaveInstances model ↔ u.child design id = some model := by
  rw [child_eq_some]
  simp only [slaveInstances, List.mem_flatMap, List.mem_map, List.mem_filter, beq_iff_eq, Prod.exists,
    List.mem_zipIdx_iff_getElem?, Prod.mk.injEq]
  constructor
  · rintro ⟨d, place, found, inst, ⟨member, same⟩, rfl, rfl⟩
    have ids := (wf.designs d (List.mem_of_getElem? found)).instanceIds
    exact ⟨d, inst, found, d.getInstance_of_mem ids inst member, same⟩
  · rintro ⟨d, inst, found, found', same⟩
    obtain ⟨member, rfl⟩ := d.getInstance_some id inst found'
    exact ⟨d, design, found, inst, ⟨member, same⟩, rfl, rfl⟩

theorem slaveInstances_nodup (u : Universe) (wf : u.WellFormed) (model : Nat) :
    (u.slaveInstances model).Nodup := by
  unfold slaveInstances
  refine List.nodup_flatMap.mpr ⟨?_, ?_⟩
  · intro place member
    have ids := (wf.designs place.1 (List.fst_mem_of_mem_zipIdx member)).instanceIds
    have filtered := ids.sublist ((List.filter_sublist (p := fun i => i.model == model)).map Instance.id)
    have paired := filtered.map (f := fun id => (place.2, id))
      (fun left right same => congrArg Prod.snd same)
    rwa [List.map_map] at paired
  · have places : u.designs.zipIdx.Pairwise (fun left right => left.2 ≠ right.2) := by
      refine List.pairwise_map.mp ?_
      rw [List.zipIdx_map_snd]
      exact List.nodup_range'
    refine places.imp ?_
    intro left right distinct edge inLeft inRight
    obtain ⟨first, -, same⟩ := List.mem_map.mp inLeft
    obtain ⟨second, -, same'⟩ := List.mem_map.mp inRight
    exact distinct (congrArg Prod.fst (same.trans same'.symm))

/-- A design is instantiated once exactly when one edge of the hierarchy leads to it. -/
theorem length_slaveInstances (u : Universe) (wf : u.WellFormed) (design id model : Nat)
    (edge : u.child design id = some model) :
    (u.slaveInstances model).length = 1 ↔ OnlyEdge u.child design id model := by
  have member := (u.mem_slaveInstances wf model design id).mpr edge
  constructor
  · intro once
    obtain ⟨only, same⟩ := List.length_eq_one_iff.mp once
    refine ⟨edge, ?_⟩
    intro design' id' edge'
    have member' := (u.mem_slaveInstances wf model design' id').mpr edge'
    rw [same, List.mem_singleton] at member member'
    exact Prod.mk.inj (member'.trans member.symm)
  · intro only
    have all : ∀ place ∈ u.slaveInstances model, place = (design, id) := by
      intro place inList
      obtain ⟨left, right⟩ := only.only place.1 place.2 ((u.mem_slaveInstances wf model _ _).mp inList)
      exact Prod.ext left right
    have nodup := u.slaveInstances_nodup wf model
    rw [List.eq_replicate_of_mem all] at nodup member
    have upper := List.nodup_replicate.mp nodup
    have lower := (List.mem_replicate.mp member).1
    omega

end Universe

end Naja.Hierarchy
