import Naja.Hierarchy.Design
import Naja.InstTerms.Table

/-! Cloning a design and giving an instance another model. A clone is built
object by object: its nets look every component up in the new design by its ID. -/

namespace Naja.Hierarchy

/-- How a call ends without a result: with an exception, or on a null instance. -/
inductive Failure where
  | exception (reason : String)
  | nullInstance
deriving DecidableEq, Repr

abbrev Result := Except Failure

def throw (reason : String) : Result α := .error (.exception reason)

/-- `library->getSNLDesign(name)`. -/
def Universe.getSNLDesign (u : Universe) (library : Nat) (name : String) : Option Design :=
  u.designs.find? (fun d => d.library == library && d.name == name)

def Universe.libraryString (u : Universe) (library : Nat) : String :=
  ((u.libraries[library]?).map Library.string).getD ""

def describeName (name : String) : String := if name.isEmpty then " <anonymous>" else " named: " ++ name

/-- The checks of `SNLDesign::create`. -/
def Universe.preCreate (u : Universe) (library : Nat) (type : DesignType) (name : String) : Result Unit :=
  let primitives := (u.libraries[library]?).any Library.isPrimitives
  if type = .Primitive ∧ ¬ primitives then
    throw ("Cannot create a primitive design" ++ describeName name ++
      " in a non primitives library: " ++ u.libraryString library)
  else if type ≠ .Primitive ∧ primitives then
    throw ("Cannot create a non primitive design" ++ describeName name ++
      " in a primitives library: " ++ u.libraryString library)
  else if ¬ name.isEmpty ∧ (u.getSNLDesign library name).isSome then
    throw ("NLLibrary " ++ u.libraryString library ++ " contains already a SNLDesign named: " ++ name)
  else .ok ()

/-- The new design starts with the terms and parameters of the cloned one. -/
def Universe.cloneInterfaceToLibrary (u : Universe) (d : Design) (library : Nat) (name : String) :
    Result Design :=
  if d.isPrimitive then throw "cloneToLibrary cannot be called on primitive designs"
  else do
    u.preCreate library .Standard name
    return ⟨library, name, .Standard, d.terms, d.parameters, [], []⟩

/-- The component of the new design that stands for a component of the cloned one. -/
def Universe.cloneComponent (u : Universe) (newDesign : Design) (c : NetComponent) : Result NetComponent :=
  match c with
  | .bitTerm ⟨id, none⟩ =>
      if (newDesign.getTerm id).any (fun t => t.range.isNone) then .ok c
      else throw "SNLBitNet::cloneComponents: scalarTerm not found"
  | .bitTerm ⟨id, some bit⟩ =>
      match (newDesign.getTerm id).filter (fun t => t.range.isSome) with
      | none => throw "SNLBitNet::cloneComponents: busTerm not found"
      | some bus =>
          if bus.hasBit (some bit) then .ok c
          else throw "SNLBitNet::cloneComponents: busTermBit not found"
  | .instTerm inst b =>
      match newDesign.getInstance inst with
      | none => throw "SNLBitNet::cloneComponents: instance not found"
      | some newInstance =>
          if (u.designs[newInstance.model]?).any (fun model => model.hasBitTerm b) then .ok c
          else throw "SNLBitNet::cloneComponents: instTerm not found"

def Universe.cloneNet (u : Universe) (newDesign : Design) (net : BitNet) : Result BitNet := do
  let components ← net.components.mapM (u.cloneComponent newDesign)
  return ⟨net.id, net.bit, net.name, net.type, components⟩

def Universe.cloneToLibrary (u : Universe) (d : Design) (library : Nat) (name : String) : Result Design :=
  if ¬ name.isEmpty ∧ (u.getSNLDesign library name).isSome then
    throw ("NLLibrary " ++ u.libraryString library ++ " contains already a SNLDesign named: " ++ d.name)
  else do
    let newInterface ← u.cloneInterfaceToLibrary d library name
    let newDesign : Design := { newInterface with instances := d.instances }
    let nets ← d.nets.mapM (u.cloneNet newDesign)
    return { newDesign with nets := nets }

def Universe.clone (u : Universe) (d : Design) (name : String) : Result Design :=
  u.cloneToLibrary d d.library name

/-- A term as the table of an instance sees it. -/
def Term.entry (t : Term) : InstTerms.Term := ⟨t.id, t.id, t.name, t.direction, t.range, 0⟩

def checkTerms : List Term → List Term → Result Unit
  | current :: currents, new :: news =>
      match InstTerms.checkTerms current.entry new.entry with
      | .error reason => throw reason
      | .ok () => checkTerms currents news
  | _, _ => .ok ()

def checkParameters : List Parameter → List Parameter → Result Unit
  | current :: currents, new :: news =>
      if current.name ≠ new.name then throw "SNLInstance::setModel error: different parameter names"
      else if current.type ≠ new.type then throw "SNLInstance::setModel error: different parameter types"
      else checkParameters currents news
  | _, _ => .ok ()

/-- `setModel`: the new model must have the interface of the current one, term by term and
parameter by parameter; the instance then refers to it. -/
def setModel (inst : Instance) (current : Design) (place : Nat) (model : Design) : Result Instance :=
  if inst.model = place then .ok inst
  else if current.terms.length ≠ model.terms.length then
    throw "SNLInstance::setModel error: different number of terms"
  else do
    checkTerms current.terms model.terms
    if current.parameters.length ≠ model.parameters.length then
      throw "SNLInstance::setModel error: different number of parameters"
    else do
      checkParameters current.parameters model.parameters
      if inst.parameters.all (fun p => current.parameters.any (fun q => q.name == p.name)) then
        return { inst with model := place }
      else throw "SNLInstance::setModel error: parameter not found in new model"

theorem mapM_ok_self (f : α → Result α) (xs : List α) (each : ∀ x ∈ xs, f x = .ok x) :
    xs.mapM f = .ok xs := by
  induction xs with
  | nil => rfl
  | cons x rest ih =>
      rw [List.mapM_cons, each x List.mem_cons_self, ih (fun y member => each y (List.mem_cons_of_mem _ member))]
      rfl

/-- A component of the new design is its own copy. -/
theorem Universe.cloneComponent_eq (u : Universe) (newDesign : Design) (c : NetComponent)
    (present : newDesign.hasComponent u c) : u.cloneComponent newDesign c = .ok c := by
  unfold cloneComponent
  unfold Design.hasComponent at present
  split
  · next id =>
      simp only [Design.hasBitTerm, Term.hasBit] at present
      rw [if_pos present]
  · next id bit =>
      obtain ⟨term, found, inside⟩ := (Option.any_eq_true _ _).mp present
      have bus : term.range.isSome := by
        obtain ⟨range, same, -⟩ := (Option.any_eq_true _ _).mp inside
        rw [same]
        rfl
      have bits : term.hasBit (some bit) := inside
      simp [found, bus, bits, Option.filter]
  · next inst b =>
      obtain ⟨model, found, inside⟩ := (Option.any_eq_true _ _).mp present
      obtain ⟨newInstance, found', place⟩ := Option.bind_eq_some_iff.mp found
      simp [found', place, inside]

/-- What a clone holds: everything but the name and the type. -/
def Design.cloned (d : Design) (name : String) : Design := { d with name := name, type := .Standard }

/-- A clone fails only on a primitive or on a taken name. -/
theorem Universe.clone_eq (u : Universe) (d : Design) (wf : d.WellFormed u) (standard : ¬ d.isPrimitive)
    (name : String) :
    u.clone d name =
      if ¬ name.isEmpty ∧ (u.getSNLDesign d.library name).isSome then
        throw ("NLLibrary " ++ u.libraryString d.library ++ " contains already a SNLDesign named: " ++ d.name)
      else .ok (d.cloned name) := by
  unfold clone cloneToLibrary
  split
  · rfl
  · next free =>
      obtain ⟨library, place, kind⟩ := wf.library
      have interface : u.cloneInterfaceToLibrary d d.library name =
          .ok ⟨d.library, name, .Standard, d.terms, d.parameters, [], []⟩ := by
        have created : u.preCreate d.library .Standard name = .ok () := by
          unfold preCreate
          rw [if_neg (by simp), if_neg (by simp [place, kind, standard]), if_neg free]
        rw [cloneInterfaceToLibrary, if_neg standard, created]
        rfl
      have nets : d.nets.mapM (u.cloneNet { d.cloned name with nets := [] }) = .ok d.nets := by
        refine mapM_ok_self _ _ ?_
        intro net member
        unfold cloneNet
        rw [mapM_ok_self]
        · rfl
        · intro c inNet
          refine u.cloneComponent_eq _ c ?_
          have present := wf.components net member c inNet
          cases c with
          | bitTerm b => exact present
          | instTerm inst b => exact present
      rw [interface]
      change (do let nets ← d.nets.mapM (u.cloneNet { d.cloned name with nets := [] }); _) = _
      rw [nets]
      rfl

theorem checkTerms_self (terms : List Term) : checkTerms terms terms = .ok () := by
  induction terms with
  | nil => rfl
  | cons t rest ih =>
      have same : InstTerms.checkTerms t.entry t.entry = .ok () := by
        unfold InstTerms.checkTerms
        cases range : t.entry.range <;> simp
      rw [checkTerms, same]
      exact ih

theorem checkParameters_self (parameters : List Parameter) : checkParameters parameters parameters = .ok () := by
  induction parameters with
  | nil => rfl
  | cons p rest ih => simp [checkParameters, ih]

/-- An instance takes a model with the interface of its own one. -/
theorem setModel_eq (inst : Instance) (current : Design) (place : Nat) (model : Design)
    (terms : model.terms = current.terms) (parameters : model.parameters = current.parameters)
    (known : ∀ p ∈ inst.parameters, p.name ∈ current.parameters.map Parameter.name) :
    setModel inst current place model = .ok { inst with model := place } := by
  have found : inst.parameters.all (fun p => current.parameters.any (fun q => q.name == p.name)) := by
    rw [List.all_eq_true]
    intro p member
    obtain ⟨q, member', same⟩ := List.mem_map.mp (known p member)
    exact List.any_eq_true.mpr ⟨q, member', by simp [same]⟩
  unfold setModel
  split
  · next same => rw [← same]
  · simp [terms, parameters, checkTerms_self, checkParameters_self, found, bind, Except.bind, pure, Except.pure]

end Naja.Hierarchy
