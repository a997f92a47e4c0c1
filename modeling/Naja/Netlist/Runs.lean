import Naja.Netlist.CloneSound

/-! Runs of operations on a netlist, and what holds in every state they reach: both
sides of a connection agree, and an object is found under its ID and its name. Only
an automatic ID that is taken already, terminals that are not at the flat ID of their
bit, and a new model without a bit of the current one break this. -/

namespace Naja.Netlist
open Naja.Registry
open Naja.Primitives (Direction)

/-- The calls that change a design. -/
inductive Operation where
  | createDesign (library : Nat) (type : DesignType) (name : String)
  | createTerm (m : Nat) (id : Option Nat) (name : String) (direction : Direction) (range : Option (Int × Int))
  | createNet (k : Nat) (id : Option Nat) (name : String) (range : Option (Int × Int))
  | createInstance (k model : Nat) (id : Option Nat) (name : String)
  | createParameter (k : Nat) (parameter : Parameter)
  | createInstParameter (k : Nat) (inst : Address) (m : Nat) (parameter : InstParameter)
  | setName (k : Nat) (kind : World.ObjectKind) (object : Address) (name : String)
  | setNet (k : Nat) (c : Component) (net : Option World.NetArgument)
  | setBusTermNet (k : Nat) (term : Address) (net : Option World.NetArgument)
  | setTermNet (k : Nat) (inst : Address) (m : Nat) (term : Address) (termBits : List Int)
      (net : Option (Nat × Address)) (netBits : List Int)
  | setWholeTermNet (k : Nat) (inst : Address) (m : Nat) (term : Address) (k' : Nat) (net : Address)
  | setNetType (k : Nat) (net : Address) (types : List NetType)
  | destroyNet (k : Nat) (net : Address)
  | destroyNetBit (k : Nat) (n : BitNet)
  | destroyInstance (k : Nat) (inst : Address)
  | destroyParameter (k : Nat) (name : String)
  | destroyTerm (m : Nat) (term : Address)
  | destroyTermBit (m : Nat) (b : BitTerm)
  | setModel (k : Nat) (inst : Address) (model : Nat)
  | clone (k library : Nat) (name : String)

namespace World

def start (libraries : List Library) : World := ⟨libraries, [], 0⟩

/-- A primitive stands in a library of primitives, and nothing else does. -/
def createDesign (w : World) (library : Nat) (type : DesignType) (name : String) : Outcome :=
  match w.libraries[library]? with
  | none => .thrown .nullDesign w
  | some l =>
      if type = .Primitive ∧ ¬ l.isPrimitives then .thrown .primitiveDesign w
      else if type ≠ .Primitive ∧ l.isPrimitives then .thrown .primitivesLibrary w
      else if ¬ name.isEmpty ∧ (w.getSNLDesign library name).isSome then .thrown .designNameTaken w
      else .done { w with designs := w.designs ++ [⟨library, name, type, .empty, .empty, .empty, [], .none⟩] }

def step (w : World) : Operation → Outcome
  | .createDesign library type name => w.createDesign library type name
  | .createTerm m id name direction range => w.createTerm m id name direction range
  | .createNet k id name range => w.createNet k id name range
  | .createInstance k model id name => w.createInstance k model id name
  | .createParameter k parameter => w.createParameter k parameter
  | .createInstParameter k inst m parameter => w.createInstParameter k inst m parameter
  | .setName k kind object name => w.rename k kind object name
  | .setNet k c net => w.setComponentNet k c net
  | .setBusTermNet k term net => w.setBusTermNet k term net
  | .setTermNet k inst m term termBits net netBits => w.setTermNet k inst m term termBits net netBits
  | .setWholeTermNet k inst m term k' net => w.setWholeTermNet k inst m term k' net
  | .setNetType k net types => w.setNetType k net types
  | .destroyNet k net => w.destroyNet k net
  | .destroyNetBit k n => w.destroyNetBit k n
  | .destroyInstance k inst => w.destroyInstance k inst
  | .destroyParameter k name => w.destroyParameter k name
  | .destroyTerm m term => w.destroyTerm m term
  | .destroyTermBit m b => w.destroyTermBit m b
  | .setModel k inst model => w.setModel k inst model
  | .clone k library name => w.cloneToLibrary k library name

end World

/-- The state to go on from: a caller may catch an exception. -/
def Outcome.state : Outcome → Option World
  | .done w => some w
  | .thrown _ w => some w
  | .undefined => none

def World.run (w : World) (operations : List Operation) : Option World :=
  operations.foldlM (fun w operation => (w.step operation).state) w

/-- What a step must meet in the state it starts from. -/
def Admissible (w : World) : Operation → Prop
  | .createTerm m id _ _ _ => ∀ d, w.designs[m]? = some d → Room d.terms id
  | .createNet k id _ _ => ∀ d, w.designs[k]? = some d → Room d.nets id
  | .createInstance k _ id _ => ∀ d, w.designs[k]? = some d → Room d.instances id
  | .destroyTerm m term =>
      ∀ d e, w.designs[m]? = some d → d.terms.entry term = some e → Detachable w m d (bitsOf e)
  | .destroyTermBit m b => ∀ d, w.designs[m]? = some d → Detachable w m d [b]
  | .setModel k inst model =>
      ∀ d i current new, w.designs[k]? = some d → d.instances.entry inst = some i →
        w.designs[i.data.model]? = some current → w.designs[model]? = some new → i.data.model ≠ model →
          Replaceable i current new
  | .clone k _ _ => ∀ d, w.designs[k]? = some d → ModelsDense w d
  | _ => True

/-- The runs whose steps all meet this. -/
inductive AdmissibleRun : World → List Operation → World → Prop
  | nil (w : World) : AdmissibleRun w [] w
  | cons (w w₁ w₂ : World) (operation : Operation) (rest : List Operation) (meets : Admissible w operation)
      (step : (w.step operation).state = some w₁) (later : AdmissibleRun w₁ rest w₂) :
      AdmissibleRun w (operation :: rest) w₂

theorem AdmissibleRun.run_eq {w w' : World} {operations : List Operation} (ran : AdmissibleRun w operations w') :
    w.run operations = some w' := by
  induction ran with
  | nil w => rfl
  | cons w w₁ w₂ operation rest meets step later ih =>
      unfold World.run
      rw [List.foldlM_cons, step]
      exact ih

theorem AdmissibleRun.exists_cons (w w₁ : World) (operation : Operation) (rest : List Operation)
    (meets : Admissible w operation) (step : (w.step operation).state = some w₁)
    (later : ∃ w₂, AdmissibleRun w₁ rest w₂) : ∃ w₂, AdmissibleRun w (operation :: rest) w₂ := by
  obtain ⟨w₂, ran⟩ := later
  exact ⟨w₂, .cons w w₁ w₂ operation rest meets step ran⟩

/-- A condition on a design that can be tested. -/
theorem forall_of_all (w : World) (k : Nat) (p : Design → Prop) [DecidablePred p]
    (holds : (w.designs[k]?).all (fun d => decide (p d)) = true) : ∀ d, w.designs[k]? = some d → p d := by
  intro d found
  rw [found] at holds
  exact of_decide_eq_true holds

theorem sound_start (libraries : List Library) : (World.start libraries).Sound := by
  intro k d found
  contradiction

/-- A design without objects. -/
theorem sound_blank (w : World) (library : Nat) (name : String) (type : DesignType) :
    (⟨library, name, type, .empty, .empty, .empty, [], .none⟩ : Design).Sound w where
  terms := Index.sound_empty
  nets := Index.sound_empty
  instances := Index.sound_empty
  oldTerms := by simp [Index.empty]
  oldNets := by simp [Index.empty]
  oldInstances := by simp [Index.empty]
  parameters := List.nodup_nil
  links := Links.paired_none
  attached := by simp [Links.none]
  tables := by simp [Index.empty]

theorem createDesign_sound (w : World) (whole : w.Sound) (library : Nat) (type : DesignType) (name : String) :
    (w.createDesign library type name).Sound := by
  unfold World.createDesign
  split
  · exact whole
  · split
    · exact whole
    · split
      · exact whole
      · split
        · exact whole
        · exact whole.withDesign w _ w.next (Nat.le_refl _) (sound_blank _ library name type)

theorem step_sound (w : World) (whole : w.Sound) (operation : Operation) (meets : Admissible w operation) :
    (w.step operation).Sound := by
  cases operation with
  | createDesign library type name => exact createDesign_sound w whole library type name
  | createTerm m id name direction range => exact createTerm_sound w whole m id name direction range meets
  | createNet k id name range => exact createNet_sound w whole k id name range meets
  | createInstance k model id name => exact createInstance_sound w whole k model id name meets
  | createParameter k parameter => exact createParameter_sound w whole k parameter
  | createInstParameter k inst m parameter => exact createInstParameter_sound w whole k inst m parameter
  | setName k kind object name => exact rename_sound w whole k kind object name
  | setNet k c net => exact setComponentNet_sound w whole k c net
  | setBusTermNet k term net => exact setBusTermNet_sound w whole k term net
  | setTermNet k inst m term termBits net netBits => exact setTermNet_sound w whole k inst m term termBits net netBits
  | setWholeTermNet k inst m term k' net => exact setWholeTermNet_sound w whole k inst m term k' net
  | setNetType k net types => exact setNetType_sound w whole k net types
  | destroyNet k net => exact destroyNet_sound w whole k net
  | destroyNetBit k n => exact destroyNetBit_sound w whole k n
  | destroyInstance k inst => exact destroyInstance_sound w whole k inst
  | destroyParameter k name => exact destroyParameter_sound w whole k name
  | destroyTerm m term => exact destroyTerm_sound w whole m term meets
  | destroyTermBit m b => exact destroyTermBit_sound w whole m b meets
  | setModel k inst model => exact setModel_sound w whole k inst model meets
  | clone k library name => exact cloneToLibrary_sound w whole k library name meets

theorem run_sound (w w' : World) (whole : w.Sound) (operations : List Operation)
    (ran : AdmissibleRun w operations w') : w'.Sound := by
  induction ran with
  | nil w => exact whole
  | cons w w₁ w₂ operation rest meets step later ih =>
      apply ih
      have kept := step_sound w whole operation meets
      cases result : w.step operation with
      | done w' =>
          rw [result] at step kept
          exact Option.some.inj step ▸ kept
      | thrown reason w' =>
          rw [result] at step kept
          exact Option.some.inj step ▸ kept
      | undefined =>
          rw [result] at step
          contradiction

/-! ### What a caller sees -/

/-- Objects are found under the ID and the name they have now, and nothing is found under another name. -/
structure Found {α : Type} (r : Index α) : Prop where
  byID : ∀ e ∈ r.set ++ r.loose, r.getByID e.id = some e
  byName : ∀ e ∈ r.set ++ r.loose, e.name ≠ "" → r.getByName e.name = some e
  stale : ∀ name e, r.getByName name = some e → e ∈ r.set ++ r.loose ∧ e.name = name ∧ name ≠ ""
  unique : ∀ e ∈ r.set ++ r.loose, ∀ e' ∈ r.set ++ r.loose, e.name ≠ "" → e.name = e'.name → e = e'

structure Design.Consistent (d : Design) : Prop where
  linked : ∀ c n, c ∈ d.links.components n ↔ d.links.netOf c = some n
  terms : Found d.terms
  nets : Found d.nets
  instances : Found d.instances
  parameters : (d.parameters.map Parameter.name).Nodup

theorem found_of_sound {α : Type} (r : Index α) (sound : r.Sound) : Found r := by
  have alive : r.set ++ r.loose = r.set := by rw [sound.loose, List.append_nil]
  refine ⟨?_, ?_, ?_, ?_⟩
  · rw [alive]
    intro e member
    exact (sound.getByID_iff e.id e).mpr ⟨member, rfl⟩
  · rw [alive]
    intro e member named
    exact (sound.getByName_iff e.name named e).mpr ⟨member, rfl⟩
  · rw [alive]
    intro name e found
    have named : name ≠ "" := by
      obtain ⟨id, inMap, -⟩ := Option.bind_eq_some_iff.mp found
      exact ((sound.names name id).mp ((Index.lookup_iff_of_nodup r.names sound.keys name id).mp inMap)).1
    obtain ⟨member, same⟩ := (sound.getByName_iff name named e).mp found
    exact ⟨member, same, named⟩
  · rw [alive]
    intro e member e' member' named same
    exact sound.eq_of_name e e' member member' same named

theorem consistent_of_sound (w : World) (d : Design) (sound : d.Sound w) : d.Consistent :=
  ⟨sound.links.iff, found_of_sound _ sound.terms, found_of_sound _ sound.nets, found_of_sound _ sound.instances,
    sound.parameters⟩

/-- Along every run from the empty state whose steps meet the condition, all designs stay consistent. -/
theorem consistent_along_run (libraries : List Library) (operations : List Operation) (w : World)
    (ran : AdmissibleRun (World.start libraries) operations w) : ∀ d ∈ w.designs, d.Consistent := by
  intro d member
  obtain ⟨k, found⟩ := List.getElem?_of_mem member
  exact consistent_of_sound w d (run_sound _ w (sound_start libraries) operations ran k d found)

/-- A cell with an input is instantiated in a design with a bus net. -/
def connectedRun : List Operation :=
  [.createDesign 0 .Standard "cell", .createTerm 0 none "a" .Input none, .createDesign 0 .Standard "top",
    .createInstance 1 0 none "u", .createNet 1 none "n" (some (1, 0)),
    .setNet 1 (.instTerm 1 0) (some (.bit 1 ⟨2, 1⟩)), .setName 1 .net 2 "p"]

theorem connectedRun_admissible : ∃ w, AdmissibleRun (World.start [⟨"work", false⟩]) connectedRun w := by
  refine AdmissibleRun.exists_cons _ _ _ _ trivial rfl ?_
  refine AdmissibleRun.exists_cons _ _ _ _ ?_ rfl ?_
  · exact forall_of_all _ 0 (fun d => Room d.terms none) (by decide +kernel)
  refine AdmissibleRun.exists_cons _ _ _ _ trivial rfl ?_
  refine AdmissibleRun.exists_cons _ _ _ _ ?_ rfl ?_
  · exact forall_of_all _ 1 (fun d => Room d.instances none) (by decide +kernel)
  refine AdmissibleRun.exists_cons _ _ _ _ ?_ rfl ?_
  · exact forall_of_all _ 1 (fun d => Room d.nets none) (by decide +kernel)
  refine AdmissibleRun.exists_cons _ _ _ _ trivial rfl ?_
  refine AdmissibleRun.exists_cons _ _ _ _ trivial rfl ?_
  exact ⟨_, .nil _⟩

theorem connectedRun_consistent :
    ∃ w, AdmissibleRun (World.start [⟨"work", false⟩]) connectedRun w ∧ ∀ d ∈ w.designs, d.Consistent := by
  obtain ⟨w, ran⟩ := connectedRun_admissible
  exact ⟨w, ran, consistent_along_run _ _ w ran⟩

/-- A net with the last ID, and one more, which gets the ID of the first. -/
def wrappedRun : List Operation :=
  [.createDesign 0 .Standard "top", .createNet 0 none "a" none, .createNet 0 (some 4294967295) "b" none,
    .createNet 0 none "c" none]

/-- The third net is not found under its ID. -/
theorem wrapped_net_hidden : ∃ w, (World.start [⟨"work", false⟩]).run wrappedRun = some w ∧
    ∃ d ∈ w.designs, (∃ e ∈ d.nets.set ++ d.nets.loose, d.nets.getByID e.id ≠ some e) ∧ ¬ d.Consistent := by
  refine ⟨_, rfl, _, List.mem_singleton.mpr rfl, ?_⟩
  refine ⟨⟨⟨2, 0, "c", ⟨none, [], [.Standard]⟩⟩, by decide +kernel, by decide +kernel⟩, ?_⟩
  intro consistent
  have found := consistent.nets.byID ⟨2, 0, "c", ⟨none, [], [.Standard]⟩⟩ (by decide +kernel)
  revert found
  decide +kernel

end Naja.Netlist
