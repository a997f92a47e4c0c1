import Naja.Hierarchy.Uniquifier

/-! What one run of the uniquifier does to a hierarchy: the models on the path
are instantiated once, every path shows the content it showed before, and a later
edit at the end of the path is seen through the path only. -/

namespace Naja.Hierarchy
open Naja.Unfolding

section transfer
variable (u u' : Universe) (d d' : Design) (f : Instance → Instance) (wf : d.WellFormed u)
  (instances : d'.instances = d.instances.map f) (ids : ∀ i ∈ d.instances, (f i).id = i.id)
  (terms : d'.terms = d.terms)
  (models : ∀ i ∈ d.instances, ∀ m, u.designs[i.model]? = some m →
    ∃ m', u'.designs[(f i).model]? = some m' ∧ m'.terms = m.terms ∧ m'.parameters = m.parameters)
include wf instances ids

theorem sameIds : d'.instances.map Instance.id = d.instances.map Instance.id := by
  rw [instances, List.map_map]
  exact List.map_congr_left ids

include terms models

theorem Design.hasComponent_transfer (c : NetComponent) (present : d.hasComponent u c) : d'.hasComponent u' c := by
  cases c with
  | bitTerm b =>
      unfold Design.hasComponent Design.hasBitTerm Design.getTerm at present ⊢
      rwa [terms]
  | instTerm id b =>
      obtain ⟨m, found, inside⟩ := (Option.any_eq_true _ _).mp present
      obtain ⟨i, found', place⟩ := Option.bind_eq_some_iff.mp found
      obtain ⟨member, rfl⟩ := d.getInstance_some id i found'
      obtain ⟨m', place', sameTerms, -⟩ := models i member m place
      have nodup := wf.instanceIds
      rw [← sameIds u d d' f wf instances ids] at nodup
      have member' : f i ∈ d'.instances := instances ▸ List.mem_map_of_mem member
      have lookup := d'.getInstance_of_mem nodup (f i) member'
      rw [ids i member] at lookup
      refine (Option.any_eq_true _ _).mpr ⟨m', ?_, ?_⟩
      · rw [lookup, Option.bind_some, place']
      · unfold Design.hasBitTerm Design.getTerm at inside ⊢
        rwa [sameTerms]

/-- A design stays well formed when its instances move to models with the same interfaces. -/
theorem Design.WellFormed.transfer (parameters : ∀ i ∈ d.instances, (f i).parameters = i.parameters)
    (nets : d'.nets = d.nets) (libraries : u'.libraries = u.libraries) (library : d'.library = d.library)
    (kind : d'.isPrimitive = d.isPrimitive) : d'.WellFormed u' := by
  refine ⟨?_, ?_, ?_, ?_, ?_, ?_, ?_⟩
  · rw [terms]
    exact wf.termIds
  · rw [sameIds u d d' f wf instances ids]
    exact wf.instanceIds
  · intro i' member'
    rw [instances] at member'
    obtain ⟨i, member, rfl⟩ := List.mem_map.mp member'
    obtain ⟨m, place, known⟩ := wf.models i member
    obtain ⟨m', place', -, sameParameters⟩ := models i member m place
    refine ⟨m', place', ?_⟩
    rw [parameters i member, sameParameters]
    exact known
  · rw [nets]
    intro net inNets c inNet
    exact Design.hasComponent_transfer u u' d d' f wf instances ids terms models c (wf.components net inNets c inNet)
  · rw [nets]
    exact wf.oneNet
  · intro primitive
    rw [instances, wf.primitive (kind ▸ primitive)]
    rfl
  · rw [libraries, library, kind]
    exact wf.library

end transfer

/-- What the uniquifier depends on of a design on its path. -/
structure Signature where
  library : Nat
  name : String
  type : DesignType
deriving DecidableEq, Repr

def Design.signature (d : Design) : Signature := ⟨d.library, d.name, d.type⟩

/-- `f` does not see that a clone is a Standard design. -/
def Blind (f : Content → Content) (signatures : List Signature) : Prop :=
  ∀ s ∈ signatures, ∀ c : Content, c.type = s.type → f { c with type := .Standard } = f c

namespace Universe

/-- The universe after an instance is moved to a clone of its model. -/
def split (u : Universe) (design : Nat) (inst : Instance) (model : Design) (name : String) : Universe :=
  (u.addDesign (model.cloned name)).replaceInstance design { inst with model := u.designs.length }

section split
variable (u : Universe) (wf : u.WellFormed) (design : Nat) (d : Design) (inst : Instance) (model : Design)
  (name : String) (here : u.designs[design]? = some d) (found : d.getInstance inst.id = some inst)
  (place : u.designs[inst.model]? = some model)

/-- The instances of the design with the moved one in its place. -/
def movedInstances (u : Universe) (inst : Instance) (instances : List Instance) : List Instance :=
  instances.map (fun i => if i.id = inst.id then { inst with model := u.designs.length } else i)

include here

theorem design_lt : design < u.designs.length := (List.getElem?_eq_some_iff.mp here).1

theorem split_here : (u.split design inst model name).designs[design]? =
    some { d with instances := u.movedInstances inst d.instances } := by
  unfold split replaceInstance addDesign
  rw [List.getElem?_modify_eq, List.getElem?_append_left (u.design_lt design d here), here]
  rfl

theorem split_clone : (u.split design inst model name).designs[u.designs.length]? = some (model.cloned name) := by
  have other : design ≠ u.designs.length := Nat.ne_of_lt (u.design_lt design d here)
  unfold split replaceInstance addDesign
  rw [List.getElem?_modify_ne _ _ other, List.getElem?_concat_length]

omit here in
theorem split_other (k : Nat) (other : k ≠ design) (old : k ≠ u.designs.length) :
    (u.split design inst model name).designs[k]? = u.designs[k]? := by
  unfold split replaceInstance addDesign
  rw [List.getElem?_modify_ne _ _ other.symm]
  by_cases low : k < u.designs.length
  · rw [List.getElem?_append_left low]
  · have high : u.designs.length + 1 ≤ k := by omega
    rw [List.getElem?_eq_none (by simpa using high), List.getElem?_eq_none (by omega)]

/-- Every design keeps its interface. -/
theorem split_interface (k : Nat) (x : Design) (old : u.designs[k]? = some x) :
    ∃ instances, (u.split design inst model name).designs[k]? = some { x with instances := instances } := by
  by_cases same : k = design
  · subst same
    obtain rfl := Option.some.inj (here.symm.trans old)
    exact ⟨_, u.split_here k d inst model name here⟩
  · have low := u.design_lt k x old
    exact ⟨x.instances, (u.split_other design inst model name k same (by omega)).trans old⟩

omit here in
theorem find?_movedInstances (instances : List Instance) (id : Nat) :
    ((u.movedInstances inst instances).find? (fun i => i.id == id)).map Instance.model =
      if id = inst.id ∧ (instances.find? (fun i => i.id == id)).isSome then some u.designs.length
      else (instances.find? (fun i => i.id == id)).map Instance.model := by
  unfold movedInstances
  induction instances with
  | nil => simp
  | cons i rest ih =>
      by_cases same : i.id = inst.id
      · by_cases wanted : inst.id = id
        · simp [same, wanted]
        · have other : ¬ id = inst.id := fun equal => wanted equal.symm
          simpa [same, wanted, other] using ih
      · by_cases wanted : i.id = id
        · have other : ¬ id = inst.id := fun equal => same (wanted.trans equal)
          simp [same, wanted, other]
        · simpa [same, wanted] using ih

include wf found place in
/-- Moving the instance splits its model off in the graph of designs. -/
theorem split_child : Split u.child (u.split design inst model name).child design inst.id inst.model
    u.designs.length := by
  have low := u.design_lt design d here
  refine ⟨?_, ?_, ?_, ?_, ?_, ?_⟩
  · exact (u.child_eq_some design inst.id inst.model).mpr ⟨d, inst, here, found, rfl⟩
  · intro x k edge
    exact Nat.lt_irrefl _ (u.child_lt wf x k _ edge)
  · intro k
    rw [child, List.getElem?_eq_none le_rfl]
    rfl
  · rw [child, u.split_here design d inst model name here, Option.bind_some]
    refine (u.find?_movedInstances inst d.instances inst.id).trans (if_pos ⟨rfl, ?_⟩)
    exact Option.isSome_of_mem found
  · funext k
    rw [child, u.split_clone design d inst model name here, child, place]
    rfl
  · intro x k old away
    by_cases same : x = design
    · subst same
      rw [child, u.split_here x d inst model name here, child, here, Option.bind_some, Option.bind_some]
      refine (u.find?_movedInstances inst d.instances k).trans (if_neg ?_)
      exact fun both => away ⟨rfl, both.1⟩
    · rw [child, u.split_other design inst model name x same old]
      rfl

include wf found place in
theorem split_wellFormed (standard : ¬ model.isPrimitive) : (u.split design inst model name).WellFormed := by
  have self : model.WellFormed u := wf.designs model (List.mem_of_getElem? place)
  have kept (i : Instance) (m : Design) (target : u.designs[i.model]? = some m) :
      ∃ m', (u.split design inst model name).designs[i.model]? = some m' ∧ m'.terms = m.terms ∧
        m'.parameters = m.parameters := by
    obtain ⟨instances, same⟩ := u.split_interface design d inst model name here i.model m target
    exact ⟨_, same, rfl, rfl⟩
  refine ⟨?_, ?_, ?_⟩
  · intro x member
    obtain ⟨k, at_k⟩ := List.getElem?_of_mem member
    by_cases clone : k = u.designs.length
    · rw [clone, u.split_clone design d inst model name here, Option.some.injEq] at at_k
      subst at_k
      refine self.transfer u _ model _ id (List.map_id _).symm (fun _ _ => rfl) rfl (fun i _ => kept i) (fun _ _ => rfl)
        rfl rfl rfl ?_
      exact (Bool.eq_false_iff.mpr standard).symm
    · by_cases same : k = design
      · rw [same, u.split_here design d inst model name here, Option.some.injEq] at at_k
        subst at_k
        have ids := (wf.designs d (List.mem_of_getElem? here)).instanceIds
        obtain ⟨member', -⟩ := d.getInstance_some inst.id inst found
        have only (i : Instance) (inside : i ∈ d.instances) (equal : i.id = inst.id) : i = inst :=
          List.inj_on_of_nodup_map ids inside member' equal
        refine (wf.designs d (List.mem_of_getElem? here)).transfer u _ d _
          (fun i => if i.id = inst.id then { inst with model := u.designs.length } else i) rfl ?_ rfl ?_ ?_
          rfl rfl rfl rfl
        · intro i inside
          split
          · next equal => exact equal.symm
          · rfl
        · intro i inside m target
          split
          · next equal =>
              obtain rfl := only i inside equal
              obtain rfl := Option.some.inj (place.symm.trans target)
              exact ⟨_, u.split_clone design d i model name here, rfl, rfl⟩
          · exact kept i m target
        · intro i inside
          split
          · next equal => rw [only i inside equal]
          · rfl
      · rw [u.split_other design inst model name k same clone] at at_k
        exact (wf.designs x (List.mem_of_getElem? at_k)).transfer u _ x x id (List.map_id _).symm (fun _ _ => rfl) rfl
          (fun i _ => kept i) (fun _ _ => rfl) rfl rfl rfl rfl
  · have longer : (u.split design inst model name).designs.length = u.designs.length + 1 := by
      simp [split, replaceInstance, addDesign]
    have low := wf.top
    change u.top < (u.split design inst model name).designs.length
    omega
  · obtain ⟨rank, descends⟩ := wf.acyclic
    exact ⟨_, Split.descends_after _ _ rank _ _ _ _ (u.split_child wf design d inst model name here found place) descends⟩

omit here in
/-- A design does not show the models of its instances. -/
theorem content_moved (ids : (d.instances.map Instance.id).Nodup) (found : d.getInstance inst.id = some inst)
    (k : Nat) : ({ d with instances := u.movedInstances inst d.instances } : Design).content k = d.content k := by
  have member := (d.getInstance_some inst.id inst found).1
  have shown : (u.movedInstances inst d.instances).map (fun i => (i.id, i.name, i.parameters)) =
      d.instances.map (fun i => (i.id, i.name, i.parameters)) := by
    unfold movedInstances
    rw [List.map_map]
    refine List.map_congr_left ?_
    intro i inside
    by_cases same : i.id = inst.id
    · obtain rfl := List.inj_on_of_nodup_map ids inside member same
      simp
    · simp [same]
  unfold Design.content
  rw [shown]
  rfl

include wf found place in
/-- A shared model is split off unless it is a primitive or the name of its clone is taken. -/
theorem replaceWithClone_eq (id : String) (standard : ¬ model.isPrimitive)
    (free : u.getSNLDesign model.library (cloneName model id) = none) :
    u.replaceWithClone design inst id = .ok (u.split design inst model (cloneName model id)) := by
  have self : model.WellFormed u := wf.designs model (List.mem_of_getElem? place)
  have cloned := u.clone_eq model self standard (cloneName model id)
  rw [if_neg (fun taken => by simp [free] at taken)] at cloned
  have member := (d.getInstance_some inst.id inst found).1
  obtain ⟨m, place', known⟩ := (wf.designs d (List.mem_of_getElem? here)).models inst member
  obtain rfl := Option.some.inj (place.symm.trans place')
  have moved := setModel_eq inst model u.designs.length (model.cloned (cloneName model id)) rfl rfl known
  unfold replaceWithClone
  rw [place]
  simp only [cloned, moved, bind, Except.bind, pure, Except.pure]
  rfl

omit here in
include wf place in
theorem replaceWithClone_taken (id : String) (standard : ¬ model.isPrimitive)
    (taken : (u.getSNLDesign model.library (cloneName model id)).isSome) :
    ∃ reason, u.replaceWithClone design inst id = .error (.exception reason) := by
  have self : model.WellFormed u := wf.designs model (List.mem_of_getElem? place)
  have named : ¬ (cloneName model id).isEmpty := by
    simp [cloneName, String.isEmpty]
  have refused := u.clone_eq model self standard (cloneName model id)
  rw [if_pos ⟨named, taken⟩] at refused
  unfold replaceWithClone
  rw [place]
  simp only [refused, bind, Except.bind]
  exact ⟨_, rfl⟩

/-- Where `f` does not tell the model from its clone, every path shows what it showed. -/
theorem split_content (f : Content → Content) (wf : u.WellFormed) (found : d.getInstance inst.id = some inst)
    (place : u.designs[inst.model]? = some model)
    (blind : f ((model.cloned name).content u.designs.length) = f (model.content inst.model)) (path : List Nat) :
    ((u.split design inst model name).content path).map (Option.map f) = (u.content path).map (Option.map f) := by
  have low := u.design_lt design d here
  have views := Split.views _ _ _ _ _ _ (u.split_child wf design d inst model name here found place)
    (fun k => (u.contentOf k).map f) (fun k => ((u.split design inst model name).contentOf k).map f) ?_ path
    u.top u.top (Or.inl ⟨rfl, Nat.ne_of_lt wf.top⟩)
  · unfold content walk
    rw [Option.map_map, Option.map_map]
    exact views.symm
  · intro x y stands
    rcases stands with ⟨rfl, old⟩ | ⟨rfl, rfl⟩
    · unfold contentOf
      by_cases same : x = design
      · subst same
        rw [here, u.split_here x d inst model name here, Option.map_some, Option.map_some, Option.map_some, Option.map_some,
          u.content_moved d inst (wf.designs d (List.mem_of_getElem? here)).instanceIds found x]
      · rw [u.split_other design inst model name x same old]
    · unfold contentOf
      rw [place, u.split_clone design d inst model name here]
      exact congrArg some blind.symm

/-- Names of designs stay. -/
theorem split_getSNLDesign (library : Nat) (other : String) (old : u.getSNLDesign library other = none)
    (distinct : ¬ (model.library = library ∧ name = other)) :
    (u.split design inst model name).getSNLDesign library other = none := by
  unfold getSNLDesign at old ⊢
  rw [List.find?_eq_none] at old ⊢
  intro x member
  obtain ⟨k, at_k⟩ := List.getElem?_of_mem member
  by_cases clone : k = u.designs.length
  · rw [clone, u.split_clone design d inst model name here, Option.some.injEq] at at_k
    subst at_k
    simpa [Design.cloned] using distinct
  · by_cases same : k = design
    · rw [same, u.split_here design d inst model name here, Option.some.injEq] at at_k
      subst at_k
      exact old d (List.mem_of_getElem? here)
    · rw [u.split_other design inst model name k same clone] at at_k
      exact old x (List.mem_of_getElem? at_k)

end split

def signatures (u : Universe) (design : Nat) : List Nat → List Signature
  | [] => []
  | label :: rest =>
      match u.child design label with
      | none => []
      | some k =>
          ((u.designs[k]?).filter (fun d => !d.isPrimitive)).toList.map Design.signature ++ u.signatures k rest

/-- The clones of the designs on a path get names that are free and distinct. -/
structure ClonesFree (u : Universe) (id : String) (signatures : List Signature) : Prop where
  free : ∀ s ∈ signatures, u.getSNLDesign s.library (s.name ++ "_clone_" ++ id) = none
  distinct : (signatures.map (fun s => (s.library, s.name))).Nodup

section split
variable (u : Universe) (wf : u.WellFormed) (design : Nat) (d : Design) (inst : Instance) (model : Design)
  (name : String) (here : u.designs[design]? = some d) (found : d.getInstance inst.id = some inst)
  (place : u.designs[inst.model]? = some model)
include wf here found place

/-- Below the split nothing changes. -/
theorem split_signatures (rank : Nat → Nat) (descends : Descends u.child rank) (path : List Nat) (k : Nat)
    (low : rank k < rank design) (old : k ≠ u.designs.length) :
    (u.split design inst model name).signatures k path = u.signatures k path := by
  have split := u.split_child wf design d inst model name here found place
  induction path generalizing k with
  | nil => rfl
  | cons label rest ih =>
      have away : ¬ (k = design ∧ label = inst.id) := by
        rintro ⟨rfl, -⟩
        exact Nat.lt_irrefl _ low
      unfold signatures
      rw [split.same k label old away]
      cases edge : u.child k label with
      | none => rfl
      | some next =>
          have below := descends k label next edge
          have next_lt := u.child_lt wf k label next edge
          have next_old : next ≠ u.designs.length := Nat.ne_of_lt next_lt
          have next_other : next ≠ design := by
            rintro rfl
            omega
          simp only
          rw [u.split_other design inst model name next next_other next_old, ih next (by omega) next_old]

theorem split_signatures_clone (path : List Nat) :
    (u.split design inst model name).signatures u.designs.length path = u.signatures inst.model path := by
  have split := u.split_child wf design d inst model name here found place
  obtain ⟨rank, descends⟩ := wf.acyclic
  cases path with
  | nil => rfl
  | cons label rest =>
      have below := descends design inst.id inst.model split.edge
      have same := u.split_signatures wf design d inst model name here found place rank descends (label :: rest)
        inst.model below (Split.m_ne _ _ _ _ _ _ split)
      have away : inst.model ≠ design := by
        intro equal
        rw [equal] at below
        exact Nat.lt_irrefl _ below
      rw [← same]
      unfold signatures
      rw [split.copied, split.same inst.model label (Split.m_ne _ _ _ _ _ _ split) (fun both => away both.1)]

/-- A path that goes on from the model goes on from the clone. -/
theorem split_goesOn (path : List Nat) (there : (Unfolding.walk u.child inst.model path).isSome) :
    (Unfolding.walk (u.split design inst model name).child u.designs.length path).isSome := by
  have split := u.split_child wf design d inst model name here found place
  have same := Split.views _ _ _ _ _ _ split (fun _ => ()) (fun _ => ()) (fun _ _ _ => rfl) path
    inst.model u.designs.length (Or.inr ⟨rfl, rfl⟩)
  rw [← Option.isSome_map (f := fun _ => ()), ← same, Option.isSome_map]
  exact there

omit wf found place in
/-- One clone takes one name. -/
theorem split_clonesFree (id : String) (rest : List Signature) (free : u.ClonesFree id (model.signature :: rest)) :
    (u.split design inst model (cloneName model id)).ClonesFree id rest := by
  refine ⟨?_, free.distinct.of_cons⟩
  intro s inside
  refine u.split_getSNLDesign design d inst model (cloneName model id) here s.library _
    (free.free s (List.mem_cons_of_mem _ inside)) ?_
  rintro ⟨sameLibrary, sameName⟩
  have equal : model.name = s.name := by
    rw [cloneName, String.append_left_inj, String.append_left_inj] at sameName
    exact sameName
  refine (List.nodup_cons.mp free.distinct).1 (List.mem_map.mpr ⟨s, inside, ?_⟩)
  exact Prod.ext sameLibrary.symm equal.symm

end split

/-- The result of a run along a path. -/
structure Uniquified (u u' : Universe) (path : List Nat) (signatures : List Signature) : Prop where
  wellFormed : u'.WellFormed
  top : u'.top = u.top
  isolated : ∃ front e, Isolated u'.child u'.top front e ∧
    (path = front ∨ ∃ label k, path = front ++ [label] ∧ u'.child e label = some k ∧ u'.isPrimitive k)
  content : ∀ f, Blind f signatures → ∀ other,
    (u'.content other).map (Option.map f) = (u.content other).map (Option.map f)

theorem requiredPath_cons (label : Nat) (rest : List Nat) (tail : Bool) (goes : ¬ (rest.isEmpty ∧ ¬ tail)) :
    requiredPath (label :: rest) tail = label :: requiredPath rest tail := by
  unfold requiredPath
  cases tail with
  | true => rfl
  | false =>
      cases rest with
      | nil => exact absurd ⟨rfl, Bool.false_ne_true⟩ goes
      | cons next rest => rfl

theorem signatures_cons (u : Universe) (design label k : Nat) (d : Design) (rest : List Nat)
    (edge : u.child design label = some k) (place : u.designs[k]? = some d) (standard : ¬ d.isPrimitive) :
    u.signatures design (label :: rest) = d.signature :: u.signatures k rest := by
  rw [signatures, edge]
  simp [place, standard, Option.filter]

theorem isPrimitive_eq (u : Universe) (k : Nat) (d : Design) (place : u.designs[k]? = some d) :
    u.isPrimitive k = d.isPrimitive := by
  rw [isPrimitive, place]
  rfl

/-- No path goes on from a primitive. -/
theorem child_primitive (u : Universe) (wf : u.WellFormed) (k : Nat) (primitive : u.isPrimitive k) (label : Nat) :
    u.child k label = none := by
  unfold child
  cases place : u.designs[k]? with
  | none => rfl
  | some d =>
      rw [u.isPrimitive_eq k d place] at primitive
      rw [Option.bind_some, Design.getInstance, (wf.designs d (List.mem_of_getElem? place)).primitive primitive]
      rfl

/-- How a run ends: it returns where the clones' names are free. -/
structure Ends (u : Universe) (id : String) (run : Result (Universe × List (Nat × Nat))) (path : List Nat)
    (signatures : List Signature) : Prop where
  result : ∀ u' uniq, run = .ok (u', uniq) → Uniquified u u' path signatures
  returns : u.ClonesFree id signatures → ∃ final, run = .ok final

/-- A run that changes nothing. -/
theorem ends_unchanged (u : Universe) (wf : u.WellFormed) (id : String) (uniq : List (Nat × Nat)) (path : List Nat)
    (signatures : List Signature) (isolated : ∃ front e, Isolated u.child u.top front e ∧
      (path = front ∨ ∃ label k, path = front ++ [label] ∧ u.child e label = some k ∧ u.isPrimitive k)) :
    u.Ends id (.ok (u, uniq)) path signatures := by
  refine ⟨?_, fun _ => ⟨_, rfl⟩⟩
  intro u' uniq' ran
  cases ran
  exact ⟨wf, rfl, isolated, fun f blind other => rfl⟩

/-- From a model with one instance the run goes on in the same universe. -/
theorem ends_once (u : Universe) (id : String) (run : Result (Universe × List (Nat × Nat))) (path : List Nat)
    (s : Signature) (rest : List Signature) (below : u.Ends id run path rest) : u.Ends id run path (s :: rest) := by
  refine ⟨?_, ?_⟩
  · intro u' uniq ran
    have result := below.result u' uniq ran
    refine ⟨result.wellFormed, result.top, result.isolated, ?_⟩
    intro f blind other
    exact result.content f (fun s inside => blind s (List.mem_cons_of_mem _ inside)) other
  · intro free
    exact below.returns ⟨fun s inside => free.free s (List.mem_cons_of_mem _ inside), free.distinct.of_cons⟩

theorem content_cloned (d : Design) (standard : ¬ d.isPrimitive) (name : String) (k place : Nat) :
    (d.cloned name).content k = { d.content place with type := .Standard } := by
  have kind : d.type ≠ .Primitive := by simpa [Design.isPrimitive] using standard
  simp [Design.content, Design.cloned, Design.isPrimitive, kind]

/-- From a clone the run goes on in the universe with the clone. -/
theorem ends_split (u : Universe) (wf : u.WellFormed) (design : Nat) (d : Design) (inst : Instance) (model : Design)
    (here : u.designs[design]? = some d) (found : d.getInstance inst.id = some inst)
    (place : u.designs[inst.model]? = some model) (standard : ¬ model.isPrimitive) (id : String)
    (run : Result (Universe × List (Nat × Nat))) (path : List Nat) (rest : List Signature)
    (below : (u.split design inst model (cloneName model id)).Ends id run path rest) :
    u.Ends id run path (model.signature :: rest) := by
  refine ⟨?_, ?_⟩
  · intro u' uniq ran
    have result := below.result u' uniq ran
    refine ⟨result.wellFormed, result.top, result.isolated, ?_⟩
    intro f blind other
    rw [result.content f (fun s inside => blind s (List.mem_cons_of_mem _ inside)) other]
    refine u.split_content design d inst model (cloneName model id) here f wf found place ?_ other
    rw [content_cloned model standard (cloneName model id) u.designs.length inst.model]
    exact blind model.signature List.mem_cons_self (model.content inst.model) rfl
  · intro free
    exact below.returns (u.split_clonesFree design d inst model here id rest free)

theorem processFrom_ends (id : String) (tail : Bool) (rest : List Nat) (u : Universe) (pathUniq : List (Nat × Nat))
    (design : Nat) (front : List Nat) (wf : u.WellFormed) (isolated : Isolated u.child u.top front design)
    (there : (Unfolding.walk u.child design rest).isSome) :
    u.Ends id (processFrom id tail u pathUniq design rest) (front ++ requiredPath rest tail)
      (u.signatures design (requiredPath rest tail)) := by
  have empty : requiredPath [] tail = [] := by cases tail <;> rfl
  induction rest generalizing u pathUniq design front with
  | nil =>
      rw [empty, List.append_nil]
      exact u.ends_unchanged wf id pathUniq front _ ⟨front, design, isolated, Or.inl rfl⟩
  | cons label rest ih =>
      obtain ⟨last, reached⟩ := Option.isSome_iff_exists.mp there
      rw [Unfolding.walk] at reached
      obtain ⟨k, edge, further⟩ := Option.bind_eq_some_iff.mp reached
      obtain ⟨d, inst, here, found, rfl⟩ := (u.child_eq_some design label k).mp edge
      obtain ⟨member, rfl⟩ := d.getInstance_some label inst found
      obtain ⟨model, place, -⟩ := (wf.designs d (List.mem_of_getElem? here)).models inst member
      have lookup : (u.designs[design]?).bind (fun d => d.getInstance inst.id) = some inst := by
        rw [here, Option.bind_some, found]
      unfold processFrom
      rw [lookup]
      simp only
      by_cases stop : rest.isEmpty ∧ ¬ tail
      · have required : requiredPath (inst.id :: rest) tail = [] := by
          rw [List.isEmpty_iff.mp stop.1, requiredPath, if_neg stop.2]
          rfl
        rw [if_pos stop, required, List.append_nil]
        exact u.ends_unchanged wf id _ front _ ⟨front, design, isolated, Or.inl rfl⟩
      · rw [if_neg stop, requiredPath_cons inst.id rest tail stop]
        by_cases primitive : u.isPrimitive inst.model
        · have ends : rest = [] := by
            cases rest with
            | nil => rfl
            | cons next rest =>
                rw [Unfolding.walk, u.child_primitive wf inst.model primitive next] at further
                exact absurd further.symm (Option.some_ne_none last)
          rw [if_pos (Or.inr primitive), ends, empty]
          exact u.ends_unchanged wf id _ _ _
            ⟨front, design, isolated, Or.inr ⟨inst.id, inst.model, rfl, edge, primitive⟩⟩
        · have standard : ¬ model.isPrimitive := by rwa [u.isPrimitive_eq inst.model model place] at primitive
          have slaves : u.getSlaveInstances inst.model = u.slaveInstances inst.model := if_neg primitive
          rw [u.signatures_cons design inst.id inst.model model _ edge place standard, List.append_cons front]
          by_cases once : (u.slaveInstances inst.model).length = 1
          · have only := (u.length_slaveInstances wf design inst.id inst.model edge).mp once
            rw [if_pos (Or.inl (slaves ▸ once))]
            exact u.ends_once id _ _ _ _ (ih u _ inst.model (front ++ [inst.id]) wf
              (.step front design inst.id inst.model isolated only) (further ▸ rfl))
          · have shared : ¬ ((u.getSlaveInstances inst.model).length = 1 ∨ u.isPrimitive inst.model) := by
              rw [slaves]
              exact fun either => either.elim once primitive
            rw [if_neg shared]
            cases name : u.getSNLDesign model.library (cloneName model id) with
            | some taken =>
                -- the name of the clone is taken and the run stops
                obtain ⟨reason, refused⟩ :=
                  u.replaceWithClone_taken wf design inst model place id standard (name ▸ rfl)
                rw [refused]
                refine ⟨fun u' uniq ran => (by cases ran), ?_⟩
                intro free
                exact absurd (name.symm.trans (free.free model.signature List.mem_cons_self))
                  (Option.some_ne_none taken)
            | none =>
                rw [u.replaceWithClone_eq wf design d inst model here found place id standard name]
                have split := u.split_child wf design d inst model (cloneName model id) here found place
                obtain ⟨rank, descends⟩ := wf.acyclic
                refine u.ends_split wf design d inst model here found place standard id _ _ _ ?_
                rw [← u.split_signatures_clone wf design d inst model (cloneName model id) here found place
                  (requiredPath rest tail)]
                exact ih (u.split design inst model (cloneName model id)) _ u.designs.length (front ++ [inst.id])
                  (u.split_wellFormed wf design d inst model (cloneName model id) here found place standard)
                  (Split.isolated _ _ rank _ _ _ _ split descends _ _ isolated)
                  (u.split_goesOn wf design d inst model (cloneName model id) here found place rest (further ▸ rfl))

/-- The models on the path are instantiated once, primitives apart. -/
theorem Uniquified.unique (u u' : Universe) (path : List Nat) (signatures : List Signature)
    (result : Uniquified u u' path signatures) (front : List Nat) (label : Nat) (part : front ++ [label] <+: path)
    (model : Nat) (reached : u'.walk (front ++ [label]) = some model) (standard : ¬ u'.isPrimitive model) :
    (u'.getSlaveInstances model).length = 1 := by
  obtain ⟨whole, e, isolated, ends⟩ := result.isolated
  have inside : front ++ [label] <+: whole := by
    rcases ends with rfl | ⟨last, k, rfl, edge, primitive⟩
    · exact part
    · rcases List.prefix_concat_iff.mp part with same | before
      · rw [same, walk, walk_concat, Isolated.reached _ _ _ _ isolated, Option.bind_some, edge] at reached
        exact absurd (Option.some.inj reached ▸ primitive) standard
      · exact before
  obtain ⟨a, c, before, only⟩ := Isolated.onlyEdge _ _ _ _ isolated front label inside
  rw [walk, walk_concat, before, Option.bind_some, only.edge] at reached
  obtain rfl := Option.some.inj reached
  rw [getSlaveInstances, if_neg standard, u'.length_slaveInstances result.wellFormed a label c only.edge]
  exact only

/-- An edit at the end of the path is seen through the path only. -/
theorem Uniquified.edit (u u' : Universe) (path : List Nat) (signatures : List Signature)
    (result : Uniquified u u' path signatures) (model : Nat) (reached : u'.walk path = some model)
    (standard : ¬ u'.isPrimitive model) (d : Design) (other : List Nat) (off : ¬ path <+: other) :
    (u'.edit model d).content other = u'.content other := by
  obtain ⟨whole, e, isolated, ends⟩ := result.isolated
  obtain ⟨rank, descends⟩ := result.wellFormed.acyclic
  have atEnd : whole = path := by
    rcases ends with rfl | ⟨last, k, rfl, edge, primitive⟩
    · rfl
    · rw [walk, walk_concat, Isolated.reached _ _ _ _ isolated, Option.bind_some, edge] at reached
      exact absurd (Option.some.inj reached ▸ primitive) standard
  subst atEnd
  obtain rfl := Option.some.inj ((Isolated.reached _ _ _ _ isolated).symm.trans reached)
  have elsewhere (a : Nat) (away : a ≠ e) : (u'.edit e d).designs[a]? = u'.designs[a]? :=
    List.getElem?_set_ne away.symm
  refine Isolated.views_off_path _ _ rank _ descends whole e isolated _ _ ?_ ?_ other off
  · intro a away
    funext label
    rw [child, elsewhere a away]
    rfl
  · intro a away
    rw [contentOf, elsewhere a away]
    rfl

end Universe

/-- The content with a black box shown as a Standard design. -/
def Content.lessBlackBox (c : Content) : Content :=
  { c with type := if c.type = .Primitive then .Primitive else .Standard }

theorem Universe.signatures_standard (u : Universe) (path : List Nat) (design : Nat) (s : Signature)
    (member : s ∈ u.signatures design path) : s.type ≠ .Primitive := by
  induction path generalizing design with
  | nil => nomatch member
  | cons label rest ih =>
      unfold signatures at member
      cases edge : u.child design label with
      | none =>
          rw [edge] at member
          nomatch member
      | some k =>
          rw [edge] at member
          rcases List.mem_append.mp member with first | further
          · obtain ⟨d, found, rfl⟩ := List.mem_map.mp first
            have kept := (Option.mem_filter_iff.mp (Option.mem_toList.mp found)).2
            simpa [Design.isPrimitive, Design.signature] using kept
          · exact ih k further

/-- One run of the uniquifier. It returns where the clones' names are free, and once it has returned
every model on the path that is no primitive has one instance, every path shows the content it showed, and an
edit of the design at the end of the path is seen through that path only. -/
theorem process_isolates (u : Universe) (wf : u.WellFormed) (path : List Nat) (there : (u.walk path).isSome)
    (id : String) (uniquifyTail : Bool) :
    (u.ClonesFree id (u.signatures u.top (requiredPath path uniquifyTail)) →
      ∃ final, u.process path id uniquifyTail = .ok final) ∧
    ∀ u' pathUniq, u.process path id uniquifyTail = .ok (u', pathUniq) →
      (∀ front label, front ++ [label] <+: requiredPath path uniquifyTail → ∀ model,
        u'.walk (front ++ [label]) = some model → ¬ u'.isPrimitive model →
          (u'.getSlaveInstances model).length = 1) ∧
      (∀ other, (u'.content other).map (Option.map Content.lessBlackBox) =
        (u.content other).map (Option.map Content.lessBlackBox)) ∧
      ((∀ s ∈ u.signatures u.top (requiredPath path uniquifyTail), s.type = .Standard) →
        ∀ other, u'.content other = u.content other) ∧
      ∀ model, u'.walk (requiredPath path uniquifyTail) = some model → ¬ u'.isPrimitive model →
        ∀ d other, ¬ requiredPath path uniquifyTail <+: other → (u'.edit model d).content other = u'.content other := by
  have ends := Universe.processFrom_ends id uniquifyTail path u [] u.top [] wf .root there
  rw [List.nil_append] at ends
  refine ⟨ends.returns, ?_⟩
  intro u' pathUniq ran
  have result := ends.result u' pathUniq ran
  refine ⟨result.unique, ?_, ?_, result.edit⟩
  · refine result.content Content.lessBlackBox ?_
    intro s member c same
    have kind : c.type ≠ .Primitive := same ▸ u.signatures_standard _ _ s member
    simp [Content.lessBlackBox, kind]
  · intro standard other
    have same := result.content (fun c => c) (fun s member c equal => by rw [← standard s member, ← equal]) other
    simpa using same

/-- A cell and a module, both used twice by the top design. -/
def sharedUniverse : Universe :=
  { libraries := [⟨"work", false⟩, ⟨"cells", true⟩]
    designs := [
      ⟨0, "top", .Standard, [], [], [⟨0, "a", 1, []⟩, ⟨1, "b", 1, []⟩, ⟨2, "c", 2, []⟩, ⟨3, "d", 2, []⟩], []⟩,
      ⟨0, "module", .Standard, [⟨0, "i", .Input, none⟩], [], [], [⟨0, none, "i", .Standard, [.bitTerm ⟨0, none⟩]⟩]⟩,
      ⟨1, "cell", .Primitive, [], [], [], []⟩]
    top := 0 }

theorem sharedUniverse_wellFormed : sharedUniverse.WellFormed := by
  refine ⟨?_, by decide, ⟨fun k => if k = 0 then 1 else 0, ?_⟩⟩
  · intro d member
    simp only [sharedUniverse, List.mem_cons, List.not_mem_nil, or_false] at member
    rcases member with rfl | rfl | rfl
    · constructor <;> simp [sharedUniverse, Design.isPrimitive]
    · constructor <;> simp [sharedUniverse, Design.isPrimitive, Design.hasComponent, Design.hasBitTerm, Design.getTerm,
        Term.hasBit]
    · constructor <;> simp [sharedUniverse, Design.isPrimitive]
  · intro a label b edge
    obtain ⟨d, inst, here, found, rfl⟩ := (sharedUniverse.child_eq_some a label b).mp edge
    have member := (d.getInstance_some label inst found).1
    rcases a with _ | _ | _ | a
    · obtain rfl := Option.some.inj here
      simp only [List.mem_cons, List.not_mem_nil, or_false] at member
      rcases member with rfl | rfl | rfl | rfl <;> decide
    · obtain rfl := Option.some.inj here
      exact absurd member List.not_mem_nil
    · obtain rfl := Option.some.inj here
      exact absurd member List.not_mem_nil
    · cases here

theorem sharedUniverse_isolated : ∃ u' pathUniq,
    sharedUniverse.process [0] "_0" true = .ok (u', pathUniq) ∧
    ∀ other, u'.content other = sharedUniverse.content other := by
  have run := process_isolates sharedUniverse sharedUniverse_wellFormed [0] (by decide) "_0" true
  obtain ⟨⟨u', pathUniq⟩, ran⟩ := run.1 ⟨by decide, by decide⟩
  exact ⟨u', pathUniq, ran, (run.2 u' pathUniq ran).2.2.1 (by decide)⟩

/-- The model at the end of the path is a primitive, and stays the model of another instance. -/
theorem sharedUniverse_primitive_shared : sharedUniverse.WellFormed ∧
    ∃ u' pathUniq, sharedUniverse.process [2] "_2" true = .ok (u', pathUniq) ∧ u'.walk [2] = some 2 ∧
      u'.slaveInstances 2 = [(0, 2), (0, 3)] := by
  refine ⟨sharedUniverse_wellFormed, sharedUniverse, [(0, 2)], ?_, ?_, ?_⟩
  · decide +kernel
  · decide
  · decide

end Naja.Hierarchy
