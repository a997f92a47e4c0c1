import Naja.Primitives.ReadBack
import Naja.Universe.Sound

/-! Primitives are canonical: one signature, one design, in every state later on. The
conditions say which calls stay within the bits of the port ranges and of the IDs. -/

namespace Naja.Primitives.DB0
open Registry
open Universe (newID nameFree nextFree designBound)
open NLDB0 (GateType Signature maxBit maxDesignID)

/-! ### Runs -/

inductive Call where
  | signature (x : Request)
  | primitive (libraryID designID : Nat) (parameters : List (String × String))

def Call.request : Call → Option (Option Request)
  | .signature x => some (some x)
  | .primitive libraryID designID parameters => primitiveRequest libraryID designID parameters

def Call.run (s : DB0) : Call → Option (DB0 × Option Design)
  | .signature x => getOrCreate s x
  | .primitive libraryID designID parameters => getOrCreatePrimitive s libraryID designID parameters

/-- The number of pins of a gate is no design ID, and what is left of it is the ID of another gate. -/
def Truncated (s : DB0) (x : Request) : Prop :=
  x.byName = true ∧ ∃ pins, x.designID = some pins ∧ designBound ≤ pins ∧
    ((s.designs x.library).getByID (pins % designBound)).isSome = true

/-- A design that takes the next ID finds it free. -/
def Room (s : DB0) (x : Request) : Prop :=
  x.designID = none → (x.find (s.designs x.library)).isSome = true ∨ nextFree (s.designs x.library) designBound = true

def Meets (s : DB0) (x : Request) : Prop := x.accepted = false ∨ Truncated s x ∨ (x.Fits ∧ Room s x)

/-- The states after calls that meet the condition. -/
inductive Later (s : DB0) : DB0 → Prop
  | here : Later s s
  | call (s' s'' : DB0) (c : Call) (design : Option Design) (before : Later s s')
      (meets : ∀ x, c.request = some (some x) → Meets s' x) (called : c.run s' = some (s'', design)) : Later s s''

def Reached (s : DB0) : Prop := Later DB0.create s

/-- What is promised of a call: it throws, or returns the one design of the signature. -/
structure ReturnsOwn (s : DB0) (x : Request) (s' : DB0) (design : Design) : Prop where
  returned : getOrCreate s x = some (s', some design)
  widths : design.data.ports.map Port.getWidth = x.statedWidths.map some
  again : ∀ s'', Later s' s'' → getOrCreate s'' x = some (s'', some design)
  distinct : ∀ s'', Later s' s'' → ∀ y, y ≠ x → Meets s'' y → ∀ s₃ other, getOrCreate s'' y = some (s₃, some other) →
    other.object ≠ design.object
  read : readSignature x.library design = some x
  reloaded : getOrCreatePrimitive s' x.library.id design.id design.data.parameters = some (s', some design)
  fresh : ∃ s₀ copy, getOrCreatePrimitive DB0.create x.library.id design.id design.data.parameters = some (s₀, some copy) ∧
    copy.name = design.name ∧ copy.data = design.data ∧ ∀ id, x.designID = some id → copy.id = design.id

def Canonical (s : DB0) (x : Request) : Prop :=
  getOrCreate s x = none ∨ ∃ s' design, ReturnsOwn s x s' design

/-! ### Invariant -/

structure Sound (s : DB0) : Prop where
  index : ∀ l, (s.designs l).Sound
  below : ∀ l, ∀ e ∈ (s.designs l).set, e.object < s.next
  apart : ∀ l l', ∀ e ∈ (s.designs l).set, ∀ e' ∈ (s.designs l').set, e.object = e'.object → l = l'
  made : ∀ l, ∀ e ∈ (s.designs l).set, ∃ x, MadeFor e x ∧ x.library = l

/-- The primitives created with DB0 are there. -/
def Present (s : DB0) : Prop :=
  ∀ x ∈ builtins, ∃ e ∈ (s.designs x.library).set, e.name = x.designName

theorem mem_builtins (x : Request) (builtin : x.builtin = true) : x ∈ builtins := by
  cases x with
  | sequential family w =>
      have scalar : w = 1 := by simpa [Request.builtin] using builtin
      subst scalar
      cases family <;> decide
  | memory m => contradiction
  | word signature =>
      cases signature with
      | assign => decide
      | fa => decide
      | mux2 w =>
          have scalar : w = 1 := by simpa [Request.builtin] using builtin
          subst scalar
          decide
      | _ => contradiction

/-- In a library an ID tells its signature where designs are created with it. -/
theorem designID_injective (x y : Request) (acceptedX : x.accepted = true) (acceptedY : y.accepted = true)
    (library : x.library = y.library) (id : Nat) (idX : x.designID = some id) (idY : y.designID = some id) : x = y := by
  have inX := holds_library x acceptedX
  have inY := holds_library y acceptedY
  rw [library] at inX
  generalize y.library = l at inX inY
  cases l with
  | Root => exact inX.trans inY.symm
  | Assign => exact inX.trans inY.symm
  | Mux2 | Add | Subtract | Multiply | DivModUnsigned | DivModSigned | Sequential family =>
      obtain ⟨w, rfl⟩ := inX
      obtain ⟨w', rfl⟩ := inY
      cases idX
      cases idY
      rfl
  | TableSelect =>
      obtain ⟨w, d, a, rfl⟩ := inX
      contradiction
  | Shift | VectorUpdate | VectorSelect =>
      obtain ⟨w, d, a, b, rfl⟩ := inX
      contradiction
  | Memory =>
      obtain ⟨m, rfl⟩ := inX
      contradiction
  | Gate type =>
      rcases inX with ⟨input, n, rfl⟩ | ⟨output, n, rfl⟩
      · rcases inY with ⟨-, n', rfl⟩ | ⟨output, -⟩
        · cases idX
          cases idY
          rfl
        · cases type <;> contradiction
      · rcases inY with ⟨input, -⟩ | ⟨-, n', rfl⟩
        · cases type <;> contradiction
        · cases idX
          cases idY
          rfl

/-- How a design is looked for and gets its ID goes by its library. -/
theorem family_library (x y : Request) (acceptedX : x.accepted = true) (acceptedY : y.accepted = true)
    (library : x.library = y.library) : x.byName = y.byName ∧ x.designID.isSome = y.designID.isSome := by
  have inX := holds_library x acceptedX
  have inY := holds_library y acceptedY
  rw [library] at inX
  generalize y.library = l at inX inY
  cases l with
  | Root => rw [inX, inY]; exact ⟨rfl, rfl⟩
  | Assign => rw [inX, inY]; exact ⟨rfl, rfl⟩
  | Mux2 | Add | Subtract | Multiply | DivModUnsigned | DivModSigned | Sequential family | Memory =>
      obtain ⟨w, rfl⟩ := inX
      obtain ⟨w', rfl⟩ := inY
      exact ⟨rfl, rfl⟩
  | TableSelect =>
      obtain ⟨w, d, a, rfl⟩ := inX
      obtain ⟨w', d', a', rfl⟩ := inY
      exact ⟨rfl, rfl⟩
  | Shift | VectorUpdate | VectorSelect =>
      obtain ⟨w, d, a, b, rfl⟩ := inX
      obtain ⟨w', d', a', b', rfl⟩ := inY
      exact ⟨rfl, rfl⟩
  | Gate type =>
      rcases inX with ⟨-, n, rfl⟩ | ⟨-, n, rfl⟩ <;> rcases inY with ⟨-, n', rfl⟩ | ⟨-, n', rfl⟩ <;> exact ⟨rfl, rfl⟩

theorem designID_of_byID (x : Request) (byID : x.byName = false) : ∃ id, x.designID = some id := by
  cases x with
  | sequential family w => exact ⟨w, rfl⟩
  | memory m => contradiction
  | word signature => cases signature <;> first | contradiction | exact ⟨_, rfl⟩

section sound
variable {s : DB0} (sound : Sound s) (x : Request) (accepted : x.accepted = true)
include sound accepted

theorem Sound.eq_of_name (e : Design) (member : e ∈ (s.designs x.library).set) (same : e.name = x.designName) :
    MadeFor e x := by
  obtain ⟨y, made, library⟩ := sound.made x.library e member
  rw [designName_injective x y accepted made.accepted library.symm (same.symm.trans made.name)]
  exact made

theorem Sound.find_iff (e : Design) :
    x.find (s.designs x.library) = some e ↔ e ∈ (s.designs x.library).set ∧ e.name = x.designName := by
  unfold Request.find
  by_cases named : x.byName = true
  · rw [if_pos named]
    exact (sound.index x.library).getByName_iff _ (designName_nonempty x) e
  · rw [if_neg named]
    obtain ⟨id, given⟩ := designID_of_byID x (by simpa using named)
    rw [given, Option.bind_some, (sound.index x.library).getByID_iff]
    refine and_congr_right ?_
    intro member
    constructor
    · intro hit
      obtain ⟨y, made, library⟩ := sound.made x.library e member
      obtain ⟨id', given'⟩ := designID_of_byID y
        ((family_library y x made.accepted accepted library).1.trans (by simpa using named))
      have same : id' = id := (made.id id' given').symm.trans hit
      subst same
      rw [designID_injective x y accepted made.accepted library.symm id' given given']
      exact made.name
    · intro same
      exact (sound.eq_of_name x accepted e member same).id id given

theorem Sound.absent (none : x.find (s.designs x.library) = none) :
    ∀ e ∈ (s.designs x.library).set, e.name ≠ x.designName := by
  intro e member same
  rw [(sound.find_iff x accepted e).mpr ⟨member, same⟩] at none
  contradiction

theorem Sound.nameFree (none : x.find (s.designs x.library) = none) :
    nameFree (s.designs x.library) x.designName = true := by
  unfold Universe.nameFree
  rw [Bool.or_eq_true]
  refine Or.inr (Option.isNone_iff_eq_none.mpr ?_)
  by_contra present
  obtain ⟨e, found⟩ := Option.ne_none_iff_exists'.mp present
  obtain ⟨member, same⟩ := ((sound.index x.library).getByName_iff _ (designName_nonempty x) e).mp found
  exact sound.absent x accepted none e member same

end sound

/-! ### One call -/

theorem designID_fits (x : Request) (accepted : x.accepted = true) (fits : x.Fits) (id : Nat)
    (given : x.designID = some id) : id < designBound := by
  have bit (n : Nat) (small : n ≤ maxBit) : n < designBound := by
    unfold maxBit at small
    unfold designBound
    omega
  have one : 1 < designBound := bit 1 (by decide)
  cases x with
  | sequential family w =>
      have data := stated_le _ fits _ (List.mem_of_getElem? (sequential_data family w))
      rw [StatedPort.width, width_dataBits] at data
      cases given
      exact bit _ data
  | memory m => cases given
  | word signature =>
      cases signature with
      | assign | fa =>
          cases given
          exact one
      | nInputGate type n =>
          cases given
          exact bit _ (stated_le _ fits (busIn "" id) (by simp [Request.statedPorts]))
      | nOutputGate type n =>
          cases given
          exact bit _ (stated_le _ fits (busOut "" id) (by simp [Request.statedPorts]))
      | mux2 w | divMod w _ | addSub w _ | multiply w =>
          cases given
          exact bit _ (stated_le _ fits (busIn "A" id) (by simp [Request.statedPorts]))
      | _ => cases given

section create
variable {s : DB0} (sound : Sound s) (x : Request) (accepted : x.accepted = true) (fits : x.Fits) (room : Room s x)
  (none : x.find (s.designs x.library) = none)
include sound accepted fits room none

/-- The ID of the new design is free, and it is the given one where there is one. -/
theorem newID_spec : ∃ id, newID (s.designs x.library) designBound x.designID = some id ∧
    (∀ e ∈ (s.designs x.library).set, e.id ≠ id) ∧ ∀ given, x.designID = some given → id = given := by
  have linked := (sound.index x.library).linked
  cases given : x.designID with
  | none =>
      refine ⟨_, rfl, ?_, by simp⟩
      rcases room given with found | free
      · rw [none] at found
        contradiction
      · exact Universe.free_of_nextFree linked designBound free
  | some id =>
      have small := designID_fits x accepted fits id given
      have unused : ∀ e ∈ (s.designs x.library).set, e.id ≠ id := by
        intro e member hit
        obtain ⟨y, made, library⟩ := sound.made x.library e member
        cases given' : y.designID with
        | none =>
            have alike := (family_library y x made.accepted accepted library).2
            rw [given, given'] at alike
            contradiction
        | some id' =>
            have same : id' = id := (made.id id' given').symm.trans hit
            subst same
            have equal := designID_injective x y accepted made.accepted library.symm id' given given'
            subst equal
            exact sound.absent x accepted none e member made.name
      refine ⟨id, ?_, unused, by simp⟩
      change (if ((s.designs x.library).getByID (id % designBound)).isSome then Option.none else some (id % designBound)) = _
      rw [Nat.mod_eq_of_lt small, if_neg]
      intro found
      obtain ⟨e, there⟩ := Option.isSome_iff_exists.mp found
      obtain ⟨member, hit⟩ := (linked.getByID_iff id e).mp there
      exact unused e member hit

/-- A creation adds one design, made for the request, and keeps the rest. -/
theorem createDesign_spec : ∃ s' design, createDesign s x = some (s', design) ∧ MadeFor design x ∧ Sound s' ∧
    (∀ e, e ∈ (s'.designs x.library).set ↔ e = design ∨ e ∈ (s.designs x.library).set) ∧
    (∀ l, l ≠ x.library → s'.designs l = s.designs l) := by
  obtain ⟨id, isNew, unused, fixed⟩ := newID_spec sound x accepted fits room none
  have absent := sound.absent x accepted none
  have free := sound.nameFree x accepted none
  let design : Design := ⟨s.next, id, x.designName, x.data⟩
  let s' : DB0 := ⟨Function.update s.designs x.library ((s.designs x.library).add design), s.next + 1⟩
  have created : createDesign s x = some (s', design) := by
    unfold createDesign
    simp only [free, if_true, isNew]
    rfl
  have made : MadeFor design x := ⟨accepted, fits, rfl, rfl, fun given there => fixed given there⟩
  have here : s'.designs x.library = (s.designs x.library).add design := Function.update_self ..
  have others (l : Library) (other : l ≠ x.library) : s'.designs l = s.designs l := Function.update_of_ne other ..
  have members (e : Design) : e ∈ (s'.designs x.library).set ↔ e = design ∨ e ∈ (s.designs x.library).set := by
    rw [here]
    exact Index.mem_add design unused e
  have cases_ (l : Library) (e : Design) (member : e ∈ (s'.designs l).set) :
      (e = design ∧ l = x.library) ∨ e ∈ (s.designs l).set := by
    by_cases same : l = x.library
    · subst same
      rcases (members e).mp member with new | old
      · exact Or.inl ⟨new, rfl⟩
      · exact Or.inr old
    · rw [others l same] at member
      exact Or.inr member
  refine ⟨s', design, created, made, ⟨?_, ?_, ?_, ?_⟩, members, others⟩
  · intro l
    by_cases same : l = x.library
    · subst same
      rw [here]
      refine Index.sound_add (sound.index x.library) design unused ?_ (fun _ => absent)
      intro e member
      exact Nat.ne_of_lt (sound.below x.library e member)
    · rw [others l same]
      exact sound.index l
  · intro l e member
    rcases cases_ l e member with ⟨rfl, -⟩ | old
    · exact Nat.lt_succ_self _
    · exact Nat.lt_succ_of_lt (sound.below l e old)
  · intro l l' e member e' member' same
    rcases cases_ l e member with ⟨rfl, rfl⟩ | old
    · rcases cases_ l' e' member' with ⟨-, rfl⟩ | old'
      · rfl
      · exact absurd same.symm (Nat.ne_of_lt (sound.below l' e' old'))
    · rcases cases_ l' e' member' with ⟨rfl, rfl⟩ | old'
      · exact absurd same (Nat.ne_of_lt (sound.below l e old))
      · exact sound.apart l l' e old e' old' same
  · intro l e member
    rcases cases_ l e member with ⟨rfl, rfl⟩ | old
    · exact ⟨x, made, rfl⟩
    · exact sound.made l e old

end create

/-- Every design stays. -/
def Extends (s s' : DB0) : Prop := ∀ l, ∀ e ∈ (s.designs l).set, e ∈ (s'.designs l).set

theorem Present.extends {s s' : DB0} (present : Present s) (kept : Extends s s') : Present s' := by
  intro x member
  obtain ⟨e, there, same⟩ := present x member
  exact ⟨e, kept _ e there, same⟩

section call
variable (s : DB0) (sound : Sound s) (present : Present s) (x : Request)
include sound

/-- A design that is there is returned, and nothing changes. -/
theorem getOrCreate_found (accepted : x.accepted = true) (design : Design)
    (member : design ∈ (s.designs x.library).set) (same : design.name = x.designName) :
    getOrCreate s x = some (s, some design) := by
  unfold getOrCreate
  rw [if_pos accepted, (sound.find_iff x accepted design).mpr ⟨member, same⟩]

include present

/-- A design that is not there is created. -/
theorem getOrCreate_new (accepted : x.accepted = true) (none : x.find (s.designs x.library) = none) :
    getOrCreate s x = (createDesign s x).map (fun created =>
      (created.1, if x.foundAgain then x.find (created.1.designs x.library) else some created.2)) := by
  have notBuiltin : x.builtin = false := by
    by_contra builtin
    obtain ⟨e, member, same⟩ := present x (mem_builtins x (by simpa using builtin))
    exact sound.absent x accepted none e member same
  unfold getOrCreate
  rw [if_pos accepted, none]
  simp only [notBuiltin, Bool.false_eq_true, if_false]

theorem getOrCreate_returns (accepted : x.accepted = true) (fits : x.Fits) (room : Room s x) :
    ∃ s' design, getOrCreate s x = some (s', some design) ∧ MadeFor design x ∧
      design ∈ (s'.designs x.library).set ∧ Sound s' ∧ Extends s s' := by
  cases found : x.find (s.designs x.library) with
  | some design =>
      obtain ⟨member, same⟩ := (sound.find_iff x accepted design).mp found
      exact ⟨s, design, getOrCreate_found s sound x accepted design member same,
        sound.eq_of_name x accepted design member same, member, sound, fun _ _ old => old⟩
  | none =>
      obtain ⟨s', design, created, made, sound', members, others⟩ := createDesign_spec sound x accepted fits room found
      have member : design ∈ (s'.designs x.library).set := (members design).mpr (Or.inl rfl)
      have again : x.find (s'.designs x.library) = some design :=
        (sound'.find_iff x accepted design).mpr ⟨member, made.name⟩
      refine ⟨s', design, ?_, made, member, sound', ?_⟩
      · rw [getOrCreate_new s sound present x accepted found, created, Option.map_some, again, ite_self]
      · intro l e old
        by_cases same : l = x.library
        · subst same
          exact (members e).mpr (Or.inr old)
        · rw [others l same]
          exact old

/-- The creation of a gate whose number of pins is no ID finds the ID taken. -/
theorem getOrCreate_truncated (accepted : x.accepted = true) (truncated : Truncated s x) : getOrCreate s x = none := by
  obtain ⟨-, pins, given, large, taken⟩ := truncated
  have noID : newID (s.designs x.library) designBound x.designID = none := by
    rw [given]
    exact if_pos taken
  have absent : x.find (s.designs x.library) = none := by
    by_contra there
    obtain ⟨e, found⟩ := Option.ne_none_iff_exists'.mp there
    obtain ⟨member, same⟩ := (sound.find_iff x accepted e).mp found
    have made := sound.eq_of_name x accepted e member same
    exact absurd (designID_fits x accepted made.fits pins given) (Nat.not_lt.mpr large)
  rw [getOrCreate_new s sound present x accepted absent]
  unfold createDesign
  simp only [noID, Option.map_none, ite_self]

/-- What a call of a signature does in a state that meets the condition. -/
theorem getOrCreate_spec (meets : Meets s x) :
    getOrCreate s x = none ∨ ∃ s' design, getOrCreate s x = some (s', some design) ∧ MadeFor design x ∧
      design ∈ (s'.designs x.library).set ∧ Sound s' ∧ Extends s s' := by
  by_cases accepted : x.accepted = true
  · rcases meets with rejected | truncated | ⟨fits, room⟩
    · rw [accepted] at rejected
      contradiction
    · exact Or.inl (getOrCreate_truncated s sound present x accepted truncated)
    · exact Or.inr (getOrCreate_returns s sound present x accepted fits room)
  · exact Or.inl (if_neg accepted)

end call

/-! ### Runs of calls -/

theorem Call.run_eq (s : DB0) (c : Call) :
    c.run s = match c.request with
      | none => none
      | some none => some (s, none)
      | some (some x) => getOrCreate s x := by
  cases c <;> rfl

theorem run_spec (s : DB0) (sound : Sound s) (present : Present s) (c : Call)
    (meets : ∀ x, c.request = some (some x) → Meets s x) (s' : DB0) (design : Option Design)
    (called : c.run s = some (s', design)) : Sound s' ∧ Extends s s' := by
  rw [Call.run_eq] at called
  cases asked : c.request with
  | none =>
      rw [asked] at called
      contradiction
  | some request =>
      rw [asked] at called
      cases request with
      | none =>
          cases called
          exact ⟨sound, fun _ _ old => old⟩
      | some x =>
          simp only at called
          rcases getOrCreate_spec s sound present x (meets x asked) with thrown | ⟨s₁, d, returned, -, -, sound', kept⟩
          · rw [thrown] at called
            contradiction
          · rw [returned] at called
            cases called
            exact ⟨sound', kept⟩

theorem Later.spec {s : DB0} (sound : Sound s) (present : Present s) {s' : DB0} (later : Later s s') :
    Sound s' ∧ Present s' ∧ Extends s s' := by
  induction later with
  | here => exact ⟨sound, present, fun _ _ old => old⟩
  | call s' s'' c design before meets called ih =>
      obtain ⟨sound', present', kept⟩ := ih
      obtain ⟨sound'', more⟩ := run_spec s' sound' present' c meets s'' design called
      exact ⟨sound'', present'.extends more, fun l e old => more l e (kept l e old)⟩


/-! ### The first state -/

theorem sound_nothing : Sound ⟨fun _ => .empty, 0⟩ := by
  refine ⟨fun _ => Index.sound_empty, ?_, ?_, ?_⟩
  · intro l e member
    cases member
  · intro l l' e member
    cases member
  · intro l e member
    cases member

theorem find_empty (x : Request) : x.find .empty = none := by
  unfold Request.find
  split
  · rfl
  · cases x.designID <;> rfl

/-- Each of the libraries gets its one design. -/
theorem createAll_spec (xs : List Request) (s : DB0) (sound : Sound s)
    (fine : ∀ x ∈ xs, x.accepted = true ∧ x.Fits ∧ x.designID ≠ none) (libraries : (xs.map Request.library).Nodup)
    (new : ∀ x ∈ xs, s.designs x.library = .empty) :
    Sound (createAll s xs) ∧ Extends s (createAll s xs) ∧
      (∀ x ∈ xs, ∃ e ∈ ((createAll s xs).designs x.library).set, e.name = x.designName) ∧
      ∀ l, l ∉ xs.map Request.library → (createAll s xs).designs l = s.designs l := by
  induction xs generalizing s with
  | nil => exact ⟨sound, fun _ _ old => old, by simp, fun _ _ => rfl⟩
  | cons x xs ih =>
      rw [List.map_cons, List.nodup_cons] at libraries
      obtain ⟨accepted, fits, fixed⟩ := fine x List.mem_cons_self
      have absent : x.find (s.designs x.library) = none := by
        rw [new x List.mem_cons_self]
        exact find_empty x
      obtain ⟨s', design, created, made, sound', members, others⟩ :=
        createDesign_spec sound x accepted fits (fun given => absurd given fixed) absent
      have next : createAll s (x :: xs) = createAll s' xs := by
        unfold createAll
        rw [List.foldl_cons, created]
        rfl
      have other (y : Request) (member : y ∈ xs) : y.library ≠ x.library := by
        intro same
        exact libraries.1 (same ▸ List.mem_map_of_mem member)
      obtain ⟨soundAll, kept, present, rest⟩ := ih s' sound' (fun y member => fine y (List.mem_cons_of_mem _ member))
        libraries.2 (fun y member => (others _ (other y member)).trans (new y (List.mem_cons_of_mem _ member)))
      rw [next]
      refine ⟨soundAll, ?_, ?_, ?_⟩
      · intro l e old
        refine kept l e ?_
        by_cases same : l = x.library
        · subst same
          exact (members e).mpr (Or.inr old)
        · rw [others l same]
          exact old
      · intro y member
        rcases List.mem_cons.mp member with rfl | later
        · exact ⟨design, kept _ design ((members design).mpr (Or.inl rfl)), made.name⟩
        · exact present y later
      · intro l outside
        rw [List.map_cons, List.mem_cons, not_or] at outside
        exact (rest l outside.2).trans (others l outside.1)

theorem builtins_fine : ∀ x ∈ builtins, x.accepted = true ∧ x.Fits ∧ x.designID ≠ none := by
  have accepted : ∀ x ∈ builtins, x.accepted = true := by decide +kernel
  have fits : ∀ x ∈ builtins, x.Fits := by decide +kernel
  have fixed : ∀ x ∈ builtins, x.designID ≠ none := by decide +kernel
  intro x member
  exact ⟨accepted x member, fits x member, fixed x member⟩

theorem create_spec : Sound DB0.create ∧ Present DB0.create ∧
    ∀ l, l ∉ builtins.map Request.library → DB0.create.designs l = .empty := by
  obtain ⟨sound, -, present, rest⟩ :=
    createAll_spec builtins ⟨fun _ => .empty, 0⟩ sound_nothing builtins_fine (by decide) (fun _ _ => rfl)
  unfold Present DB0.create
  exact ⟨sound, present, rest⟩

theorem Reached.spec {s : DB0} (reached : Reached s) : Sound s ∧ Present s := by
  obtain ⟨sound, present, -⟩ := Later.spec create_spec.1 create_spec.2.1 reached
  exact ⟨sound, present⟩

/-- At first there is room. -/
theorem room_create (x : Request) : Room DB0.create x := by
  intro automatic
  right
  have outside : x.library ∉ builtins.map Request.library := by
    cases x with
    | sequential family w => contradiction
    | memory m =>
        change Library.Memory ∉ _
        decide
    | word signature => cases signature <;> first | contradiction | (simp only [Request.library]; decide)
  rw [create_spec.2.2 x.library outside]
  rfl

/-! ### Canonical designs -/

/-- The first check has passed. -/
theorem check_passed {p : Prop} [Decidable p] {error : String} {rest : Except String Unit}
    (ok : (if p then .error error else rest : Except String Unit).isOk = true) : ¬p := by
  intro failed
  rw [if_pos failed] at ok
  contradiction

theorem positive_widths (x : Request) (accepted : x.accepted = true) : ∀ port ∈ x.statedPorts, 0 < port.width := by
  cases x with
  | sequential family w =>
      have positive : 0 < w := by
        simp only [Request.accepted, Bool.and_eq_true, bne_iff_ne] at accepted
        exact Nat.pos_of_ne_zero accepted.1
      have data : 0 < (Request.dataBits w).getD 1 := by
        rw [width_dataBits]
        exact positive
      cases family <;>
        simp [Request.statedPorts, Request.sequentialPorts, Sequential.enable, Sequential.control, StatedPort.width,
          scalarIn, data]
  | memory m =>
      obtain ⟨w, d, a, r, p, mode, clocks, sized⟩ := m
      simp only [Request.accepted, Request.memoryCheck, Bool.not_eq_true', Bool.or_eq_false_iff, beq_eq_false_iff_ne] at accepted
      obtain ⟨⟨⟨⟨⟨width, depth⟩, address⟩, reads⟩, readOnly⟩, -⟩ := accepted
      have bits : 0 < w := Nat.pos_of_ne_zero width
      have addressBits : 0 < a := Nat.pos_of_ne_zero address
      have readPorts : 0 < r := Nat.pos_of_ne_zero reads
      rcases Nat.eq_zero_or_pos p with rfl | writePorts
      · have single : clocks = false := by
          simp only [beq_self_eq_true, Bool.true_and, Bool.or_eq_false_iff] at readOnly
          exact readOnly.2
        subst single
        simp [Request.statedPorts, Request.memoryPorts, StatedPort.width, busIn, busOut, bits, addressBits, readPorts]
      · have some_ : p ≠ 0 := Nat.ne_of_gt writePorts
        cases clocks <;>
          simp [Request.statedPorts, Request.memoryPorts, StatedPort.width, busIn, busOut, scalarIn, some_, bits,
            addressBits, readPorts, writePorts]
  | word signature =>
      cases signature with
      | assign | fa => decide
      | nInputGate type n =>
          have positive := gate_positive type n (Or.inl accepted)
          simp [Request.statedPorts, StatedPort.width, busIn, scalarOut, positive]
      | nOutputGate type n =>
          have positive := gate_positive type n (Or.inr accepted)
          simp [Request.statedPorts, StatedPort.width, busOut, scalarIn, positive]
      | _ =>
          simp only [Request.accepted, NLDB0.checkSignature] at accepted
          have passed := check_passed accepted
          simp only [Request.statedPorts, List.forall_mem_cons, List.not_mem_nil, false_implies, implies_true, and_true,
            StatedPort.width, busIn, busOut, scalarIn, Option.getD_some, Option.getD_none,
            CanonicallyOrderedAdd.mul_pos]
          omega

theorem widths_iff (x : Request) (accepted : x.accepted = true) :
    x.ports.map Port.getWidth = x.statedWidths.map some ↔ x.Fits := by
  unfold Request.ports Request.statedWidths Request.Fits
  rw [List.map_map, List.map_map, List.map_inj_left]
  change _ ↔ ∀ width ∈ x.statedPorts.map StatedPort.width, width ≤ maxBit
  rw [List.forall_mem_map]
  constructor
  · intro stated port member
    exact (getWidth_create port (positive_widths x accepted port member)).mp (stated port member)
  · intro fits port member
    exact (getWidth_create port (positive_widths x accepted port member)).mpr (fits port member)

section canonical
variable {s : DB0} (sound : Sound s) (present : Present s) (x : Request)
include sound present

theorem canonical_of_meets (meets : Meets s x) : Canonical s x := by
  rcases getOrCreate_spec s sound present x meets with thrown | ⟨s', design, returned, made, member, sound', kept⟩
  · exact Or.inl thrown
  have present' := present.extends kept
  have asked := primitiveRequest_made design x made
  refine Or.inr ⟨s', design, returned, ?_, ?_, ?_, readSignature_made design x made, ?_, ?_⟩
  · rw [made.data]
    exact (widths_iff x made.accepted).mpr made.fits
  · intro s'' later
    obtain ⟨sound'', present'', more⟩ := later.spec sound' present'
    exact getOrCreate_found s'' sound'' x made.accepted design (more _ design member) made.name
  · intro s'' later y different meetsY s₃ other returnedY sameObject
    obtain ⟨sound'', present'', more⟩ := later.spec sound' present'
    rcases getOrCreate_spec s'' sound'' present'' y meetsY with thrown | ⟨s₄, d, returned', madeY, memberY, sound₃, kept₃⟩
    · rw [thrown] at returnedY
      contradiction
    · rw [returnedY] at returned'
      cases returned'
      have old := kept₃ _ design (more _ design member)
      have library := sound₃.apart y.library x.library other memberY design old sameObject
      rw [library] at memberY
      have equal := (sound₃.index x.library).eq_of_object other design memberY old sameObject
      subst equal
      exact different (designName_injective y x madeY.accepted made.accepted library (madeY.name.symm.trans made.name))
  · unfold getOrCreatePrimitive
    rw [asked]
    exact getOrCreate_found s' sound' x made.accepted design member made.name
  · obtain ⟨soundC, presentC, -⟩ := create_spec
    obtain ⟨s₀, copy, returnedC, madeC, -⟩ :=
      getOrCreate_returns DB0.create soundC presentC x made.accepted made.fits (room_create x)
    refine ⟨s₀, copy, ?_, madeC.name.trans made.name.symm, madeC.data.trans made.data.symm, ?_⟩
    · unfold getOrCreatePrimitive
      rw [asked]
      exact returnedC
    · intro id given
      exact (madeC.id id given).trans (made.id id given).symm

end canonical

/-! ### The condition is exact -/

/-- Nothing is inserted under an ID that is taken. -/
theorem insertEntry_taken {α : Type} (entry : Entry α) (entries : List (Entry α))
    (sorted : entries.Pairwise (fun e e' => e.id < e'.id)) (taken : ∃ e ∈ entries, e.id = entry.id) :
    insertEntry entry entries = entries := by
  induction entries with
  | nil =>
      obtain ⟨e, member, -⟩ := taken
      cases member
  | cons head rest ih =>
      rw [List.pairwise_cons] at sorted
      obtain ⟨e, member, same⟩ := taken
      unfold insertEntry
      rcases List.mem_cons.mp member with rfl | later
      · rw [if_neg (by omega), if_pos same.symm]
      · have less := sorted.1 e later
        rw [if_neg (by omega), if_neg (by omega), ih sorted.2 ⟨e, later, same⟩]

/-- A width that is looked for as an ID is one. -/
theorem designID_small (x : Request) (accepted : x.accepted = true) (byID : x.byName = false) (id : Nat)
    (given : x.designID = some id) : id < designBound := by
  have bound (n : Nat) (small : n ≤ maxDesignID) : n < designBound := by
    unfold maxDesignID at small
    unfold designBound
    omega
  have one : 1 < designBound := bound 1 (by decide)
  cases x with
  | sequential family w =>
      simp only [Request.accepted, Bool.and_eq_true, decide_eq_true_eq] at accepted
      cases given
      exact bound _ accepted.2
  | memory m => cases given
  | word signature =>
      cases signature with
      | assign | fa =>
          cases given
          exact one
      | mux2 w | divMod w _ =>
          cases given
          refine bound _ ?_
          by_contra large
          have positive := check_passed accepted
          simp only [Request.accepted, NLDB0.checkSignature, if_neg positive] at accepted
          exact absurd (Nat.lt_of_not_le large) (check_passed accepted)
      | addSub w _ | multiply w =>
          cases given
          have passed := check_passed accepted
          exact bound _ (by omega)
      | nInputGate _ _ | nOutputGate _ _ => cases byID
      | _ => cases given

section exact
variable {s : DB0} (sound : Sound s) (x : Request) (accepted : x.accepted = true)
  (none : x.find (s.designs x.library) = none)
include sound accepted none

/-- An ID that is given and taken is no ID of 32 bits. -/
theorem truncated_of_taken (id : Nat) (given : x.designID = some id)
    (taken : ((s.designs x.library).getByID (id % designBound)).isSome = true) : Truncated s x := by
  have large : designBound ≤ id := by
    by_contra small
    rw [Nat.mod_eq_of_lt (by omega)] at taken
    obtain ⟨e, found⟩ := Option.isSome_iff_exists.mp taken
    obtain ⟨member, hit⟩ := ((sound.index x.library).getByID_iff id e).mp found
    obtain ⟨y, made, library⟩ := sound.made x.library e member
    have alike := (family_library y x made.accepted accepted library).2
    rw [given] at alike
    obtain ⟨id', given'⟩ := Option.isSome_iff_exists.mp alike
    have same : id' = id := (made.id id' given').symm.trans hit
    subst same
    have equal := designID_injective x y accepted made.accepted library.symm id' given given'
    subst equal
    exact sound.absent x accepted none e member made.name
  refine ⟨?_, id, given, large, taken⟩
  by_contra byID
  exact absurd (designID_small x accepted (by simpa using byID) id given) (by omega)

/-- With a free ID the design that is created is found, whatever its ports. -/
theorem created_found (id : Nat) (isNew : newID (s.designs x.library) designBound x.designID = some id)
    (unused : ∀ e ∈ (s.designs x.library).set, e.id ≠ id) (small : ∀ given, x.designID = some given → x.byName = false → id = given) :
    ∃ s' design, createDesign s x = some (s', design) ∧ design.data = x.data ∧
      x.find (s'.designs x.library) = some design := by
  let design : Design := ⟨s.next, id, x.designName, x.data⟩
  let s' : DB0 := ⟨Function.update s.designs x.library ((s.designs x.library).add design), s.next + 1⟩
  have here : s'.designs x.library = (s.designs x.library).add design := Function.update_self ..
  have index : ((s.designs x.library).add design).Sound := by
    refine Index.sound_add (sound.index x.library) design unused ?_ (fun _ => sound.absent x accepted none)
    intro e member
    exact Nat.ne_of_lt (sound.below x.library e member)
  have member : design ∈ ((s.designs x.library).add design).set := (Index.mem_add design unused design).mpr (Or.inl rfl)
  refine ⟨s', design, ?_, rfl, ?_⟩
  · unfold createDesign
    simp only [sound.nameFree x accepted none, if_true, isNew]
    rfl
  · rw [here]
    unfold Request.find
    by_cases named : x.byName = true
    · rw [if_pos named]
      exact (index.getByName_iff _ (designName_nonempty x) design).mpr ⟨member, rfl⟩
    · rw [if_neg named]
      obtain ⟨given, fixed⟩ := designID_of_byID x (by simpa using named)
      rw [fixed, Option.bind_some]
      exact (index.getByID_iff given design).mpr ⟨member, small given fixed (by simpa using named)⟩

/-- Without a free ID another design is found under the new name. -/
theorem created_lost (automatic : x.designID = Option.none)
    (full : nextFree (s.designs x.library) designBound = false) :
    ∃ s' design other, createDesign s x = some (s', design) ∧ other ∈ (s.designs x.library).set ∧
      x.find (s'.designs x.library) = some other := by
  have linked := (sound.index x.library).linked
  let id := (s.designs x.library).nextID designBound
  let design : Design := ⟨s.next, id, x.designName, x.data⟩
  let s' : DB0 := ⟨Function.update s.designs x.library ((s.designs x.library).add design), s.next + 1⟩
  have here : s'.designs x.library = (s.designs x.library).add design := Function.update_self ..
  have taken : ∃ other, (s.designs x.library).getByID id = some other := by
    refine Option.isSome_iff_exists.mp ?_
    unfold Universe.nextFree at full
    rwa [Option.isNone_eq_false_iff] at full
  obtain ⟨other, found⟩ := taken
  obtain ⟨member, hit⟩ := (linked.getByID_iff id other).mp found
  refine ⟨s', design, other, ?_, member, ?_⟩
  · unfold createDesign
    simp only [sound.nameFree x accepted none, if_true, automatic]
    rfl
  · have named : x.byName = true := by
      by_contra byID
      obtain ⟨given, fixed⟩ := designID_of_byID x (by simpa using byID)
      rw [automatic] at fixed
      contradiction
    have sameSet : ((s.designs x.library).add design).set = (s.designs x.library).set :=
      insertEntry_taken design _ linked.sorted ⟨other, member, hit⟩
    have names : ((s.designs x.library).add design).names.lookup x.designName = some id := by
      rw [Index.names_add]
      change (if x.designName.isEmpty then _ else Index.setName x.designName id _).lookup x.designName = some id
      rw [if_neg (by simpa using designName_nonempty x)]
      exact List.lookup_cons_self
    rw [here]
    unfold Request.find
    rw [if_pos named]
    unfold Index.getByName
    rw [names, Option.bind_some]
    unfold Index.getByID
    rw [sameSet]
    exact found

end exact

theorem meets_of_canonical (s : DB0) (sound : Sound s) (present : Present s) (x : Request) (canonical : Canonical s x) :
    Meets s x := by
  by_cases accepted : x.accepted = true
  swap
  · exact Or.inl (by simpa using accepted)
  cases found : x.find (s.designs x.library) with
  | some design =>
      obtain ⟨member, same⟩ := (sound.find_iff x accepted design).mp found
      refine Or.inr (Or.inr ⟨(sound.eq_of_name x accepted design member same).fits, ?_⟩)
      intro _
      rw [found]
      exact Or.inl rfl
  | none =>
      have new := getOrCreate_new s sound present x accepted found
      by_cases lost : x.designID = none ∧ nextFree (s.designs x.library) designBound = false
      · -- what is found is the design of another signature
        obtain ⟨automatic, full⟩ := lost
        obtain ⟨s', design, other, created, member, finds⟩ := created_lost sound x accepted found automatic full
        rw [created, Option.map_some] at new
        rcases canonical with thrown | ⟨s₁, d, own⟩
        · rw [thrown] at new
          contradiction
        · have state : s₁ = s' := by
            have both := own.returned.symm.trans new
            exact congrArg Prod.fst (Option.some.inj both)
          subst state
          have again := own.again s₁ Later.here
          unfold getOrCreate at again
          rw [if_pos accepted, finds] at again
          have same : other = d := Option.some.inj (congrArg Prod.snd (Option.some.inj again))
          obtain ⟨y, made, library⟩ := sound.made x.library other member
          have read := own.read
          rw [← same, ← library, readSignature_made other y made] at read
          cases read
          exact absurd made.name (sound.absent x accepted found other member)
      · have creation : Truncated s x ∨ ∃ id, newID (s.designs x.library) designBound x.designID = some id ∧
            (∀ e ∈ (s.designs x.library).set, e.id ≠ id) ∧
            ∀ given, x.designID = some given → x.byName = false → id = given := by
          cases given : x.designID with
          | none =>
              have free : nextFree (s.designs x.library) designBound = true := by
                by_contra full
                exact lost ⟨given, by simpa using full⟩
              exact Or.inr ⟨_, rfl, Universe.free_of_nextFree (sound.index x.library).linked designBound free, by simp⟩
          | some id =>
              by_cases taken : ((s.designs x.library).getByID (id % designBound)).isSome = true
              · exact Or.inl (truncated_of_taken sound x accepted found id given taken)
              · refine Or.inr ⟨id % designBound, if_neg taken, ?_, ?_⟩
                · exact (sound.index x.library).linked.free_id _ (by simpa using taken)
                · intro given' same byID
                  cases same
                  exact Nat.mod_eq_of_lt (designID_small x accepted byID id given)
        rcases creation with truncated | ⟨id, isNew, unused, small⟩
        · exact Or.inr (Or.inl truncated)
        · obtain ⟨s', design, created, data, finds⟩ := created_found sound x accepted found id isNew unused small
          rw [created, Option.map_some, finds, ite_self] at new
          rcases canonical with thrown | ⟨s₁, d, own⟩
          · rw [thrown] at new
            contradiction
          · have both := own.returned.symm.trans new
            have same : d = design := Option.some.inj (congrArg Prod.snd (Option.some.inj both))
            have widths := own.widths
            rw [same, data] at widths
            refine Or.inr (Or.inr ⟨(widths_iff x accepted).mp widths, ?_⟩)
            intro automatic
            refine Or.inr ?_
            by_contra full
            exact lost ⟨automatic, by simpa using full⟩

/-- In every state that is reached, a call keeps its promise exactly when it meets the condition. -/
theorem canonical_iff (s : DB0) (reached : Reached s) (x : Request) : Canonical s x ↔ Meets s x := by
  obtain ⟨sound, present⟩ := reached.spec
  constructor
  · exact meets_of_canonical s sound present x
  · exact canonical_of_meets sound present x

theorem mux2_canonical : Canonical DB0.create (.word (.mux2 4)) :=
  (canonical_iff DB0.create Later.here (.word (.mux2 4))).mpr
    (Or.inr (Or.inr ⟨by decide +kernel, room_create _⟩))

/-- The ports of a divider of 2 ^ 32 - 1 bits have three bits. -/
theorem wide_divMod_not_canonical :
    ¬∀ s, Reached s → ∀ x, Canonical s x := by
  intro all
  have meets := meets_of_canonical DB0.create create_spec.1 create_spec.2.1 (.word (.divMod 4294967295 false))
    (all DB0.create Later.here _)
  rcases meets with rejected | truncated | ⟨fits, -⟩
  · exact absurd rejected (by decide +kernel)
  · exact absurd truncated.1 (by decide)
  · exact absurd fits (by decide +kernel)

end Naja.Primitives.DB0
