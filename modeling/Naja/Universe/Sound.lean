import Naja.Universe.Operations

/-! In every state that is reached, the objects of an owner are linked under their own
IDs, and their addresses are below the next one. -/

namespace Naja.Universe
open Naja.Registry
open Naja.Primitives (Direction)
open Netlist (Address DesignType)

/-! ### One index -/

structure LinkedBelow {α : Type} (bound : Nat) (r : Index α) : Prop where
  linked : r.Linked
  below : ∀ e ∈ r.set, e.object < bound

section index
variable {α : Type} {bound : Nat} {r : Index α}

theorem linkedBelow_empty : LinkedBelow bound (Index.empty : Index α) := ⟨Index.linked_empty, nofun⟩

theorem LinkedBelow.mono (old : LinkedBelow bound r) (bound' : Nat) (more : bound ≤ bound') : LinkedBelow bound' r :=
  ⟨old.linked, fun e member => Nat.lt_of_lt_of_le (old.below e member) more⟩

theorem LinkedBelow.add (old : LinkedBelow bound r) (bound' : Nat) (e : Entry α) (free : ∀ x ∈ r.set, x.id ≠ e.id)
    (fresh : e.object = bound) (more : bound < bound') : LinkedBelow bound' (r.add e) := by
  refine ⟨Index.linked_add e free old.linked (fun x member => ?_), fun x member => ?_⟩
  · have less := old.below x member
    omega
  · rcases (Index.mem_add e free x).mp member with rfl | before
    · omega
    · have less := old.below x before
      omega

theorem LinkedBelow.remove (old : LinkedBelow bound r) (e : Entry α) (member : e ∈ r.set) : LinkedBelow bound (r.remove e) :=
  ⟨Index.linked_remove e member old.linked, fun x left => old.below x ((Index.Linked.mem_remove e member old.linked x).mp left).1⟩

theorem LinkedBelow.removeList (old : LinkedBelow bound r) (gone : List (Entry α)) (distinct : gone.Nodup)
    (members : ∀ e ∈ gone, e ∈ r.set) : LinkedBelow bound (gone.foldl Index.remove r) := by
  induction gone generalizing r with
  | nil => exact old
  | cons e gone ih =>
      obtain ⟨notLater, distinct⟩ := List.nodup_cons.mp distinct
      have member := members e List.mem_cons_self
      refine ih (old.remove e member) distinct (fun x inGone => ?_)
      refine (Index.Linked.mem_remove e member old.linked x).mpr ⟨members x (List.mem_cons_of_mem _ inGone), ?_⟩
      rintro rfl
      exact notLater inGone

theorem LinkedBelow.removeAll (old : LinkedBelow bound r) (p : Entry α → Bool) : LinkedBelow bound (removeAll r p) :=
  old.removeList _ ((List.Nodup.of_map _ old.linked.objects).filter p) (fun _ member => List.mem_of_mem_filter member)

theorem LinkedBelow.modify (old : LinkedBelow bound r) (object : Address) (f : α → α) :
    LinkedBelow bound (r.modify object f) := by
  have id (e : Entry α) : (if e.object = object then { e with data := f e.data } else e).id = e.id := by split <;> rfl
  have address (e : Entry α) : (if e.object = object then { e with data := f e.data } else e).object = e.object := by
    split <;> rfl
  refine ⟨⟨?_, ?_, ?_⟩, fun x member => ?_⟩
  · change r.loose.map _ = []
    rw [old.linked.loose, List.map_nil]
  · refine List.pairwise_map.mpr (old.linked.sorted.imp ?_)
    intro e e' less
    rw [id, id]
    exact less
  · change ((r.set.map _).map Entry.object).Nodup
    rw [List.map_map, show Entry.object ∘ _ = Entry.object from funext address]
    exact old.linked.objects
  · obtain ⟨e, before, rfl⟩ := List.mem_map.mp member
    rw [address]
    exact old.below e before

theorem LinkedBelow.copy (old : LinkedBelow bound r) (f : α → α) (bound' : Nat) (more : 2 * bound + 1 ≤ bound') :
    LinkedBelow bound' (r.copy (NLUniverse.copyEntry bound f)) := by
  refine ⟨⟨rfl, List.pairwise_map.mpr old.linked.sorted, ?_⟩, fun x member => ?_⟩
  · have objects : (r.copy (NLUniverse.copyEntry bound f)).set.map Entry.object =
        (r.set.map Entry.object).map (fun object => bound + 1 + object) := by
      rw [Index.copy, List.map_map, List.map_map]
      rfl
    rw [objects]
    exact old.linked.objects.map (fun a b same => Nat.add_left_cancel same)
  · obtain ⟨e, before, rfl⟩ := List.mem_map.mp member
    have less := old.below e before
    change bound + 1 + e.object < bound'
    omega

theorem free_of_nextFree (linked : r.Linked) (limit : Nat) (free : nextFree r limit = true) :
    ∀ e ∈ r.set, e.id ≠ r.nextID limit := linked.free_id _ (Option.isNone_iff_eq_none.mp free)

/-- The ID of a creation is free. -/
theorem newID_free (linked : r.Linked) (limit : Nat) (id : Option Nat) (id' : Nat) (isNew : newID r limit id = some id')
    (finds : id = none → nextFree r limit = true) : ∀ e ∈ r.set, e.id ≠ id' := by
  cases id with
  | none =>
      cases isNew
      exact free_of_nextFree linked limit (finds rfl)
  | some id =>
      rw [newID] at isNew
      by_cases used : (r.getByID (id % limit)).isSome = true
      · rw [if_pos used] at isNew
        cases isNew
      · rw [if_neg used] at isNew
        cases isNew
        exact linked.free_id _ (by simpa using used)

theorem created (allowed : Bool) (limit : Nat) (id : Option Nat) (make : Nat → NLUniverse) (u' : NLUniverse)
    (stepped : (if allowed then (newID r limit id).map make else none) = some u') :
    ∃ id', newID r limit id = some id' ∧ make id' = u' := by
  split at stepped
  · exact Option.map_eq_some_iff.mp stepped
  · cases stepped

end index

theorem forall_modifyAt {α : Type} (index : Address → Index α) (owner : Address) (f : Index α → Index α)
    (holds : Index α → Prop) (old : ∀ a, holds (index a)) (new : holds (f (index owner))) :
    ∀ a, holds (modifyAt index owner f a) := by
  intro a
  unfold modifyAt
  rcases eq_or_ne a owner with rfl | other
  · rw [Function.update_self]
    exact new
  · rw [Function.update_of_ne other]
    exact old a

theorem forall_update {α : Type} (index : Address → Index α) (owner : Address) (r : Index α) (holds : Index α → Prop)
    (old : ∀ a, holds (index a)) (new : holds r) : ∀ a, holds (Function.update index owner r a) :=
  forall_modifyAt index owner (fun _ => r) holds old new

/-! ### The universe -/

structure Sound (u : NLUniverse) : Prop where
  dbs : LinkedBelow u.next u.dbs
  libraries : ∀ a, LinkedBelow u.next (u.libraries a)
  designs : ∀ a, LinkedBelow u.next (u.designs a)
  pnlDesigns : ∀ a, LinkedBelow u.next (u.pnlDesigns a)
  terms : ∀ a, LinkedBelow u.next (u.terms a)
  nets : ∀ a, LinkedBelow u.next (u.nets a)
  instances : ∀ a, LinkedBelow u.next (u.instances a)

theorem sound_empty : Sound .empty :=
  ⟨linkedBelow_empty, fun _ => linkedBelow_empty, fun _ => linkedBelow_empty, fun _ => linkedBelow_empty,
    fun _ => linkedBelow_empty, fun _ => linkedBelow_empty, fun _ => linkedBelow_empty⟩

section step
variable {u u' : NLUniverse}

section sound
variable (sound : Sound u)
include sound

theorem Sound.mono (next : Nat) (more : u.next ≤ next) : Sound { u with next := next } :=
  ⟨sound.dbs.mono next more, fun a => (sound.libraries a).mono next more, fun a => (sound.designs a).mono next more,
    fun a => (sound.pnlDesigns a).mono next more, fun a => (sound.terms a).mono next more,
    fun a => (sound.nets a).mono next more, fun a => (sound.instances a).mono next more⟩

theorem Sound.dropInstances (models : Address → Bool) : Sound (u.dropInstances models) :=
  ⟨sound.dbs, sound.libraries, sound.designs, sound.pnlDesigns, sound.terms, sound.nets,
    fun a => (sound.instances a).removeAll _⟩

end sound

/-- A creation adds an object at the next address to one index, under an ID that is free there. -/
theorem added {α : Type} (index : Address → Index α) (old : ∀ a, LinkedBelow u.next (index a)) (owner : Address)
    (limit : Nat) (id : Option Nat) (id' : Nat) (isNew : newID (index owner) limit id = some id')
    (finds : id = none → nextFree (index owner) limit = true) (name : String) (data : α) :
    ∀ a, LinkedBelow (u.next + 1) (modifyAt index owner (fun r => r.add ⟨u.next, id', name, data⟩) a) := by
  have free := newID_free (old owner).linked limit id id' isNew finds
  exact forall_modifyAt index owner _ _ (fun a => (old a).mono _ (Nat.le_succ _))
    ((old owner).add _ _ free rfl (Nat.lt_succ_self _))

/-! ### Steps -/

theorem sound_createDB (sound : Sound u) (id : Option Nat) (finds : u.FindsID (.createDB id))
    (stepped : u.createDB id = some u') : Sound u' := by
  obtain ⟨id', isNew, rfl⟩ := Option.map_eq_some_iff.mp stepped
  have free := newID_free sound.dbs.linked dbBound id id' isNew (by rintro rfl; exact finds)
  exact { sound.mono (u.next + 1) (Nat.le_succ _) with
    dbs := sound.dbs.add _ _ free rfl (Nat.lt_succ_self _) }

theorem sound_createLibrary (sound : Sound u) (db : Address) (id : Option Nat) (type : LibraryType) (name : String)
    (finds : u.FindsID (.createLibrary db id type name)) (stepped : u.createLibrary db id type name = some u') :
    Sound u' := by
  obtain ⟨id', isNew, rfl⟩ := created _ _ _ _ _ stepped
  exact { sound.mono (u.next + 1) (Nat.le_succ _) with
    libraries := added u.libraries sound.libraries db _ id id' isNew (by rintro rfl; exact finds) _ _ }

theorem sound_createNestedLibrary (sound : Sound u) (parent : LibraryRef) (id : Option Nat) (type : LibraryType)
    (name : String) (finds : u.FindsID (.createNestedLibrary parent id type name))
    (stepped : u.createNestedLibrary parent id type name = some u') : Sound u' := by
  obtain ⟨id', isNew, rfl⟩ := created _ _ _ _ _ stepped
  exact { sound.mono (u.next + 1) (Nat.le_succ _) with
    libraries := added u.libraries sound.libraries parent.db _ id id' isNew (by rintro rfl; exact finds) _ _ }

theorem sound_createDesign (sound : Sound u) (l : LibraryRef) (id : Option Nat) (type : DesignType) (name : String)
    (finds : u.FindsID (.createDesign l id type name)) (stepped : u.createDesign l id type name = some u') : Sound u' := by
  obtain ⟨id', isNew, rfl⟩ := created _ _ _ _ _ stepped
  exact { sound.mono (u.next + 1) (Nat.le_succ _) with
    designs := added u.designs sound.designs l.library _ id id' isNew (by rintro rfl; exact finds) _ _ }

theorem sound_createPNLDesign (sound : Sound u) (l : LibraryRef) (id : Option Nat) (primitive : Bool) (name : String)
    (finds : u.FindsID (.createPNLDesign l id primitive name))
    (stepped : u.createPNLDesign l id primitive name = some u') : Sound u' := by
  obtain ⟨id', -, rfl⟩ := created _ _ _ _ _ stepped
  exact { sound.mono (u.next + 1) (Nat.le_succ _) with
    pnlDesigns := added u.pnlDesigns sound.pnlDesigns l.library designBound none _ rfl (fun _ => finds) _ _ }

theorem sound_createTerm (sound : Sound u) (d : DesignRef) (id : Option Nat) (name : String) (direction : Direction)
    (spec : TermSpec) (bundle : Option Address) (finds : u.FindsID (.createTerm d id name direction spec bundle))
    (stepped : u.createTerm d id name direction spec bundle = some u') : Sound u' := by
  obtain ⟨id', isNew, rfl⟩ := created _ _ _ _ _ stepped
  exact { sound.mono (u.next + 1) (Nat.le_succ _) with
    terms := added u.terms sound.terms d.design _ id id' isNew (by rintro rfl; exact finds) _ _ }

theorem sound_createNet (sound : Sound u) (d : DesignRef) (id : Option Nat) (name : String) (range : Option (Int × Int))
    (finds : u.FindsID (.createNet d id name range)) (stepped : u.createNet d id name range = some u') : Sound u' := by
  obtain ⟨id', isNew, rfl⟩ := created _ _ _ _ _ stepped
  exact { sound.mono (u.next + 1) (Nat.le_succ _) with
    nets := added u.nets sound.nets d.design _ id id' isNew (by rintro rfl; exact finds) _ _ }

theorem sound_createInstance (sound : Sound u) (d model : DesignRef) (id : Option Nat) (name : String)
    (finds : u.FindsID (.createInstance d model id name)) (stepped : u.createInstance d model id name = some u') :
    Sound u' := by
  obtain ⟨id', isNew, rfl⟩ := created _ _ _ _ _ stepped
  exact { sound.mono (u.next + 1) (Nat.le_succ _) with
    instances := added u.instances sound.instances d.design _ id id' isNew (by rintro rfl; exact finds) _ _ }

theorem sound_cloneToLibrary (sound : Sound u) (d : DesignRef) (l : LibraryRef) (name : String) (whole : Bool)
    (finds : u.FindsID (.cloneToLibrary d l name whole)) (stepped : u.cloneToLibrary d l name whole = some u') :
    Sound u' := by
  unfold NLUniverse.cloneToLibrary at stepped
  split at stepped
  · have more : ∀ n : Nat, n ≤ 2 * n + 1 := fun n => by omega
    have older := sound.mono (2 * u.next + 1) (more u.next)
    cases stepped
    refine ⟨older.dbs, older.libraries, ?_, older.pnlDesigns, ?_, ?_, ?_⟩
    · have free := free_of_nextFree (sound.designs l.library).linked designBound finds
      have below : ∀ n : Nat, n < 2 * n + 1 := fun n => by omega
      exact forall_modifyAt u.designs l.library (fun r => r.add ⟨u.next, r.nextID designBound, name, .Standard⟩)
        (LinkedBelow (2 * u.next + 1)) older.designs ((sound.designs l.library).add _ _ free rfl (below u.next))
    · exact forall_update u.terms u.next _ _ older.terms ((sound.terms d.design).copy _ _ (Nat.le_refl _))
    · cases whole with
      | false => exact older.nets
      | true => exact forall_update u.nets u.next _ _ older.nets ((sound.nets d.design).copy _ _ (Nat.le_refl _))
    · cases whole with
      | false => exact older.instances
      | true =>
          exact forall_update u.instances u.next _ _ older.instances
            ((sound.instances d.design).copy _ _ (Nat.le_refl _))
  · cases stepped

theorem owned_member {α : Type} (index : Address → Index α) (linked : ∀ a, LinkedBelow u.next (index a)) (d : DesignRef)
    (object : Address) (found : DesignReference × Entry α) (isOwned : u.owned index d object = some found) :
    found.2 ∈ (index d.design).set := by
  obtain ⟨r, -, found⟩ := Option.bind_eq_some_iff.mp isOwned
  obtain ⟨e, isEntry, rfl⟩ := Option.map_eq_some_iff.mp found
  exact (((linked d.design).linked.entry_iff object e).mp isEntry).1

theorem sound_destroyDB (sound : Sound u) (db : Address) (stepped : u.destroyDB db = some u') : Sound u' := by
  obtain ⟨e, isEntry, rfl⟩ := Option.map_eq_some_iff.mp stepped
  have member := ((sound.dbs.linked.entry_iff db e).mp isEntry).1
  exact { sound.dropInstances (u.goneWithDB db) with dbs := sound.dbs.remove e member }

theorem sound_destroyLibrary (sound : Sound u) (l : LibraryRef) (stepped : u.destroyLibrary l = some u') : Sound u' := by
  obtain ⟨e, -, rfl⟩ := Option.map_eq_some_iff.mp stepped
  exact { sound.dropInstances (u.goneWithLibrary l) with
    libraries := forall_modifyAt u.libraries l.db (fun r => removeAll r (fun e => u.isInside l e.object)) _
      sound.libraries ((sound.libraries l.db).removeAll _) }

theorem sound_destroyDesign (sound : Sound u) (d : DesignRef) (stepped : u.destroyDesign d = some u') : Sound u' := by
  obtain ⟨e, isEntry, rfl⟩ := Option.map_eq_some_iff.mp stepped
  obtain ⟨-, -, isEntry⟩ := Option.bind_eq_some_iff.mp isEntry
  have member := (((sound.designs d.owner.library).linked.entry_iff d.design e).mp isEntry).1
  exact { sound.dropInstances (u.goneWithDesign d) with
    designs := forall_modifyAt u.designs d.owner.library (fun r => r.remove e) _ sound.designs
      ((sound.designs d.owner.library).remove e member) }

theorem sound_destroyPNLDesign (sound : Sound u) (d : DesignRef) (stepped : u.destroyPNLDesign d = some u') : Sound u' := by
  obtain ⟨-, -, stepped⟩ := Option.bind_eq_some_iff.mp stepped
  obtain ⟨e, isEntry, rfl⟩ := Option.map_eq_some_iff.mp stepped
  have member := (((sound.pnlDesigns d.owner.library).linked.entry_iff d.design e).mp isEntry).1
  exact { sound with
    pnlDesigns := forall_modifyAt u.pnlDesigns d.owner.library (fun r => r.remove e) _ sound.pnlDesigns
      ((sound.pnlDesigns d.owner.library).remove e member) }

theorem sound_destroyTerm (sound : Sound u) (d : DesignRef) (term : Address) (stepped : u.destroyTerm d term = some u') :
    Sound u' := by
  obtain ⟨t, -, stepped⟩ := Option.bind_eq_some_iff.mp stepped
  split at stepped
  · cases stepped
  · cases stepped
    exact { sound with
      terms := forall_modifyAt u.terms d.design
        (fun r => removeAll r (fun e => e.object == term || e.data.bundle == some term)) _ sound.terms
        ((sound.terms d.design).removeAll _) }

theorem sound_destroyNet (sound : Sound u) (d : DesignRef) (net : Address) (stepped : u.destroyNet d net = some u') :
    Sound u' := by
  obtain ⟨n, isOwned, rfl⟩ := Option.map_eq_some_iff.mp stepped
  have member := owned_member u.nets sound.nets d net n isOwned
  exact { sound with
    nets := forall_modifyAt u.nets d.design (fun r => r.remove n.2) _ sound.nets ((sound.nets d.design).remove n.2 member) }

theorem sound_destroyInstance (sound : Sound u) (d : DesignRef) (inst : Address)
    (stepped : u.destroyInstance d inst = some u') : Sound u' := by
  obtain ⟨i, isOwned, rfl⟩ := Option.map_eq_some_iff.mp stepped
  have member := owned_member u.instances sound.instances d inst i isOwned
  exact { sound with
    instances := forall_modifyAt u.instances d.design (fun r => r.remove i.2) _ sound.instances
      ((sound.instances d.design).remove i.2 member) }

theorem sound_destroyTermBit (sound : Sound u) (d : DesignRef) (term : Address) (bit : Int)
    (stepped : u.destroyTermBit d term bit = some u') : Sound u' := by
  obtain ⟨-, -, rfl⟩ := Option.map_eq_some_iff.mp stepped
  exact { sound with
    terms := forall_modifyAt u.terms d.design (fun r => r.modify term (NLUniverse.dropTermBit bit)) _ sound.terms
      ((sound.terms d.design).modify term _) }

theorem sound_destroyNetBit (sound : Sound u) (d : DesignRef) (net : Address) (bit : Int)
    (stepped : u.destroyNetBit d net bit = some u') : Sound u' := by
  obtain ⟨-, -, rfl⟩ := Option.map_eq_some_iff.mp stepped
  exact { sound with
    nets := forall_modifyAt u.nets d.design (fun r => r.modify net (NLUniverse.dropNetBit bit)) _ sound.nets
      ((sound.nets d.design).modify net _) }

/-- One action, of a universe whose objects are linked. -/
theorem sound_step (sound : Sound u) (action : Action) (finds : u.FindsID action) (stepped : u.step action = some u') :
    Sound u' := by
  cases action with
  | createDB id => exact sound_createDB sound id finds stepped
  | createLibrary db id type name => exact sound_createLibrary sound db id type name finds stepped
  | createNestedLibrary parent id type name => exact sound_createNestedLibrary sound parent id type name finds stepped
  | createDesign l id type name => exact sound_createDesign sound l id type name finds stepped
  | createPNLDesign l id primitive name => exact sound_createPNLDesign sound l id primitive name finds stepped
  | createTerm d id name direction spec bundle =>
      exact sound_createTerm sound d id name direction spec bundle finds stepped
  | createNet d id name range => exact sound_createNet sound d id name range finds stepped
  | createInstance d model id name => exact sound_createInstance sound d model id name finds stepped
  | cloneToLibrary d l name whole => exact sound_cloneToLibrary sound d l name whole finds stepped
  | destroyDB db => exact sound_destroyDB sound db stepped
  | destroyLibrary l => exact sound_destroyLibrary sound l stepped
  | destroyDesign d => exact sound_destroyDesign sound d stepped
  | destroyPNLDesign d => exact sound_destroyPNLDesign sound d stepped
  | destroyTerm d term => exact sound_destroyTerm sound d term stepped
  | destroyTermBit d term bit => exact sound_destroyTermBit sound d term bit stepped
  | destroyNet d net => exact sound_destroyNet sound d net stepped
  | destroyNetBit d net bit => exact sound_destroyNetBit sound d net bit stepped
  | destroyInstance d inst => exact sound_destroyInstance sound d inst stepped

end step

/-- By induction on the run. -/
theorem Reached.sound (u : NLUniverse) (reached : Reached u) : Sound u := by
  induction reached with
  | created => exact sound_empty
  | step u u' action _ finds stepped ih => exact sound_step ih action finds stepped

end Naja.Universe
