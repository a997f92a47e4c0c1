import Naja.CapnP.Implementation

/-! Which databases come back from a snapshot as they were. -/

namespace Naja.CapnP
open Naja.Registry

/-- What a snapshot does not keep is not there: destroyed bits of terms, contents of libraries inside of
others, and references to the database by an ID that is not the forced one. What keeps it from being read is
not there either: a root library with the name of an earlier library, and truth tables that cannot be read. -/
structure Faithful (db : Database) (forced : Nat) : Prop where
  names : NamesFree [] db.libraries
  tables : ∀ l ∈ db.libraries, l.loadable = true
  terms : ∀ l ∈ db.getGlobalLibraries, ∀ d ∈ l.designs, ∀ t ∈ d.terms, t.removed = []
  inside : ∀ root ∈ db.libraries, ∀ l ∈ root.libraries.flatMap Library.flat, ∀ d ∈ l.designs,
    d.instances = [] ∧ d.nets = []
  references : forced = db.id ∨
    (db.top = none ∧ ∀ root ∈ db.libraries, ∀ d ∈ root.designs, ∀ i ∈ d.instances, i.model.dbID ≠ db.id)

/-! ### Libraries -/

theorem setDesigns_absent (id : Nat) (designs : List Design) (l : Library) (absent : id ∉ l.flat.map Library.id) :
    l.setDesigns id designs = l := by
  induction l using Library.induct with
  | step id' name type designs' libraries ih =>
      rw [flat_eq, List.map_cons, List.mem_cons, not_or] at absent
      rw [Library.setDesigns, setDesignsIn_eq, if_neg (fun same => absent.1 same.symm)]
      congr 1
      refine (List.map_congr_left ?_).trans (List.map_id _)
      intro l member
      refine ih l member ?_
      intro inside
      obtain ⟨x, there, same⟩ := List.mem_map.mp inside
      exact absent.2 (List.mem_map.mpr ⟨x, List.mem_flatMap.mpr ⟨l, member, there⟩, same⟩)

theorem id_reloaded (l : Library) : l.reloaded.id = l.id := by
  cases l
  rfl

/-- Two libraries with the same ID and the same libraries inside. -/
theorem flatIDs_congr (l l' : Library) (same : l.id = l'.id) (inside : l.libraries = l'.libraries) :
    l.flat.map Library.id = l'.flat.map Library.id := by
  rw [flat_eq l, flat_eq l', List.map_cons, List.map_cons, same, inside]

theorem flatIDs_bare (l : Library) : l.bare.flat.map Library.id = l.flat.map Library.id := by
  rw [flat_bare, List.map_map]
  exact List.map_congr_left (fun x _ => id_bare x)

theorem flatIDs_reloaded (l : Library) : l.reloaded.flat.map Library.id = l.flat.map Library.id := by
  rw [← flatIDs_bare l]
  refine flatIDs_congr l.reloaded l.bare ?_ ?_
  · rw [id_reloaded, id_bare]
  · cases l
    rw [Library.bare]
    rfl

theorem map_flatIDs (f : Library → Library) (same : ∀ l, (f l).flat.map Library.id = l.flat.map Library.id)
    (ls : List Library) :
    (flatLibraries (ls.map f)).map Library.id = (flatLibraries ls).map Library.id := by
  rw [flatLibraries_eq, flatLibraries_eq, List.flatMap_map, List.map_flatMap, List.map_flatMap]
  exact List.flatMap_congr (fun l _ => same l)

section implementation
variable (models : DesignReference → Option Design) (u : Universe)

theorem loadLibraryDesigns (l : Library) (wf : l.WellFormed models) (refound : ∀ d ∈ l.designs, Refound models u d) :
    (l.designs.map dumpDesignImplementation).foldlM (loadDesignImplementation u) (l.designs.map Design.bare) =
      .ok (l.designs.map Design.whole) := by
  have loop := foldlM_dump dumpDesignImplementation (loadDesignImplementation u)
    (fun before => before.map Design.whole ++ (l.designs.drop before.length).map Design.bare) l.designs ?_
  · simpa using loop
  · intro before d after parts
    have member : d ∈ l.designs := by rw [parts]; simp
    have ordered := wf.designs
    have nodup := ordered.nodup
    rw [parts] at ordered
    have below := ordered.below before after d
    have above (x : Design) (later : x ∈ after) : d.id < x.id :=
      (List.pairwise_cons.mp (List.pairwise_append.mp ordered).2.1).1 x later
    have front : l.designs.drop before.length = d :: after := by rw [parts, List.drop_left]
    have back : l.designs.drop (before ++ [d]).length = after := by
      rw [parts, show before ++ d :: after = (before ++ [d]) ++ after by simp, List.drop_left]
    have found : (before.map Design.whole ++ (d :: after).map Design.bare).find? (fun x => x.id == d.id) =
        some d.bare := by
      refine find?_of_nodup Design.id _ ?_ d.bare (by simp)
      have ids : (before.map Design.whole ++ (d :: after).map Design.bare).map Design.id = l.designs.map Design.id := by
        rw [List.map_append, List.map_map, List.map_map, parts, List.map_append]
        rfl
      rw [ids]
      exact nodup
    simp only [front, back]
    rw [loadDesign_dump models u d (wf.contents d member) (refound d member) _ found]
    congr 1
    rw [List.map_append, List.map_cons, List.map_cons, List.map_append, List.map_singleton]
    have kept (xs : List Design) (other : ∀ x ∈ xs, x.id ≠ d.id) :
        xs.map (fun x => if x.id = d.id then d.whole else x) = xs := by
      refine (List.map_congr_left ?_).trans (List.map_id _)
      intro x inside
      exact if_neg (other x inside)
    rw [kept (before.map Design.whole), kept (after.map Design.bare), List.append_assoc,
      if_pos (show d.bare.id = d.id from rfl)]
    · rfl
    · intro x inside
      obtain ⟨y, there, rfl⟩ := List.mem_map.mp inside
      exact ne_of_gt (above y there)
    · intro x inside
      obtain ⟨y, there, rfl⟩ := List.mem_map.mp inside
      exact ne_of_lt (below y there)

/-- All root libraries. -/
theorem loadLibraries_dump (db : Database) (wf : ∀ l ∈ db.getGlobalLibraries, l.WellFormed models)
    (ids : (db.getGlobalLibraries.map Library.id).Nodup) (forced : Nat)
    (refound : ∀ l ∈ db.libraries, ∀ d ∈ l.designs, Refound models u d) :
    (db.libraries.map dumpLibraryImplementation).foldlM (loadLibraryImplementation u)
        ⟨forced, db.libraries.map Library.bare, db.top⟩ =
      .ok ⟨forced, db.libraries.map Library.reloaded, db.top⟩ := by
  have loop := foldlM_dump dumpLibraryImplementation (loadLibraryImplementation u)
    (fun before => (⟨forced, before.map Library.reloaded ++ (db.libraries.drop before.length).map Library.bare, db.top⟩ :
      Database)) db.libraries ?_
  · simpa using loop
  · intro before l after parts
    have member : l ∈ db.libraries := by rw [parts]; simp
    have global : l ∈ db.getGlobalLibraries := by
      unfold Database.getGlobalLibraries
      rw [flatLibraries_eq]
      exact List.mem_flatMap.mpr ⟨l, member, mem_flat_self l⟩
    have front : db.libraries.drop before.length = l :: after := by rw [parts, List.drop_left]
    have back : db.libraries.drop (before ++ [l]).length = after := by
      rw [parts, show before ++ l :: after = (before ++ [l]) ++ after by simp, List.drop_left]
    have stateIDs : (flatLibraries (before.map Library.reloaded ++ (l :: after).map Library.bare)).map Library.id =
        db.getGlobalLibraries.map Library.id := by
      unfold Database.getGlobalLibraries
      rw [parts, flatLibraries_eq, flatLibraries_eq, List.flatMap_append, List.flatMap_append, List.map_append,
        List.map_append, ← flatLibraries_eq, ← flatLibraries_eq, ← flatLibraries_eq, ← flatLibraries_eq,
        map_flatIDs Library.reloaded flatIDs_reloaded, map_flatIDs Library.bare flatIDs_bare]
    have found : (⟨forced, before.map Library.reloaded ++ (l :: after).map Library.bare, db.top⟩ : Database).getLibrary
        l.id = some l.bare := by
      unfold Database.getLibrary Database.getGlobalLibraries
      rw [← id_bare l]
      refine find?_of_nodup Library.id _ ?_ l.bare ?_
      · rw [stateIDs]
        exact ids
      · rw [flatLibraries_eq]
        exact List.mem_flatMap.mpr ⟨l.bare, by simp, mem_flat_self _⟩
    have parted := ids
    unfold Database.getGlobalLibraries at parted
    rw [parts, flatLibraries_eq, List.flatMap_append, List.flatMap_cons, List.map_append, List.map_append] at parted
    have mine : l.id ∈ l.flat.map Library.id := List.mem_map_of_mem (mem_flat_self l)
    simp only [front, back]
    have message : dumpLibraryImplementation l = .mk l.id (l.designs.map dumpDesignImplementation)
        (dumpLibraryImplementations l.libraries) := by
      cases l
      rw [dumpLibraryImplementation]
      rfl
    rw [message, loadLibraryImplementation, found]
    simp only [designs_bare, bind, Except.bind, pure, Except.pure,
      loadLibraryDesigns models u l (wf l global) (refound l member)]
    rw [setDesignsIn_eq, List.map_append, List.map_cons, List.map_cons, List.map_append, List.map_singleton,
      List.append_assoc, List.singleton_append]
    -- only the library itself has this ID
    have early : (before.map Library.reloaded).map (Library.setDesigns l.id (l.designs.map Design.whole)) =
        before.map Library.reloaded := by
      refine (List.map_congr_left ?_).trans (List.map_id _)
      intro x inside
      obtain ⟨y, there, rfl⟩ := List.mem_map.mp inside
      apply setDesigns_absent
      rw [flatIDs_reloaded]
      intro taken
      obtain ⟨z, inFlat, same⟩ := List.mem_map.mp taken
      exact (List.nodup_append.mp parted).2.2 _
        (List.mem_map.mpr ⟨z, List.mem_flatMap.mpr ⟨y, there, inFlat⟩, same⟩) _ (List.mem_append_left _ mine) rfl
    have late : (after.map Library.bare).map (Library.setDesigns l.id (l.designs.map Design.whole)) =
        after.map Library.bare := by
      refine (List.map_congr_left ?_).trans (List.map_id _)
      intro x inside
      obtain ⟨y, there, rfl⟩ := List.mem_map.mp inside
      apply setDesigns_absent
      rw [flatIDs_bare]
      intro taken
      obtain ⟨z, inFlat, same⟩ := List.mem_map.mp taken
      exact (List.nodup_append.mp (List.nodup_append.mp parted).2.1).2.2 _ mine _
        (List.mem_map.mpr ⟨z, List.mem_flatMap.mpr ⟨y, there, inFlat⟩, same⟩) rfl
    have here : l.bare.setDesigns l.id (l.designs.map Design.whole) = l.reloaded := by
      have insideIDs := (List.nodup_append.mp (List.nodup_append.mp parted).2.1).1
      rw [flat_eq, List.map_cons] at insideIDs
      obtain ⟨id, name, type, designs, libraries⟩ := l
      rw [Library.bare, Library.setDesigns, if_pos (show id = (Library.mk id name type designs libraries).id from rfl),
        setDesignsIn_eq, bareLibraries_eq, Library.reloaded,
        bareLibraries_eq]
      congr 1
      refine (List.map_congr_left ?_).trans (List.map_id _)
      intro x inside
      obtain ⟨y, there, rfl⟩ := List.mem_map.mp inside
      apply setDesigns_absent
      rw [flatIDs_bare]
      intro taken
      obtain ⟨z, inFlat, same⟩ := List.mem_map.mp taken
      exact (List.nodup_cons.mp insideIDs).1 (List.mem_map.mpr ⟨z, List.mem_flatMap.mpr ⟨y, there, inFlat⟩, same⟩)
    rw [early, late, here]

end implementation

/-! ### What is read in any case -/

/-- A design as far as it is read: the terms are those that were written, and the instances have the
references that were written. -/
structure Written (d d' : Design) : Prop where
  id : d'.id = d.id
  terms : d'.terms = d.terms.map Term.whole
  instances : ∀ i' ∈ d'.instances, ∃ i ∈ d.instances, i'.id = i.id ∧ i'.model = i.model

theorem exists_left_of_forall₂ {α β : Type} {related : α → β → Prop} {xs : List α} {ys : List β}
    (all : List.Forall₂ related xs ys) (y : β) (member : y ∈ ys) : ∃ x ∈ xs, related x y := by
  induction all with
  | nil => contradiction
  | cons here rest ih =>
      rcases List.mem_cons.mp member with rfl | later
      · exact ⟨_, List.mem_cons_self, here⟩
      · obtain ⟨x, inside, pair⟩ := ih later
        exact ⟨x, List.mem_cons_of_mem _ inside, pair⟩

section written
variable (u : Universe)

theorem create_ok {α : Type} (id : α → Nat) (name : α → String) (nameTaken idTaken : LoadError) (xs ys : List α) (x : α)
    (made : create id name nameTaken idTaken xs x = .ok ys) : ys = insertByKey id x xs := by
  unfold create at made
  split at made
  · contradiction
  · split at made
    · contradiction
    · exact (Except.ok.inj made).symm

theorem Written.loadInstance (d d' d'' : Design) (written : Written d d') (i : Instance) (member : i ∈ d.instances)
    (ran : loadInstance u d' (dumpInstance i) = .ok d'') : Written d d'' := by
  unfold CapnP.loadInstance at ran
  split at ran
  · contradiction
  · next model found =>
      simp only [bind, Except.bind, pure, Except.pure, throw, throwThe, MonadExceptOf.throw] at ran
      split at ran
      · contradiction
      split at ran
      · contradiction
      next instances made =>
        split at ran
        · contradiction
        next parameters given =>
          obtain rfl := Except.ok.inj ran
          refine ⟨written.id, written.terms, ?_⟩
          intro i' inside
          obtain ⟨x, there, rfl⟩ := List.mem_map.mp inside
          have origin : ∃ y ∈ d.instances, x.id = y.id ∧ x.model = y.model := by
            rw [create_ok _ _ _ _ _ _ _ made] at there
            rcases mem_insertByKey _ _ _ there with rfl | old
            · exact ⟨i, member, rfl, rfl⟩
            · exact written.instances x old
          split
          · exact origin
          · exact origin

/-- Loading a net leaves all but the nets. -/
theorem loadComponent_frame (id position : Nat) (d d' : Design) (c : Component)
    (ran : loadComponent u id position d c = .ok d') :
    d'.id = d.id ∧ d'.terms = d.terms ∧ d'.instances = d.instances := by
  unfold loadComponent at ran
  simp only [bind, Except.bind, pure, Except.pure] at ran
  split at ran
  · contradiction
  · obtain rfl := Except.ok.inj ran
    exact ⟨rfl, rfl, rfl⟩

theorem loadComponents_frame (id position : Nat) (d d' : Design) (cs : List Component)
    (ran : cs.foldlM (loadComponent u id position) d = .ok d') :
    d'.id = d.id ∧ d'.terms = d.terms ∧ d'.instances = d.instances := by
  refine foldlM_invariant (loadComponent u id position)
    (fun x => x.id = d.id ∧ x.terms = d.terms ∧ x.instances = d.instances) cs ?_ d d' ⟨rfl, rfl, rfl⟩ ran
  intro x c x' _ same step
  obtain ⟨sameID, terms, instances⟩ := loadComponent_frame u id position x x' c step
  exact ⟨sameID.trans same.1, terms.trans same.2.1, instances.trans same.2.2⟩

theorem loadBusNetBit_frame (id : Nat) (range : Int × Int) (d d' : Design) (m : BusNetBit)
    (ran : loadBusNetBit u id range d m = .ok d') :
    d'.id = d.id ∧ d'.terms = d.terms ∧ d'.instances = d.instances := by
  unfold loadBusNetBit at ran
  split at ran
  · contradiction
  · split at ran
    · contradiction
    · split at ran
      · obtain rfl := Except.ok.inj ran
        exact ⟨rfl, rfl, rfl⟩
      · next position _ _ _ =>
          exact loadComponents_frame u id position (d.modifyNet id (Net.setType position m.type)) d' m.components ran

theorem loadNet_frame (d d' : Design) (m : NetMessage) (ran : loadNet u d m = .ok d') :
    d'.id = d.id ∧ d'.terms = d.terms ∧ d'.instances = d.instances := by
  have created (n : Net) (d₁ : Design) (made : createNet d n = .ok d₁) :
      d₁.id = d.id ∧ d₁.terms = d.terms ∧ d₁.instances = d.instances := by
    unfold createNet at made
    simp only [bind, Except.bind, pure, Except.pure] at made
    split at made
    · contradiction
    · obtain rfl := Except.ok.inj made
      exact ⟨rfl, rfl, rfl⟩
  cases m with
  | scalarNet id name type components =>
      simp only [loadNet, bind, Except.bind] at ran
      split at ran
      · contradiction
      next d₁ made =>
        obtain ⟨sameID, terms, instances⟩ := created _ d₁ made
        obtain ⟨sameID', terms', instances'⟩ := loadComponents_frame u id 0 _ d' components ran
        exact ⟨sameID'.trans sameID, terms'.trans terms, instances'.trans instances⟩
  | busNet id name msb lsb bits =>
      simp only [loadNet, bind, Except.bind] at ran
      split at ran
      · contradiction
      next d₁ made =>
        obtain ⟨sameID, terms, instances⟩ := created _ d₁ made
        refine foldlM_invariant (loadBusNetBit u id (msb, lsb))
          (fun x => x.id = d.id ∧ x.terms = d.terms ∧ x.instances = d.instances) bits ?_ d₁ d'
          ⟨sameID, terms, instances⟩ ran
        intro x bit x' _ same step
        obtain ⟨sameID', terms', instances'⟩ := loadBusNetBit_frame u id (msb, lsb) x x' bit step
        exact ⟨sameID'.trans same.1, terms'.trans same.2.1, instances'.trans same.2.2⟩

theorem Written.loadDesign (d d₀ d₁ d₂ : Design) (written : Written d d₀)
    (first : (dumpDesignImplementation d).instances.foldlM (CapnP.loadInstance u) d₀ = .ok d₁)
    (second : (dumpDesignImplementation d).nets.foldlM (loadNet u) d₁ = .ok d₂) : Written d d₂ := by
  have withInstances : Written d d₁ := by
    refine foldlM_invariant (CapnP.loadInstance u) (Written d) _ ?_ d₀ d₁ written first
    intro x m x' member sofar step
    obtain ⟨i, inside, rfl⟩ := List.mem_map.mp member
    exact sofar.loadInstance u d x x' i inside step
  refine foldlM_invariant (loadNet u) (Written d) _ ?_ d₁ d₂ withInstances second
  intro x m x' _ sofar step
  obtain ⟨sameID, terms, instances⟩ := loadNet_frame u x x' m step
  exact ⟨sameID.trans sofar.id, terms.trans sofar.terms, instances ▸ sofar.instances⟩

/-- The designs of a library, in any state of their loading. -/
theorem written_loadDesigns (l : Library) (ordered : OrderedBy Design.id l.designs) (designs designs' : List Design)
    (written : List.Forall₂ Written l.designs designs)
    (ran : (l.designs.map dumpDesignImplementation).foldlM (loadDesignImplementation u) designs = .ok designs') :
    List.Forall₂ Written l.designs designs' := by
  refine foldlM_invariant (loadDesignImplementation u) (List.Forall₂ Written l.designs) _ ?_ designs designs' written ran
  intro xs m xs' member sofar step
  obtain ⟨d, inside, rfl⟩ := List.mem_map.mp member
  unfold loadDesignImplementation at step
  split at step
  · contradiction
  next x found =>
    simp only [bind, Except.bind, pure, Except.pure] at step
    split at step
    · contradiction
    next d₁ first =>
      split at step
      · contradiction
      next d₂ second =>
        obtain rfl := Except.ok.inj step
        -- a design with this ID stands for `d`
        have mine (y y' : Design) (pair : Written y y') (inY : y ∈ l.designs) (same : y'.id = d.id) : y = d :=
          ordered.eq_of_key l.designs y d inY inside (pair.id.symm.trans same)
        have atD : Written d x := by
          obtain ⟨y, inY, pair⟩ := exists_left_of_forall₂ sofar x (List.mem_of_find?_eq_some found)
          have tested := List.find?_some found
          have sameID : x.id = d.id := beq_iff_eq.mp tested
          exact mine y x pair inY sameID ▸ pair
        have final := atD.loadDesign u d x d₁ d₂ first second
        rw [List.forall₂_map_right_iff]
        refine ((List.forall₂_and_left _ _).mpr ⟨fun y inY => inY, sofar⟩).imp ?_
        intro y y' both
        split
        · next same => exact mine y y' both.2 both.1 same ▸ final
        · exact both.2

/-- A root library in any state of its loading. -/
structure RootWritten (l l' : Library) : Prop where
  shape : l' = .mk l.id l.name l.type l'.designs (bareLibraries l.libraries)
  designs : List.Forall₂ Written l.designs l'.designs

theorem RootWritten.flatIDs (l l' : Library) (written : RootWritten l l') :
    l'.flat.map Library.id = l.flat.map Library.id := by
  rw [← flatIDs_bare l]
  have shape := written.shape
  refine flatIDs_congr l' l.bare ?_ ?_
  · rw [shape, id_bare]
    rfl
  · rw [shape]
    cases l
    rw [Library.bare]
    rfl

theorem rootWritten_bare (l : Library) : RootWritten l l.bare := by
  refine ⟨?_, ?_⟩
  · cases l
    rw [Library.bare]
    rfl
  · rw [designs_bare, List.forall₂_map_right_iff, List.forall₂_same]
    intro d _
    exact ⟨rfl, rfl, by simp [Design.bare]⟩

theorem flatIDs_written (ls ls' : List Library) (written : List.Forall₂ RootWritten ls ls') :
    (flatLibraries ls').map Library.id = (flatLibraries ls).map Library.id := by
  induction written with
  | nil => rfl
  | cons here rest ih =>
      rw [flatLibraries, flatLibraries, List.map_append, List.map_append, ih, here.flatIDs]

omit u in
/-- The ID of a root library is not the one of a library inside of another. -/
theorem root_not_inside (db : Database) (ids : (db.getGlobalLibraries.map Library.id).Nodup) (l y : Library)
    (inL : l ∈ db.libraries) (inY : y ∈ db.libraries) (v : Library) (inside : v ∈ y.libraries.flatMap Library.flat) :
    v.id ≠ l.id := by
  unfold Database.getGlobalLibraries at ids
  rw [flatLibraries_eq, List.map_flatMap, List.nodup_flatMap] at ids
  obtain ⟨each, apart⟩ := ids
  have inFlat : v.id ∈ y.flat.map Library.id := by
    rw [flat_eq]
    exact List.mem_map_of_mem (List.mem_cons_of_mem _ inside)
  intro same
  by_cases equal : y = l
  · subst equal
    have own := each y inY
    rw [flat_eq, List.map_cons] at own
    exact (List.nodup_cons.mp own).1 (same ▸ List.mem_map_of_mem inside)
  · have symmetric : Std.Symm (Function.onFun List.Disjoint (fun a : Library => a.flat.map Library.id)) :=
      ⟨fun _ _ disjoint => List.Disjoint.symm disjoint⟩
    have disjoint := apart.forall inY inL equal
    exact disjoint inFlat (same ▸ List.mem_map_of_mem (mem_flat_self l))

/-- The implementation of the database, as far as it is read. -/
theorem written_loadLibraries (db : Database) (ids : (db.getGlobalLibraries.map Library.id).Nodup)
    (ordered : ∀ l ∈ db.libraries, OrderedBy Design.id l.designs) (start final : Database)
    (written : List.Forall₂ RootWritten db.libraries start.libraries)
    (ran : (db.libraries.map dumpLibraryImplementation).foldlM (loadLibraryImplementation u) start = .ok final) :
    List.Forall₂ RootWritten db.libraries final.libraries ∧ final.id = start.id ∧ final.top = start.top := by
  refine foldlM_invariant (loadLibraryImplementation u) (fun state =>
    List.Forall₂ RootWritten db.libraries state.libraries ∧ state.id = start.id ∧ state.top = start.top) _ ?_ start final
      ⟨written, rfl, rfl⟩ ran
  intro state m state' member sofar step
  obtain ⟨sofar, sameID, sameTop⟩ := sofar
  obtain ⟨l, inside, rfl⟩ := List.mem_map.mp member
  have message : dumpLibraryImplementation l = .mk l.id (l.designs.map dumpDesignImplementation)
      (dumpLibraryImplementations l.libraries) := by
    cases l
    rw [dumpLibraryImplementation]
    rfl
  have stateIDs : ((flatLibraries state.libraries).map Library.id).Nodup := by
    rw [flatIDs_written db.libraries state.libraries sofar]
    exact ids
  rw [message, loadLibraryImplementation] at step
  split at step
  · contradiction
  next x found =>
    simp only [bind, Except.bind, pure, Except.pure] at step
    split at step
    · contradiction
    next loaded designs =>
      obtain rfl := Except.ok.inj step
      refine ⟨?_, sameID, sameTop⟩
      have rootIDs (y y' : Library) (inY : y ∈ db.libraries) (inY' : y' ∈ db.libraries) (same : y.id = y'.id) : y = y' := by
        have inFlat (z : Library) (inZ : z ∈ db.libraries) : z ∈ db.getGlobalLibraries := by
          unfold Database.getGlobalLibraries
          rw [flatLibraries_eq]
          exact List.mem_flatMap.mpr ⟨z, inZ, mem_flat_self z⟩
        exact List.inj_on_of_nodup_map ids (inFlat y inY) (inFlat y' inY') same
      have paired := (List.forall₂_and_left _ _).mpr ⟨fun y (inY : y ∈ db.libraries) => inY, sofar⟩
      -- the library that is found is the root library itself
      have atL : RootWritten l x := by
        obtain ⟨k, bound, here⟩ := List.getElem_of_mem inside
        have length := sofar.length_eq
        have pair := (List.forall₂_iff_get.mp sofar).2 k bound (length ▸ bound)
        simp only [List.get_eq_getElem, here] at pair
        have root : state.libraries[k] ∈ flatLibraries state.libraries := by
          rw [flatLibraries_eq]
          exact List.mem_flatMap.mpr ⟨_, List.getElem_mem _, mem_flat_self _⟩
        have again := find?_of_nodup Library.id _ stateIDs _ root
        have rootID : state.libraries[k].id = l.id := by
          rw [pair.shape]
          rfl
        rw [rootID] at again
        exact Option.some.inj (again.symm.trans found) ▸ pair
      have final := written_loadDesigns u l (ordered l inside) x.designs loaded atL.designs designs
      rw [setDesignsIn_eq, List.forall₂_map_right_iff]
      refine paired.imp ?_
      intro y y' both
      obtain ⟨inY, pair⟩ := both
      have shape := pair.shape
      have insideKept : setDesignsIn l.id loaded (bareLibraries y.libraries) = bareLibraries y.libraries := by
        rw [setDesignsIn_eq, bareLibraries_eq]
        refine (List.map_congr_left ?_).trans (List.map_id _)
        intro z there
        obtain ⟨z₀, inLibraries, rfl⟩ := List.mem_map.mp there
        apply setDesigns_absent
        rw [flatIDs_bare]
        intro taken
        obtain ⟨v, inFlat, same⟩ := List.mem_map.mp taken
        exact root_not_inside db ids l y inside inY v (List.mem_flatMap.mpr ⟨z₀, inLibraries, inFlat⟩) same
      by_cases same : y.id = l.id
      · obtain rfl := rootIDs y l inY inside same
        rw [shape, Library.setDesigns, if_pos rfl, insideKept]
        exact ⟨rfl, final⟩
      · rw [shape, Library.setDesigns, if_neg same, insideKept]
        exact ⟨rfl, pair.designs⟩

end written

/-! ### Both directions -/

theorem getDB_put_of_ne (u : Universe) (db : Database) (id : Nat) (other : id ≠ db.id) :
    Universe.getDB (Universe.put u db) id = Universe.getDB u id := by
  unfold Universe.getDB Universe.put
  rw [List.find?_cons_of_neg (by simpa using fun same => other same.symm), List.find?_filter]
  congr 1
  funext x
  by_cases here : x.id = id
  · simp [here, other]
  · simp [here]

/-- The database is read back under the forced ID, and no other database is changed. -/
def Restored (policy : PrimitiveConflictPolicy) (u : Universe) (db : Database) (forced : Nat) : Prop :=
  ∃ u', reload policy u db forced = .ok u' ∧ Universe.getDB u' forced = some (db.rebase forced) ∧
    ∀ id, id ≠ forced → Universe.getDB u' id = Universe.getDB u id

section restored
variable (policy : PrimitiveConflictPolicy) (u : Universe) (db : Database) (wf : db.WellFormed u) (forced : Nat)
  (fresh : Universe.getDB u forced = none)

/-- The state once the interface is read. -/
def withInterface (u : Universe) (db : Database) (forced : Nat) : Universe :=
  Universe.put u ⟨forced, db.libraries.map Library.bare, db.top⟩

include fresh in
/-- The models of the root libraries are found when they are not under another ID. -/
theorem refound_withInterface
    (references : forced = db.id ∨ ∀ l ∈ db.libraries, ∀ d ∈ l.designs, ∀ i ∈ d.instances, i.model.dbID ≠ db.id) :
    ∀ l ∈ db.libraries, ∀ d ∈ l.designs, Refound (db.models u) (withInterface u db forced) d := by
  intro l inL d inD i inI model found
  unfold Database.models at found
  by_cases own : i.model.dbID = db.id
  · rw [if_pos own] at found
    have same : forced = db.id := references.resolve_right (fun none => none l inL d inD i inI own)
    refine ⟨model.bare, ?_, rfl, Or.inr rfl⟩
    unfold Universe.getSNLDesign withInterface
    rw [own, ← same, getDB_put u ⟨forced, db.libraries.map Library.bare, db.top⟩, Option.bind_some, getSNLDesign_bare,
      found]
    rfl
  · rw [if_neg own] at found
    refine ⟨model, ?_, rfl, Or.inl rfl⟩
    have other : i.model.dbID ≠ forced := by
      intro same
      unfold Universe.getSNLDesign at found
      rw [same, fresh] at found
      contradiction
    unfold Universe.getSNLDesign withInterface at *
    rw [getDB_put_of_ne _ _ _ other]
    exact found

theorem rebase_of_none (d : Design) (terms : ∀ t ∈ d.terms, t.removed = [])
    (references : forced = db.id ∨ ∀ i ∈ d.instances, i.model.dbID ≠ db.id) : d.whole = d.rebase db.id forced := by
  have sameTerms : d.terms.map Term.whole = d.terms := by
    refine (List.map_congr_left ?_).trans (List.map_id _)
    intro t member
    unfold Term.whole
    rw [← terms t member, id]
  have sameInstances : d.instances.map (Instance.rebase db.id forced) = d.instances := by
    refine (List.map_congr_left ?_).trans (List.map_id _)
    intro i member
    unfold Instance.rebase DesignReference.rebase
    split
    · next own =>
        have same : forced = db.id := references.resolve_right (fun none => none i member own)
        rw [same, ← own, id]
    · rfl
  unfold Design.whole Design.rebase
  rw [sameTerms, sameInstances]

/-- Libraries without instances and nets. -/
theorem bare_eq_rebase (l : Library) (empty : ∀ x ∈ l.flat, ∀ d ∈ x.designs, d.instances = [] ∧ d.nets = [])
    (terms : ∀ x ∈ l.flat, ∀ d ∈ x.designs, ∀ t ∈ d.terms, t.removed = []) : l.bare = l.rebase db.id forced := by
  induction l using Library.induct with
  | step id name type designs libraries ih =>
      have whole := flat_eq (Library.mk id name type designs libraries)
      rw [whole] at empty terms
      rw [Library.bare, Library.rebase, bareLibraries_eq, rebaseLibraries_eq]
      congr 1
      · refine List.map_congr_left ?_
        intro d member
        obtain ⟨instances, nets⟩ := empty _ List.mem_cons_self d member
        rw [← rebase_of_none db forced d (terms _ List.mem_cons_self d member)
          (Or.inr (by rw [instances]; exact fun _ none => absurd none List.not_mem_nil))]
        unfold Design.bare Design.whole
        rw [← instances, ← nets]
      · refine List.map_congr_left ?_
        intro l member
        have inside (x : Library) (there : x ∈ l.flat) : x ∈ libraries.flatMap Library.flat :=
          List.mem_flatMap.mpr ⟨l, member, there⟩
        exact ih l member (fun x there => empty x (List.mem_cons_of_mem _ (inside x there)))
          (fun x there => terms x (List.mem_cons_of_mem _ (inside x there)))

include wf fresh

theorem restored_of_faithful (faithful : Faithful db forced) : Restored policy u db forced := by
  have interface := (loadInterface_dump policy u db wf forced fresh (withInterface u db forced)).mpr
    ⟨⟨faithful.names, faithful.tables⟩, faithful.references.symm.imp_left And.left, rfl⟩
  have found : Universe.getDB (withInterface u db forced) forced =
      some ⟨forced, db.libraries.map Library.bare, db.top⟩ := getDB_put u ⟨forced, _, db.top⟩
  have implementation := loadLibraries_dump (db.models u) (withInterface u db forced) db wf.libraries wf.ids forced
    (refound_withInterface u db forced fresh (faithful.references.imp_right And.right))
  have same : (⟨forced, db.libraries.map Library.reloaded, db.top⟩ : Database) = db.rebase forced := by
    unfold Database.rebase
    rw [rebaseLibraries_eq]
    congr 1
    refine List.map_congr_left ?_
    intro l member
    have global (x : Library) (there : x ∈ l.flat) : x ∈ db.getGlobalLibraries := by
      unfold Database.getGlobalLibraries
      rw [flatLibraries_eq]
      exact List.mem_flatMap.mpr ⟨l, member, there⟩
    have empty := faithful.inside l member
    obtain ⟨id, name, type, designs, libraries⟩ := l
    rw [Library.reloaded, Library.rebase, bareLibraries_eq, rebaseLibraries_eq]
    congr 1
    · refine List.map_congr_left ?_
      intro d inD
      refine rebase_of_none db forced d (faithful.terms _ (global _ (mem_flat_self _)) d inD) ?_
      exact faithful.references.imp_right (fun none => none.2 _ member d inD)
    · refine List.map_congr_left ?_
      intro x inside
      have inFlat (y : Library) (there : y ∈ x.flat) : y ∈ libraries.flatMap Library.flat :=
        List.mem_flatMap.mpr ⟨x, inside, there⟩
      refine bare_eq_rebase db forced x (fun y there => empty y (inFlat y there)) ?_
      intro y there
      refine faithful.terms y (global y ?_)
      rw [flat_eq]
      exact List.mem_cons_of_mem _ (inFlat y there)
  refine ⟨Universe.put (withInterface u db forced) (db.rebase forced), ?_, getDB_put _ (db.rebase forced), ?_⟩
  · unfold reload
    rw [interface]
    simp only [bind, Except.bind]
    unfold loadImplementation dumpImplementation
    rw [found]
    simp only [dumpLibraryImplementations_eq, bind, Except.bind, pure, Except.pure, implementation, same]
  · intro id other
    rw [getDB_put_of_ne _ _ _ other]
    exact getDB_put_of_ne _ _ _ other

omit wf fresh in
theorem removed_of_whole (terms : List Term) (same : terms = terms.map Term.whole) : ∀ t ∈ terms, t.removed = [] := by
  have each : ∀ t ∈ terms, id t = t.whole := by
    rw [← List.map_inj_left, List.map_id]
    exact same
  intro t member
  exact congrArg Term.removed (each t member)

omit wf fresh in
/-- Where a library comes back bare, all designs in it do. -/
theorem designs_of_bare (l : Library) (same : l.rebase db.id forced = l.bare) :
    ∀ x ∈ l.flat, ∀ d ∈ x.designs, d.rebase db.id forced = d.bare := by
  induction l using Library.induct with
  | step id name type designs libraries ih =>
      rw [Library.rebase, Library.bare, rebaseLibraries_eq, bareLibraries_eq] at same
      obtain ⟨-, -, -, sameDesigns, sameLibraries⟩ := Library.mk.inj same
      intro x member
      rw [flat_eq] at member
      rcases List.mem_cons.mp member with rfl | inside
      · exact List.map_inj_left.mp sameDesigns
      · obtain ⟨l, inLibraries, there⟩ := List.mem_flatMap.mp inside
        exact ih l inLibraries (List.map_inj_left.mp sameLibraries l inLibraries) x there

theorem faithful_of_restored (restored : Restored policy u db forced) : Faithful db forced := by
  obtain ⟨u', ran, found, -⟩ := restored
  unfold reload at ran
  simp only [bind, Except.bind] at ran
  split at ran
  · contradiction
  next u₁ interface =>
    obtain ⟨⟨names, tables⟩, top, rfl⟩ := (loadInterface_dump policy u db wf forced fresh u₁).mp interface
    unfold loadImplementation dumpImplementation at ran
    rw [getDB_put u ⟨forced, db.libraries.map Library.bare, db.top⟩] at ran
    simp only [dumpLibraryImplementations_eq, bind, Except.bind, pure, Except.pure] at ran
    split at ran
    · contradiction
    next final implementation =>
      have ordered (l : Library) (member : l ∈ db.libraries) : OrderedBy Design.id l.designs := by
        refine (wf.libraries l ?_).designs
        unfold Database.getGlobalLibraries
        rw [flatLibraries_eq]
        exact List.mem_flatMap.mpr ⟨l, member, mem_flat_self l⟩
      obtain ⟨written, sameID, -⟩ := written_loadLibraries (withInterface u db forced) db wf.ids ordered
        ⟨forced, db.libraries.map Library.bare, db.top⟩ final (by
          rw [List.forall₂_map_right_iff, List.forall₂_same]
          exact fun l _ => rootWritten_bare l) implementation
      have whole : final = db.rebase forced := by
        obtain rfl := Except.ok.inj ran
        have own : final.id = forced := sameID
        rw [← own, getDB_put] at found
        rw [own] at found
        exact Option.some.inj found
      rw [whole] at written
      unfold Database.rebase at written
      rw [rebaseLibraries_eq, List.forall₂_map_right_iff, List.forall₂_same] at written
      -- a root library, its designs and the libraries inside
      have inside (root : Library) (member : root ∈ db.libraries) : ∀ x ∈ root.libraries.flatMap Library.flat,
          ∀ d ∈ x.designs, d.rebase db.id forced = d.bare := by
        have shape := (written root member).shape
        obtain ⟨id, name, type, designs, libraries⟩ := root
        rw [Library.rebase] at shape
        obtain ⟨-, -, -, -, sameLibraries⟩ := Library.mk.inj shape
        rw [rebaseLibraries_eq, bareLibraries_eq] at sameLibraries
        intro x there
        obtain ⟨l, inLibraries, inFlat⟩ := List.mem_flatMap.mp there
        exact designs_of_bare db forced l (List.map_inj_left.mp sameLibraries l inLibraries) x inFlat
      have rootDesigns (root : Library) (member : root ∈ db.libraries) :
          ∀ d ∈ root.designs, Written d (d.rebase db.id forced) := by
        have designs := (written root member).designs
        obtain ⟨id, name, type, designs', libraries⟩ := root
        rw [Library.rebase] at designs
        change List.Forall₂ Written designs' (designs'.map (Design.rebase db.id forced)) at designs
        rwa [List.forall₂_map_right_iff, List.forall₂_same] at designs
      refine ⟨names, tables, ?_, ?_, ?_⟩
      · intro l member d inD
        unfold Database.getGlobalLibraries at member
        rw [flatLibraries_eq] at member
        obtain ⟨root, inRoots, inFlat⟩ := List.mem_flatMap.mp member
        rw [flat_eq] at inFlat
        rcases List.mem_cons.mp inFlat with rfl | nested
        · exact removed_of_whole d.terms (rootDesigns l inRoots d inD).terms
        · exact removed_of_whole d.terms (congrArg Design.terms (inside root inRoots l nested d inD))
      · intro root member l nested d inD
        have same := inside root member l nested d inD
        exact ⟨List.map_eq_nil_iff.mp (congrArg Design.instances same), congrArg Design.nets same⟩
      · by_cases equal : forced = db.id
        · exact Or.inl equal
        · refine Or.inr ⟨top.resolve_right equal, ?_⟩
          intro root member d inD i inI own
          -- the instance comes back with the reference it had
          obtain ⟨i₂, inI₂, ids, model⟩ := (rootDesigns root member d inD).instances
            (i.rebase db.id forced) (List.mem_map_of_mem inI)
          have instances : OrderedBy Instance.id d.instances := by
            refine ((wf.libraries root ?_).contents d inD).instances
            unfold Database.getGlobalLibraries
            rw [flatLibraries_eq]
            exact List.mem_flatMap.mpr ⟨root, member, mem_flat_self root⟩
          obtain rfl := instances.eq_of_key d.instances i i₂ inI inI₂ ids
          have moved : (i.rebase db.id forced).model.dbID = forced := by
            unfold Instance.rebase DesignReference.rebase
            rw [if_pos own]
          rw [model, own] at moved
          exact equal moved.symm

/-- A database comes back from its snapshot if and only if it has nothing that a snapshot loses. -/
theorem snapshot_round_trip : Restored policy u db forced ↔ Faithful db forced :=
  ⟨faithful_of_restored policy u db wf forced fresh, restored_of_faithful policy u db wf forced fresh⟩

end restored

/-- A cell with one input. -/
def cellDesign : Design := ⟨0, "cell", .Standard, none, [], [⟨0, "a", .Input, none, []⟩], [], []⟩

/-- An instance of the cell, with its terminal on a net. -/
def usingDesign : Design :=
  ⟨1, "top", .Standard, none, [], [], [⟨0, "u", ⟨1, 0, 0⟩, []⟩],
    [⟨0, "n", none, [some ⟨.Standard, [.instTerm 0 0 0]⟩]⟩]⟩

def flatDatabase : Database := ⟨1, [.mk 0 "work" .Standard [cellDesign, usingDesign] []], some (0, 1)⟩

theorem cellDesign_wellFormed (models : DesignReference → Option Design) : cellDesign.WellFormed models := by
  constructor <;> simp [cellDesign, OrderedBy, NamesDistinct, Design.isPrimitive, Design.attached]

theorem usingDesign_wellFormed (models : DesignReference → Option Design) (found : models ⟨1, 0, 0⟩ = some cellDesign) :
    usingDesign.WellFormed models := by
  constructor <;>
    simp [usingDesign, OrderedBy, NamesDistinct, Design.isPrimitive, Design.attached, found, Netlist.rangeBits,
      Netlist.width, Design.Has, Design.getInstance, Design.getTerm, cellDesign, Term.getBit]

theorem flatDatabase_wellFormed : flatDatabase.WellFormed [⟨0, [], none⟩] := by
  have global : flatDatabase.getGlobalLibraries = [.mk 0 "work" .Standard [cellDesign, usingDesign] []] := by
    simp [flatDatabase, Database.getGlobalLibraries, flatLibraries, Library.flat]
  have found (id : Nat) : flatDatabase.getSNLDesign 0 id = [cellDesign, usingDesign].find? (fun d => d.id == id) := by
    unfold Database.getSNLDesign Database.getLibrary
    rw [global]
    rfl
  refine ⟨?_, ?_, ?_, ?_⟩
  · rw [global]
    intro l member
    obtain rfl := List.mem_singleton.mp member
    have using_ := usingDesign_wellFormed (flatDatabase.models [⟨0, [], none⟩]) (found 0)
    constructor <;>
      simp [Library.designs, Library.libraries, Library.type, OrderedBy, NamesDistinct, cellDesign_wellFormed, using_]
    all_goals simp [cellDesign, usingDesign]
  · simp [global]
  · simp [flatDatabase, OrderedBy]
  · intro top chosen
    obtain rfl := Option.some.inj chosen
    rw [found]
    rfl

theorem flatDatabase_restored : flatDatabase.WellFormed [⟨0, [], none⟩] ∧
    Restored .PreferExisting [⟨0, [], none⟩] flatDatabase 1 := by
  refine ⟨flatDatabase_wellFormed, ?_⟩
  refine (snapshot_round_trip .PreferExisting [⟨0, [], none⟩] flatDatabase flatDatabase_wellFormed 1 rfl).mpr ?_
  refine ⟨?_, ?_, ?_, ?_, Or.inl rfl⟩
  · simp [flatDatabase, NamesFree]
  · simp [flatDatabase, Library.loadable, Library.type]
  · simp [flatDatabase, Database.getGlobalLibraries, flatLibraries, Library.flat, Library.designs, cellDesign, usingDesign]
  · simp [flatDatabase, Library.libraries]

/-- A library with a net in a design, inside of another library. -/
def nestedDatabase : Database :=
  ⟨1, [.mk 0 "work" .Standard [] [.mk 1 "inner" .Standard
    [⟨0, "top", .Standard, none, [], [], [], [⟨0, "n", none, [some ⟨.Standard, []⟩]⟩]⟩] []]], none⟩

theorem nestedDatabase_wellFormed : nestedDatabase.WellFormed [⟨0, [], none⟩] := by
  refine ⟨?_, ?_, ?_, ?_⟩
  · simp only [nestedDatabase, Database.getGlobalLibraries, flatLibraries, Library.flat, List.append_nil]
    intro l member
    simp only [List.mem_cons, List.not_mem_nil, or_false] at member
    rcases member with rfl | rfl
    · constructor <;> simp [Library.designs, Library.libraries, Library.type, OrderedBy, NamesDistinct]
    · constructor <;> simp [Library.designs, Library.libraries, Library.type, OrderedBy, NamesDistinct]
      constructor <;>
        simp [OrderedBy, NamesDistinct, Design.isPrimitive, Design.attached, Netlist.rangeBits, Netlist.width]
  · simp [nestedDatabase, Database.getGlobalLibraries, flatLibraries, Library.flat, Library.id]
  · simp [nestedDatabase, OrderedBy]
  · simp [nestedDatabase]

/-- The net does not come back. -/
theorem nestedDatabase_lost : nestedDatabase.WellFormed [⟨0, [], none⟩] ∧
    ¬ Restored .PreferExisting [⟨0, [], none⟩] nestedDatabase 1 := by
  refine ⟨nestedDatabase_wellFormed, ?_⟩
  intro restored
  have faithful := faithful_of_restored _ _ _ nestedDatabase_wellFormed 1 rfl restored
  have empty := faithful.inside _ List.mem_cons_self (.mk 1 "inner" .Standard
    [⟨0, "top", .Standard, none, [], [], [], [⟨0, "n", none, [some ⟨.Standard, []⟩]⟩]⟩] []) (by
      simp [Library.libraries, Library.flat, flatLibraries]) _ List.mem_cons_self
  exact absurd empty.2 (by simp)

end Naja.CapnP
