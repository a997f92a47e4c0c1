import Mathlib.Data.List.Basic
import Mathlib.Data.List.Pairwise
import Mathlib.Data.List.Nodup

/-! The objects an owner keeps by ID and by name: an ordered set of those linked
into it, and a map from names to IDs. An insertion under an ID that is taken links
nothing, and an erasure goes by the ID. -/

namespace Naja.Registry

structure Entry (α : Type) where
  object : Nat
  id : Nat
  name : String
  data : α
deriving DecidableEq, Repr

/-- `loose` has the objects that are alive but not linked into the set. -/
structure Index (α : Type) where
  set : List (Entry α)
  loose : List (Entry α)
  names : List (String × Nat)
deriving DecidableEq, Repr

variable {α : Type}

/-- Insertion into the ordered set. -/
def insertEntry (entry : Entry α) : List (Entry α) → List (Entry α)
  | [] => [entry]
  | head :: rest =>
      if entry.id < head.id then entry :: head :: rest
      else if entry.id = head.id then head :: rest
      else head :: insertEntry entry rest

namespace Index
variable (r : Index α)

def empty : Index α := ⟨[], [], []⟩

/-- The entry of an object, linked or not. -/
def entry (object : Nat) : Option (Entry α) := (r.set ++ r.loose).find? (fun e => e.object == object)

def getByID (id : Nat) : Option (Entry α) := r.set.find? (fun e => e.id == id)

def getByName (name : String) : Option (Entry α) := (r.names.lookup name).bind r.getByID

/-- One more than the last ID, in machine arithmetic. -/
def nextID (bound : Nat) : Nat :=
  match r.set.getLast? with
  | none => 0
  | some last => (last.id + 1) % bound

def setName (name : String) (id : Nat) (names : List (String × Nat)) : List (String × Nat) :=
  (name, id) :: names.filter (fun pair => pair.1 != name)

def eraseName (name : String) (names : List (String × Nat)) : List (String × Nat) :=
  names.filter (fun pair => pair.1 != name)

def add (entry : Entry α) : Index α :=
  { set := insertEntry entry r.set
    loose := if (r.getByID entry.id).isSome then entry :: r.loose else r.loose
    names := if entry.name.isEmpty then r.names else setName entry.name entry.id r.names }

/-- What is erased from the set is the member with the ID of the object. -/
def remove (entry : Entry α) : Index α :=
  { set := r.set.filter (fun e => e.id != entry.id)
    loose := (r.set.filter (fun e => e.id == entry.id) ++ r.loose).filter (fun e => e.object != entry.object)
    names := if entry.name.isEmpty then r.names else eraseName entry.name r.names }

def update (object : Nat) (f : Entry α → Entry α) : Index α :=
  { r with
    set := r.set.map (fun e => if e.object = object then f e else e)
    loose := r.loose.map (fun e => if e.object = object then f e else e) }

/-- The name of the object changes, and the key of its node in the map follows. -/
def rename (entry : Entry α) (name : String) : Index α :=
  let renamed := r.update entry.object ({ · with name := name })
  if entry.name.isEmpty then
    if name.isEmpty then renamed
    else { renamed with names := setName name entry.id r.names }
  else
    let kept := eraseName entry.name r.names
    match r.names.lookup entry.name with
    | none => { renamed with names := kept }
    | some id =>
        if name.isEmpty then { renamed with names := kept }
        else { renamed with names := if (kept.lookup name).isSome then kept else (name, id) :: kept }

/-- The data of an object changes. -/
def modify (object : Nat) (f : α → α) : Index α := r.update object (fun e => { e with data := f e.data })

/-- The data of every object changes. -/
def mapData (f : Entry α → α) : Index α :=
  { r with
    set := r.set.map (fun e => { e with data := f e })
    loose := r.loose.map (fun e => { e with data := f e }) }

/-- Every object is linked under its own ID. -/
structure Linked : Prop where
  loose : r.loose = []
  sorted : r.set.Pairwise (fun e e' => e.id < e'.id)
  objects : (r.set.map Entry.object).Nodup

theorem linked_empty : (empty : Index α).Linked := ⟨rfl, List.Pairwise.nil, List.nodup_nil⟩

/-- Every object is linked under its own ID, and the map holds the names in use. -/
structure Sound : Prop where
  loose : r.loose = []
  sorted : r.set.Pairwise (fun e e' => e.id < e'.id)
  objects : (r.set.map Entry.object).Nodup
  keys : (r.names.map Prod.fst).Nodup
  names : ∀ name id, (name, id) ∈ r.names ↔ name ≠ "" ∧ ∃ e ∈ r.set, e.name = name ∧ e.id = id

theorem sound_empty : (empty : Index α).Sound :=
  ⟨rfl, List.Pairwise.nil, List.nodup_nil, List.nodup_nil, by simp [empty]⟩

theorem lookup_iff_of_nodup {β : Type} (pairs : List (String × β)) (keys : (pairs.map Prod.fst).Nodup) (name : String)
    (value : β) : pairs.lookup name = some value ↔ (name, value) ∈ pairs := by
  induction pairs with
  | nil => simp
  | cons pair rest ih =>
      obtain ⟨key, other⟩ := pair
      rw [List.map_cons, List.nodup_cons] at keys
      by_cases hit : name = key
      · subst hit
        rw [List.lookup_cons, beq_self_eq_true]
        simp only [Option.some.injEq, List.mem_cons, Prod.mk.injEq, true_and]
        constructor
        · intro same
          exact Or.inl same.symm
        · intro found
          rcases found with same | inRest
          · exact same.symm
          · exact absurd (List.mem_map.mpr ⟨_, inRest, rfl⟩) keys.1
      · rw [List.lookup_cons, show (name == key) = false by simpa using hit]
        simp only [ih keys.2, List.mem_cons, Prod.mk.injEq, hit, false_and, false_or]

section linked
variable {r} (linked : r.Linked)
include linked

theorem Linked.eq_of_id (e e' : Entry α) (member : e ∈ r.set) (member' : e' ∈ r.set) (same : e.id = e'.id) :
    e = e' := by
  have ids : (r.set.map Entry.id).Nodup := List.pairwise_map.mpr (linked.sorted.imp Nat.ne_of_lt)
  exact List.inj_on_of_nodup_map ids member member' same

theorem Linked.eq_of_object (e e' : Entry α) (member : e ∈ r.set) (member' : e' ∈ r.set)
    (same : e.object = e'.object) : e = e' := List.inj_on_of_nodup_map linked.objects member member' same

theorem Linked.getByID_iff (id : Nat) (e : Entry α) : r.getByID id = some e ↔ e ∈ r.set ∧ e.id = id := by
  constructor
  · intro found
    have hit := List.find?_some found
    exact ⟨List.mem_of_find?_eq_some found, by simpa using hit⟩
  · intro found
    obtain ⟨member, rfl⟩ := found
    have some_ : (r.getByID e.id).isSome := List.find?_isSome.mpr ⟨e, member, by simp⟩
    obtain ⟨other, there⟩ := Option.isSome_iff_exists.mp some_
    have hit : other.id = e.id := by simpa using List.find?_some there
    rw [there, linked.eq_of_id other e (List.mem_of_find?_eq_some there) member hit]

theorem Linked.entry_iff (object : Nat) (e : Entry α) : r.entry object = some e ↔ e ∈ r.set ∧ e.object = object := by
  unfold entry
  rw [linked.loose, List.append_nil]
  constructor
  · intro found
    have hit := List.find?_some found
    exact ⟨List.mem_of_find?_eq_some found, by simpa using hit⟩
  · intro found
    obtain ⟨member, rfl⟩ := found
    have some_ : (r.set.find? (fun x => x.object == e.object)).isSome :=
      List.find?_isSome.mpr ⟨e, member, by simp⟩
    obtain ⟨other, there⟩ := Option.isSome_iff_exists.mp some_
    have hit : other.object = e.object := by simpa using List.find?_some there
    rw [there, linked.eq_of_object other e (List.mem_of_find?_eq_some there) member hit]

/-- A free ID is what the check before a creation finds. -/
theorem Linked.free_id (id : Nat) (none : r.getByID id = none) : ∀ e ∈ r.set, e.id ≠ id := by
  intro e member same
  rw [(linked.getByID_iff id e).mpr ⟨member, same⟩] at none
  contradiction

end linked

section sound
variable {r} (sound : r.Sound)
include sound

theorem Sound.linked : r.Linked := ⟨sound.loose, sound.sorted, sound.objects⟩

theorem Sound.eq_of_id (e e' : Entry α) (member : e ∈ r.set) (member' : e' ∈ r.set) (same : e.id = e'.id) :
    e = e' := sound.linked.eq_of_id e e' member member' same

theorem Sound.eq_of_object (e e' : Entry α) (member : e ∈ r.set) (member' : e' ∈ r.set)
    (same : e.object = e'.object) : e = e' := sound.linked.eq_of_object e e' member member' same

theorem Sound.getByID_iff (id : Nat) (e : Entry α) : r.getByID id = some e ↔ e ∈ r.set ∧ e.id = id :=
  sound.linked.getByID_iff id e

theorem Sound.entry_iff (object : Nat) (e : Entry α) : r.entry object = some e ↔ e ∈ r.set ∧ e.object = object :=
  sound.linked.entry_iff object e

theorem Sound.eq_of_name (e e' : Entry α) (member : e ∈ r.set) (member' : e' ∈ r.set) (same : e.name = e'.name)
    (named : e.name ≠ "") : e = e' := by
  have first := (sound.names e.name e.id).mpr ⟨named, e, member, rfl, rfl⟩
  have second := (sound.names e.name e'.id).mpr ⟨named, e', member', same.symm, rfl⟩
  have pairs := List.inj_on_of_nodup_map sound.keys first second rfl
  exact sound.eq_of_id e e' member member' (congrArg Prod.snd pairs)

theorem Sound.getByName_iff (name : String) (named : name ≠ "") (e : Entry α) :
    r.getByName name = some e ↔ e ∈ r.set ∧ e.name = name := by
  unfold getByName
  rw [Option.bind_eq_some_iff]
  constructor
  · intro found
    obtain ⟨id, mapped, there⟩ := found
    rw [lookup_iff_of_nodup r.names sound.keys] at mapped
    obtain ⟨-, other, member, rfl, sameID⟩ := (sound.names name id).mp mapped
    obtain ⟨member', here⟩ := (sound.getByID_iff id e).mp there
    rw [sound.eq_of_id e other member' member (here.trans sameID.symm)]
    exact ⟨member, rfl⟩
  · intro found
    obtain ⟨member, rfl⟩ := found
    refine ⟨e.id, ?_, (sound.getByID_iff e.id e).mpr ⟨member, rfl⟩⟩
    rw [lookup_iff_of_nodup r.names sound.keys]
    exact (sound.names e.name e.id).mpr ⟨named, e, member, rfl, rfl⟩

theorem Sound.free_id (id : Nat) (none : r.getByID id = none) : ∀ e ∈ r.set, e.id ≠ id := sound.linked.free_id id none

theorem Sound.free_name (name : String) (named : name ≠ "") (none : r.getByName name = none) :
    ∀ e ∈ r.set, e.name ≠ name := by
  intro e member same
  rw [(sound.getByName_iff name named e).mpr ⟨member, same⟩] at none
  contradiction

end sound

theorem insertEntry_perm (entry : Entry α) (entries : List (Entry α)) (free : ∀ e ∈ entries, e.id ≠ entry.id) :
    (insertEntry entry entries).Perm (entry :: entries) := by
  induction entries with
  | nil => exact List.Perm.refl _
  | cons head rest ih =>
      unfold insertEntry
      have other := free head List.mem_cons_self
      split
      · exact List.Perm.refl _
      · rw [if_neg (Ne.symm other)]
        have later := ih (fun e member => free e (List.mem_cons_of_mem _ member))
        exact (List.Perm.cons head later).trans (List.Perm.swap entry head rest)

theorem insertEntry_sorted (entry : Entry α) (entries : List (Entry α))
    (sorted : entries.Pairwise (fun e e' => e.id < e'.id)) (free : ∀ e ∈ entries, e.id ≠ entry.id) :
    (insertEntry entry entries).Pairwise (fun e e' => e.id < e'.id) := by
  induction entries with
  | nil => exact List.pairwise_singleton _ _
  | cons head rest ih =>
      have other := free head List.mem_cons_self
      have freeRest (e : Entry α) (member : e ∈ rest) := free e (List.mem_cons_of_mem _ member)
      rw [List.pairwise_cons] at sorted
      unfold insertEntry
      split
      · next first =>
          rw [List.pairwise_cons]
          refine ⟨?_, List.pairwise_cons.mpr sorted⟩
          intro e member
          rcases List.mem_cons.mp member with rfl | inRest
          · exact first
          · exact Nat.lt_trans first (sorted.1 e inRest)
      · rw [if_neg (Ne.symm other), List.pairwise_cons]
        refine ⟨?_, ih sorted.2 freeRest⟩
        intro e member
        rcases List.mem_cons.mp ((insertEntry_perm entry rest freeRest).mem_iff.mp member) with rfl | inRest
        · omega
        · exact sorted.1 e inRest

theorem names_add (entry : Entry α) :
    (r.add entry).names = if entry.name.isEmpty then r.names else setName entry.name entry.id r.names := rfl

theorem names_remove (entry : Entry α) :
    (r.remove entry).names = if entry.name.isEmpty then r.names else eraseName entry.name r.names := rfl

section linkedAdd
variable {r} (entry : Entry α) (free : ∀ e ∈ r.set, e.id ≠ entry.id)
include free

theorem mem_add (e : Entry α) : e ∈ (r.add entry).set ↔ e = entry ∨ e ∈ r.set := by
  change e ∈ insertEntry entry r.set ↔ _
  rw [(insertEntry_perm entry r.set free).mem_iff, List.mem_cons]

theorem linked_add (linked : r.Linked) (fresh : ∀ e ∈ r.set, e.object ≠ entry.object) : (r.add entry).Linked := by
  have perm := insertEntry_perm entry r.set free
  have absent : r.getByID entry.id = none := by
    by_contra present
    obtain ⟨e, there⟩ := Option.ne_none_iff_exists'.mp present
    obtain ⟨member, same⟩ := (linked.getByID_iff _ e).mp there
    exact free e member same
  refine ⟨?_, insertEntry_sorted entry r.set linked.sorted free, ?_⟩
  · unfold add
    simp [absent, linked.loose]
  · refine ((perm.map Entry.object).nodup_iff).mpr ?_
    rw [List.map_cons, List.nodup_cons]
    refine ⟨?_, linked.objects⟩
    intro present
    obtain ⟨e, member, same⟩ := List.mem_map.mp present
    exact fresh e member same

end linkedAdd

section add
variable {r} (sound : r.Sound) (entry : Entry α) (free : ∀ e ∈ r.set, e.id ≠ entry.id)
include sound free

theorem sound_add (fresh : ∀ e ∈ r.set, e.object ≠ entry.object)
    (unused : entry.name ≠ "" → ∀ e ∈ r.set, e.name ≠ entry.name) : (r.add entry).Sound := by
  have linked := linked_add entry free sound.linked fresh
  refine ⟨linked.loose, linked.sorted, linked.objects, ?_, ?_⟩
  · rw [names_add]
    split
    · exact sound.keys
    · unfold setName
      rw [List.map_cons, List.nodup_cons]
      refine ⟨?_, sound.keys.sublist (List.filter_sublist.map _)⟩
      intro present
      obtain ⟨pair, member, same⟩ := List.mem_map.mp present
      have other := (List.mem_filter.mp member).2
      simp [same] at other
  · intro name id
    have members : (∃ e ∈ (r.add entry).set, e.name = name ∧ e.id = id) ↔
        (entry.name = name ∧ entry.id = id) ∨ ∃ e ∈ r.set, e.name = name ∧ e.id = id := by
      simp only [mem_add entry free, or_and_right, exists_or, exists_eq_left]
    rw [members, names_add]
    by_cases anonymous : entry.name = ""
    · rw [if_pos (by simpa using anonymous), sound.names]
      constructor
      · intro found
        exact ⟨found.1, Or.inr found.2⟩
      · intro found
        obtain ⟨named, here | there⟩ := found
        · exact absurd (here.1.symm.trans anonymous) named
        · exact ⟨named, there⟩
    · rw [if_neg (by simpa using anonymous)]
      unfold setName
      rw [List.mem_cons, List.mem_filter, sound.names, Prod.mk.injEq]
      constructor
      · intro found
        rcases found with ⟨rfl, rfl⟩ | ⟨⟨named, there⟩, -⟩
        · exact ⟨anonymous, Or.inl ⟨rfl, rfl⟩⟩
        · exact ⟨named, Or.inr there⟩
      · intro found
        obtain ⟨named, here | there⟩ := found
        · exact Or.inl ⟨here.1.symm, here.2.symm⟩
        · refine Or.inr ⟨⟨named, there⟩, ?_⟩
          obtain ⟨e, member, same, -⟩ := there
          have other := unused anonymous e member
          rw [same] at other
          simpa using other

end add

section linkedRemove
variable {r} (entry : Entry α) (member : entry ∈ r.set)
include member

theorem Linked.mem_remove (linked : r.Linked) (e : Entry α) : e ∈ (r.remove entry).set ↔ e ∈ r.set ∧ e ≠ entry := by
  change e ∈ r.set.filter (fun e => e.id != entry.id) ↔ _
  rw [List.mem_filter]
  refine and_congr_right ?_
  intro there
  rw [bne_iff_ne]
  constructor
  · intro other same
    exact other (congrArg Entry.id same)
  · intro other same
    exact other (linked.eq_of_id e entry there member same)

theorem linked_remove (linked : r.Linked) : (r.remove entry).Linked := by
  refine ⟨?_, linked.sorted.sublist List.filter_sublist, linked.objects.sublist (List.filter_sublist.map _)⟩
  change (r.set.filter (fun e => e.id == entry.id) ++ r.loose).filter (fun e => e.object != entry.object) = []
  rw [linked.loose, List.append_nil, List.filter_eq_nil_iff]
  intro e found
  obtain ⟨there, same⟩ := List.mem_filter.mp found
  rw [linked.eq_of_id e entry there member (by simpa using same)]
  simp

end linkedRemove

section remove
variable {r} (sound : r.Sound) (entry : Entry α) (member : entry ∈ r.set)
include sound member

theorem mem_remove (e : Entry α) : e ∈ (r.remove entry).set ↔ e ∈ r.set ∧ e ≠ entry :=
  sound.linked.mem_remove entry member e

theorem sound_remove : (r.remove entry).Sound := by
  have linked := linked_remove entry member sound.linked
  refine ⟨linked.loose, linked.sorted, linked.objects, ?_, ?_⟩
  · rw [names_remove]
    split
    · exact sound.keys
    · exact sound.keys.sublist (List.filter_sublist.map _)
  · intro name id
    simp only [mem_remove sound entry member, names_remove]
    by_cases anonymous : entry.name = ""
    · rw [if_pos (by simpa using anonymous), sound.names]
      refine and_congr_right ?_
      intro named
      constructor
      · intro found
        obtain ⟨e, there, same, sameID⟩ := found
        refine ⟨e, ⟨there, ?_⟩, same, sameID⟩
        intro hit
        rw [hit, anonymous] at same
        exact named same.symm
      · intro found
        obtain ⟨e, ⟨there, -⟩, rest⟩ := found
        exact ⟨e, there, rest⟩
    · rw [if_neg (by simpa using anonymous)]
      unfold eraseName
      rw [List.mem_filter, sound.names, and_assoc]
      refine and_congr_right ?_
      intro named
      constructor
      · intro found
        obtain ⟨⟨e, there, same, sameID⟩, other⟩ := found
        refine ⟨e, ⟨there, ?_⟩, same, sameID⟩
        intro hit
        rw [← same, hit] at other
        simp at other
      · intro found
        obtain ⟨e, ⟨there, different⟩, same, sameID⟩ := found
        refine ⟨⟨e, there, same, sameID⟩, ?_⟩
        rw [bne_iff_ne]
        intro hit
        refine different (sound.eq_of_name e entry there member (same.trans hit) ?_)
        rw [same]
        exact named

end remove


section update
variable (object : Nat) (f : Entry α → Entry α)

theorem mem_update (e : Entry α) :
    e ∈ (r.update object f).set ↔ ∃ x ∈ r.set, (if x.object = object then f x else x) = e := List.mem_map

/-- The set keeps its order when IDs and addresses stay. -/
theorem sound_update (sound : r.Sound) (id : ∀ x, (f x).id = x.id) (address : ∀ x, (f x).object = x.object)
    (names : List (String × Nat)) (keys : (names.map Prod.fst).Nodup)
    (exact : ∀ name id, (name, id) ∈ names ↔ name ≠ "" ∧ ∃ e ∈ (r.update object f).set, e.name = name ∧ e.id = id) :
    ({ r.update object f with names := names } : Index α).Sound := by
  have ids (x : Entry α) : (if x.object = object then f x else x).id = x.id := by
    split
    · exact id x
    · rfl
  have objects (x : Entry α) : (if x.object = object then f x else x).object = x.object := by
    split
    · exact address x
    · rfl
  refine ⟨?_, ?_, ?_, keys, exact⟩
  · change r.loose.map _ = []
    rw [sound.loose, List.map_nil]
  · refine List.pairwise_map.mpr (sound.sorted.imp ?_)
    intro e e' less
    rw [ids, ids]
    exact less
  · change ((r.set.map _).map Entry.object).Nodup
    rw [List.map_map]
    have same : Entry.object ∘ (fun x => if x.object = object then f x else x) = Entry.object := funext objects
    rw [same]
    exact sound.objects

/-- A change of the data leaves IDs and names as they are. -/
theorem sound_modify (sound : r.Sound) (g : α → α) : (r.modify object g).Sound := by
  refine sound_update r object (fun e => { e with data := g e.data }) sound (fun _ => rfl) (fun _ => rfl) r.names
    sound.keys ?_
  intro name id
  rw [sound.names]
  refine and_congr_right ?_
  intro _
  simp only [mem_update, exists_exists_and_eq_and]
  refine exists_congr ?_
  intro x
  split <;> exact Iff.rfl

theorem mem_modify (g : α → α) (e : Entry α) :
    e ∈ (r.modify object g).set ↔ ∃ x ∈ r.set, (if x.object = object then { x with data := g x.data } else x) = e :=
  List.mem_map

end update

theorem mem_mapData (f : Entry α → α) (e : Entry α) :
    e ∈ (r.mapData f).set ↔ ∃ x ∈ r.set, { x with data := f x } = e := List.mem_map

theorem sound_mapData (sound : r.Sound) (f : Entry α → α) : (r.mapData f).Sound := by
  refine ⟨?_, List.pairwise_map.mpr sound.sorted, ?_, sound.keys, ?_⟩
  · change r.loose.map _ = []
    rw [sound.loose, List.map_nil]
  · change ((r.set.map _).map Entry.object).Nodup
    rw [List.map_map]
    exact sound.objects
  · intro name id
    refine (sound.names name id).trans (and_congr_right ?_)
    intro _
    simp only [mem_mapData, exists_exists_and_eq_and]

theorem mem_rename (entry : Entry α) (name : String) (e : Entry α) :
    e ∈ (r.rename entry name).set ↔
      ∃ x ∈ r.set, (if x.object = entry.object then { x with name := name } else x) = e := by
  have same : (r.rename entry name).set = (r.update entry.object ({ · with name := name })).set := by
    unfold rename
    split
    · split <;> rfl
    · split
      · rfl
      · split <;> rfl
  rw [same]
  exact List.mem_map

section rename
variable {r} (sound : r.Sound) (entry : Entry α) (member : entry ∈ r.set) (name : String)
include sound member

theorem mem_renamed (e : Entry α) :
    e ∈ (r.update entry.object ({ · with name := name })).set ↔
      e ∈ r.set ∧ e ≠ entry ∨ e = { entry with name := name } := by
  rw [mem_update]
  constructor
  · intro found
    obtain ⟨x, there, same⟩ := found
    split at same
    · next hit =>
        rw [sound.eq_of_object x entry there member hit] at same
        exact Or.inr same.symm
    · next other =>
        subst same
        refine Or.inl ⟨there, ?_⟩
        intro hit
        exact other (congrArg Entry.object hit)
  · intro found
    rcases found with ⟨there, different⟩ | rfl
    · refine ⟨e, there, if_neg ?_⟩
      intro hit
      exact different (sound.eq_of_object e entry there member hit)
    · exact ⟨entry, member, if_pos rfl⟩

/-- The names after a rename to a name that is free. -/
theorem names_rename (free : name ≠ "" → ∀ e ∈ r.set, e.name ≠ name) :
    (r.rename entry name).names = (if name.isEmpty then [] else [(name, entry.id)]) ++
      (if entry.name.isEmpty then r.names else eraseName entry.name r.names) ∨
      entry.name = "" ∧ name ≠ "" ∧ (r.rename entry name).names = (name, entry.id) :: eraseName name r.names := by
  unfold rename
  by_cases anonymous : entry.name = ""
  · by_cases clear : name = ""
    · simp [anonymous, clear, update]
    · exact Or.inr ⟨anonymous, clear, by simp [anonymous, clear, setName, eraseName]⟩
  · have mapped : r.names.lookup entry.name = some entry.id := by
      rw [lookup_iff_of_nodup r.names sound.keys]
      exact (sound.names _ _).mpr ⟨anonymous, entry, member, rfl, rfl⟩
    by_cases clear : name = ""
    · simp [anonymous, clear, mapped]
    · have unused : (eraseName entry.name r.names).lookup name = none := by
        by_contra present
        obtain ⟨id, found⟩ := Option.ne_none_iff_exists'.mp present
        have keys : ((eraseName entry.name r.names).map Prod.fst).Nodup :=
          sound.keys.sublist (List.filter_sublist.map _)
        rw [lookup_iff_of_nodup _ keys] at found
        obtain ⟨-, e, there, same, -⟩ := (sound.names name id).mp (List.mem_filter.mp found).1
        exact free clear e there same
      simp [anonymous, clear, mapped, unused]

theorem sound_rename (free : name ≠ "" → ∀ e ∈ r.set, e.name ≠ name) : (r.rename entry name).Sound := by
  have erased (n : String) (id : Nat) : (n, id) ∈ (if entry.name.isEmpty then r.names else eraseName entry.name r.names) ↔
      n ≠ "" ∧ ∃ e ∈ r.set, e ≠ entry ∧ e.name = n ∧ e.id = id := by
    have after := (sound_remove sound entry member).names n id
    rw [names_remove] at after
    simpa only [mem_remove sound entry member, and_assoc] using after
  have shape : ∃ names, r.rename entry name = { r.update entry.object ({ · with name := name }) with names := names } := by
    unfold rename
    split
    · split
      · exact ⟨r.names, rfl⟩
      · exact ⟨_, rfl⟩
    · split
      · exact ⟨_, rfl⟩
      · split
        · exact ⟨_, rfl⟩
        · exact ⟨_, rfl⟩
  obtain ⟨names, renamed⟩ := shape
  have namesEq : names = (r.rename entry name).names := by rw [renamed]
  rw [renamed]
  have exact (n : String) (id : Nat) : (n, id) ∈ (r.rename entry name).names ↔
      (name ≠ "" ∧ n = name ∧ id = entry.id) ∨ n ≠ "" ∧ ∃ e ∈ r.set, e ≠ entry ∧ e.name = n ∧ e.id = id := by
    rcases names_rename sound entry member name free with same | ⟨anonymous, named, same⟩
    · rw [same, List.mem_append, erased]
      refine or_congr_left ?_
      by_cases clear : name = "" <;> simp [clear]
    · rw [same, List.mem_cons, Prod.mk.injEq]
      have others : (n, id) ∈ eraseName name r.names ↔
          (n, id) ∈ (if entry.name.isEmpty then r.names else eraseName entry.name r.names) := by
        rw [if_pos (by simpa using anonymous)]
        unfold eraseName
        rw [List.mem_filter]
        refine and_iff_left_of_imp ?_
        intro found
        obtain ⟨-, e, there, sameName, -⟩ := (sound.names n id).mp found
        have other := free named e there
        rw [sameName] at other
        simpa using other
      rw [others, erased]
      simp [named]
  refine sound_update r entry.object ({ · with name := name }) sound (fun _ => rfl) (fun _ => rfl) names ?_ ?_
  · rw [namesEq]
    rcases names_rename sound entry member name free with same | ⟨anonymous, named, same⟩
    · have kept : (((if entry.name.isEmpty then r.names else eraseName entry.name r.names)).map Prod.fst).Nodup :=
        (sound_remove sound entry member).keys
      rw [same]
      by_cases clear : name = ""
      · simpa [clear] using kept
      · rw [if_neg (by simpa using clear), List.singleton_append, List.map_cons, List.nodup_cons]
        refine ⟨?_, kept⟩
        intro present
        obtain ⟨⟨n, id⟩, found, hit⟩ := List.mem_map.mp present
        obtain ⟨-, e, there, -, sameName, -⟩ := (erased n id).mp found
        exact free clear e there (sameName.trans hit)
    · rw [same, List.map_cons, List.nodup_cons]
      refine ⟨?_, sound.keys.sublist (List.filter_sublist.map _)⟩
      intro present
      obtain ⟨pair, found, hit⟩ := List.mem_map.mp present
      have other := (List.mem_filter.mp found).2
      simp [hit] at other
  · intro n id
    rw [namesEq, exact n id]
    simp only [mem_renamed sound entry member, or_and_right, exists_or, exists_eq_left, and_assoc]
    constructor
    · intro found
      rcases found with ⟨named, rfl, rfl⟩ | ⟨named, there⟩
      · exact ⟨named, Or.inr ⟨rfl, rfl⟩⟩
      · exact ⟨named, Or.inl there⟩
    · intro found
      obtain ⟨named, there | ⟨rfl, rfl⟩⟩ := found
      · exact Or.inr ⟨named, there⟩
      · exact Or.inl ⟨named, rfl, rfl⟩

end rename

/-- Copies of the objects under the same IDs and names. -/
def copy (f : Entry α → Entry α) : Index α := ⟨r.set.map f, [], r.names⟩

theorem sound_copy (sound : r.Sound) (f : Entry α → Entry α) (id : ∀ x, (f x).id = x.id)
    (name : ∀ x, (f x).name = x.name)
    (address : ∀ x ∈ r.set, ∀ y ∈ r.set, (f x).object = (f y).object → x.object = y.object) : (r.copy f).Sound := by
  refine ⟨rfl, ?_, ?_, sound.keys, ?_⟩
  · refine List.pairwise_map.mpr (sound.sorted.imp ?_)
    intro e e' less
    rw [id, id]
    exact less
  · change ((r.set.map f).map Entry.object).Nodup
    rw [List.map_map]
    refine List.Nodup.map_on ?_ (List.Nodup.of_map _ sound.objects)
    intro x inX y inY same
    exact sound.eq_of_object x y inX inY (address x inX y inY same)
  · intro n i
    refine (sound.names n i).trans (and_congr_right ?_)
    intro _
    constructor
    · intro found
      obtain ⟨e, member, rfl, rfl⟩ := found
      exact ⟨f e, List.mem_map.mpr ⟨e, member, rfl⟩, name e, id e⟩
    · intro found
      obtain ⟨e', member', sameName, sameID⟩ := found
      obtain ⟨e, member, rfl⟩ := List.mem_map.mp member'
      exact ⟨e, member, (name e).symm.trans sameName, (id e).symm.trans sameID⟩

end Index

end Naja.Registry
