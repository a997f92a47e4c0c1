import Naja.CapnP.WellFormed

/-! Reading the interface of a database that was written: all libraries come back
with their designs as far as the interface tells, unless a root library has the name of
one that was read before it or the truth tables of a primitive cannot be read. -/

namespace Naja.CapnP
open Naja.Netlist (Parameter InstParameter rangeBits)
open Naja.Registry

theorem loadName_dumpName (name : String) : loadName (dumpName name) = name := by
  unfold loadName dumpName
  split
  · next blank => exact (String.isEmpty_iff.mp blank).symm
  · rfl

/-- What is created last, under a new name. -/
theorem create_last {α : Type} (id : α → Nat) (name : α → String) (nameTaken idTaken : LoadError) (xs : List α) (x : α)
    (below : ∀ y ∈ xs, id y < id x) (names : ∀ y ∈ xs, name y ≠ "" → name y ≠ name x) :
    create id name nameTaken idTaken xs x = .ok (xs ++ [x]) := by
  have freeName : ¬ (¬ (name x).isEmpty ∧ xs.any (fun y => name y == name x)) := by
    intro taken
    obtain ⟨y, member, same⟩ := List.any_eq_true.mp taken.2
    have equal : name y = name x := by simpa using same
    have named : name x ≠ "" := by simpa using taken.1
    exact names y member (equal ▸ named) equal
  have freeID : ¬ xs.any (fun y => id y == id x) := by
    intro taken
    obtain ⟨y, member, same⟩ := List.any_eq_true.mp taken
    have equal : id y = id x := by simpa using same
    exact absurd (below y member) (by omega)
  unfold create
  rw [if_neg freeName, if_neg freeID, insertByKey_last x xs below]

theorem NamesDistinct.before {α : Type} {name : α → String} (before after : List α) (x : α)
    (distinct : NamesDistinct name (before ++ x :: after)) : ∀ y ∈ before, name y ≠ "" → name y ≠ name x := by
  intro y member
  exact (List.pairwise_append.mp distinct).2.2 y member x List.mem_cons_self

section design
variable (models : DesignReference → Option Design) (d : Design) (wf : d.WellFormed models)
include wf

theorem loadTerms_dump : (d.terms.map dumpTerm).foldlM loadTerm [] = .ok (d.terms.map Term.whole) := by
  refine foldlM_dump dumpTerm loadTerm (List.map Term.whole) d.terms ?_
  intro before t after parts
  have ordered := wf.terms
  have names := wf.termNames
  rw [parts] at ordered names
  have step : loadTerm (before.map Term.whole) (dumpTerm t) =
      create Term.id Term.name .termName .termID (before.map Term.whole) t.whole := by
    unfold dumpTerm
    split
    · next scalar =>
        simp only [loadTerm, loadName_dumpName, Term.whole, scalar]
    · next msb lsb bus =>
        simp only [loadTerm, loadName_dumpName, Term.whole, bus]
  rw [step, List.map_append]
  apply create_last
  · intro y member
    obtain ⟨t', inside, rfl⟩ := List.mem_map.mp member
    exact ordered.below before after t t' inside
  · intro y member
    obtain ⟨t', inside, rfl⟩ := List.mem_map.mp member
    exact names.before before after t t' inside

theorem loadParameters_dump : d.parameters.foldlM loadDesignParameter [] = .ok d.parameters := by
  have loop := foldlM_dump id loadDesignParameter id d.parameters ?_
  · rwa [List.map_id] at loop
  · intro before p after parts
    have ordered := wf.parameters
    rw [parts] at ordered
    have below := ordered.below before after p
    have free : ¬ (before.any (fun q => q.name == p.name)) := by
      intro taken
      obtain ⟨q, member, same⟩ := List.any_eq_true.mp taken
      have equal : q.name = p.name := by simpa using same
      exact absurd equal (ne_of_lt (below q member))
    rw [id, id, loadDesignParameter, if_neg free, insertByKey_last p before below]
    rfl

end design

/-- The designs of a library, when their types are those it may have. -/
theorem loadDesigns_dump (models : DesignReference → Option Design) (l : Library) (wf : l.WellFormed models)
    (types : ∀ d ∈ l.designs, d.type = .Primitive ↔ l.type = .Primitives) :
    (l.designs.map dumpDesignInterface).foldlM (loadDesignInterface l.type) [] = .ok (l.designs.map Design.bare) := by
  refine foldlM_dump dumpDesignInterface (loadDesignInterface l.type) (List.map Design.bare) l.designs ?_
  intro before d after parts
  have member : d ∈ l.designs := by rw [parts]; simp
  have ordered := wf.designs
  have names := wf.designNames
  rw [parts] at ordered names
  have below := ordered.below before after d
  have contents := wf.contents d member
  have type : ¬ ((d.type = .Primitive) ≠ (l.type = .Primitives)) := not_not.mpr (propext (types d member))
  have created : create Design.id Design.name .designName .designID (before.map Design.bare)
      ⟨d.id, d.name, d.type, none, [], [], [], []⟩ =
        .ok (before.map Design.bare ++ [⟨d.id, d.name, d.type, none, [], [], [], []⟩]) := by
    apply create_last
    · intro y inside
      obtain ⟨d', there, rfl⟩ := List.mem_map.mp inside
      exact below d' there
    · intro y inside
      obtain ⟨d', there, rfl⟩ := List.mem_map.mp inside
      exact names.before before after d d' there
  simp only [loadDesignInterface, dumpDesignInterface, bind, Except.bind, pure, Except.pure, loadName_dumpName]
  rw [if_neg type]
  simp only [created, loadParameters_dump models d contents, loadTerms_dump models d contents]
  have kept : (before.map Design.bare).map (fun d' => if d'.id = d.id then
      { d' with property := d.property, parameters := d.parameters, terms := d.terms.map Term.whole } else d') =
        before.map Design.bare := by
    refine (List.map_congr_left ?_).trans (List.map_id _)
    intro d' inside
    obtain ⟨d₀, there, rfl⟩ := List.mem_map.mp inside
    exact if_neg (ne_of_lt (below d₀ there))
  rw [List.map_append, List.map_singleton, List.map_append, List.map_singleton]
  exact congrArg Except.ok (congrArg₂ (· ++ ·) kept (congrArg List.singleton (if_pos rfl)))

/-! ### Libraries -/

theorem id_bare (l : Library) : l.bare.id = l.id := by
  cases l
  rw [Library.bare]
  rfl

theorem name_bare (l : Library) : l.bare.name = l.name := by
  cases l
  rw [Library.bare]
  rfl

theorem type_bare (l : Library) : l.bare.type = l.type := by
  cases l
  rw [Library.bare]
  rfl

theorem designs_bare (l : Library) : l.bare.designs = l.designs.map Design.bare := by
  cases l
  rw [Library.bare]
  rfl

theorem flat_bare (l : Library) : l.bare.flat = l.flat.map Library.bare := by
  induction l using Library.induct with
  | step id name type designs libraries ih =>
      rw [flat_eq (.mk id name type designs libraries), List.map_cons, Library.bare, flat_eq]
      simp only [Library.libraries, bareLibraries_eq, List.flatMap_map, List.map_flatMap]
      rw [List.flatMap_congr ih]

/-- A library of primitives has only primitives, and their truth tables can be read. -/
def Library.loadable (l : Library) : Bool :=
  l.type != .Primitives || l.flat.all (fun inside => inside.designs.all (fun d => d.isPrimitive && d.bare.readable))

theorem loadable_iff (l : Library) : l.loadable = true ↔ (l.type = .Primitives →
    ∀ inside ∈ l.flat, ∀ d ∈ inside.designs, d.type = .Primitive ∧ d.bare.readable = true) := by
  unfold Library.loadable Design.isPrimitive
  by_cases primitives : l.type = .Primitives <;> simp [primitives]

/-- Of what is read, only the interface counts. -/
theorem construct_bare (l : Library) : construct l.bare = .ok () ↔
    (l.type = .Primitives → ∀ inside ∈ l.flat, ∀ d ∈ inside.designs, d.bare.readable = true) := by
  have all : l.bare.flat.all (fun inside => inside.designs.all Design.readable) =
      l.flat.all (fun inside => inside.designs.all (fun d => d.bare.readable)) := by
    rw [flat_bare, List.all_map]
    congr 1
    funext inside
    rw [Function.comp, designs_bare, List.all_map]
    rfl
  unfold construct
  rw [all, type_bare]
  by_cases primitives : l.type = .Primitives
  · by_cases readable : l.flat.all (fun inside => inside.designs.all (fun d => d.bare.readable)) = true
    · rw [if_neg (fun broken => broken.2 readable)]
      simpa [primitives] using readable
    · rw [if_pos ⟨primitives, readable⟩]
      simpa [primitives] using readable
  · rw [if_neg (fun broken => primitives broken.1)]
    simp [primitives]

/-- The designs come back if and only if their types are those the library may have. -/
theorem loadDesigns_iff (models : DesignReference → Option Design) (l : Library) (wf : l.WellFormed models)
    (result : List Design) :
    (l.designs.map dumpDesignInterface).foldlM (loadDesignInterface l.type) [] = .ok result ↔
      (∀ d ∈ l.designs, d.type = .Primitive ↔ l.type = .Primitives) ∧ result = l.designs.map Design.bare := by
  constructor
  · intro ran
    have types (d : Design) (member : d ∈ l.designs) : d.type = .Primitive ↔ l.type = .Primitives := by
      obtain ⟨t, t', step⟩ := foldlM_passed _ _ _ _ ran (dumpDesignInterface d) (List.mem_map_of_mem member)
      unfold loadDesignInterface at step
      simp only [bind, Except.bind, throw, throwThe, MonadExceptOf.throw] at step
      split at step
      · contradiction
      · next same => exact iff_of_eq (not_not.mp same)
    refine ⟨types, ?_⟩
    rw [loadDesigns_dump models l wf types] at ran
    exact (Except.ok.inj ran).symm
  · intro both
    rw [both.2]
    exact loadDesigns_dump models l wf both.1

/-- The state once some libraries were read, in this order. -/
def Known.with (known : Known) (ls : List Library) : Known :=
  ⟨(ls.map Library.id).reverse ++ known.ids, (ls.map Library.name).reverse ++ known.names⟩

theorem Known.with_append (known : Known) (ls ls' : List Library) : known.with (ls ++ ls') = (known.with ls).with ls' := by
  simp [Known.with]

section libraries
variable (policy : PrimitiveConflictPolicy) (models : DesignReference → Option Design)

/-- One library, once the checks of its creation are passed. -/
def Reads (l : Library) : Prop :=
  ∀ (parent : Option LibraryType) (siblings : List Library) (known : Known),
    (∀ inside ∈ l.flat, inside.WellFormed models) → (l.flat.map Library.id).Nodup →
    (∀ inside ∈ l.flat, inside.id ∉ known.ids) → (∀ y ∈ siblings, y.id < l.id) →
    checkLibrary parent siblings known l.id l.name l.type = .ok () →
    ∀ result, loadLibraryInterface policy parent siblings known (dumpLibraryInterface l) = .ok result ↔
      l.loadable = true ∧ result = (siblings ++ [l.bare], known.with l.flat)

/-- The libraries inside of another one. -/
theorem loadInside (type : LibraryType) (before ls : List Library) (reads : ∀ l ∈ ls, Reads policy models l)
    (wf : ∀ l ∈ ls, ∀ inside ∈ l.flat, inside.WellFormed models) (known : Known)
    (ids : ((ls.flatMap Library.flat).map Library.id).Nodup)
    (fresh : ∀ inside ∈ ls.flatMap Library.flat, inside.id ∉ known.ids)
    (ordered : OrderedBy Library.id (before ++ ls)) (names : NamesDistinct Library.name (before ++ ls))
    (types : ∀ l ∈ ls, l.type = type) (result : List Library × Known) :
    loadLibraryInterfaces policy (some type) (before.map Library.bare) known (ls.map dumpLibraryInterface) = .ok result ↔
      (∀ l ∈ ls, l.loadable = true) ∧
        result = ((before ++ ls).map Library.bare, known.with (ls.flatMap Library.flat)) := by
  induction ls generalizing before known with
  | nil =>
      rw [List.map_nil, loadLibraryInterfaces, List.append_nil, Except.ok.injEq]
      simp only [List.not_mem_nil, false_imp_iff, implies_true, true_and, eq_comm]
      rfl
  | cons l rest ih =>
      have below := ordered.below before rest l
      have distinct := names.before before rest l
      rw [List.flatMap_cons] at ids fresh
      rw [List.map_append] at ids
      have selfFresh : l.id ∉ known.ids := fresh l (List.mem_append_left _ (mem_flat_self l))
      have passes : checkLibrary (some type) (before.map Library.bare) known l.id l.name l.type = .ok () := by
        have sameType : ¬ (l.type ≠ type) := not_not.mpr (types l List.mem_cons_self)
        have freeName : ¬ (¬ l.name.isEmpty ∧ (before.map Library.bare).any (fun y => y.name == l.name)) := by
          intro taken
          obtain ⟨y, member, same⟩ := List.any_eq_true.mp taken.2
          obtain ⟨l', inside, rfl⟩ := List.mem_map.mp member
          have equal : l'.name = l.name := by simpa [name_bare] using same
          have named : l.name ≠ "" := by simpa using taken.1
          exact distinct l' inside (equal ▸ named) equal
        simp only [checkLibrary]
        rw [if_neg sameType, if_neg freeName, if_neg selfFresh]
      have first := reads l List.mem_cons_self (some type) (before.map Library.bare) known
        (wf l List.mem_cons_self) (List.nodup_append.mp ids).1
        (fun inside member => fresh inside (List.mem_append_left _ member)) (by
          intro y member
          obtain ⟨l', inside, rfl⟩ := List.mem_map.mp member
          rw [id_bare]
          exact below l' inside) passes
      have later := ih (before ++ [l]) (fun x member => reads x (List.mem_cons_of_mem _ member))
        (fun x member => wf x (List.mem_cons_of_mem _ member)) (known.with l.flat)
        (List.nodup_append.mp ids).2.1 (by
          intro inside member taken
          rcases List.mem_append.mp taken with here | old
          · rw [List.mem_reverse] at here
            exact (List.nodup_append.mp ids).2.2 _ here _ (List.mem_map_of_mem member) rfl
          · exact fresh inside (List.mem_append_right _ member) old)
        (by rwa [List.append_assoc]) (by rwa [List.append_assoc])
        (fun x member => types x (List.mem_cons_of_mem _ member))
      rw [List.append_assoc, List.singleton_append, ← Known.with_append, List.map_append, List.map_singleton] at later
      rw [List.map_cons, loadLibraryInterfaces, bind_eq_ok, List.flatMap_cons]
      constructor
      · intro ran
        obtain ⟨middle, one, others⟩ := ran
        obtain ⟨readable, rfl⟩ := (first middle).mp one
        obtain ⟨all, whole⟩ := later.mp others
        exact ⟨List.forall_mem_cons.mpr ⟨readable, all⟩, whole⟩
      · intro both
        obtain ⟨readable, all⟩ := List.forall_mem_cons.mp both.1
        exact ⟨_, (first _).mpr ⟨readable, rfl⟩, later.mpr ⟨all, both.2⟩⟩

theorem reads_all (l : Library) : Reads policy models l := by
  induction l using Library.induct with
  | step id name type designs libraries ih =>
      intro parent siblings known wf ids fresh below passes result
      have whole : (Library.mk id name type designs libraries).flat =
          .mk id name type designs libraries :: libraries.flatMap Library.flat := flat_eq _
      have self := wf _ (mem_flat_self _)
      have idFresh : ¬ (type = .Primitives ∧ id ∈ known.ids) := by
        intro conflict
        exact fresh _ (mem_flat_self _) conflict.2
      rw [whole] at wf ids fresh
      obtain ⟨notInside, insideIDs⟩ := List.nodup_cons.mp ids
      have inside := loadInside policy models type [] libraries ih
        (fun l member x there => wf x (List.mem_cons_of_mem _ (List.mem_flatMap.mpr ⟨l, member, there⟩)))
        ⟨id :: known.ids, name :: known.names⟩ insideIDs (by
          intro x member taken
          rcases List.mem_cons.mp taken with same | old
          · exact notInside (List.mem_map.mpr ⟨x, member, same⟩)
          · exact fresh x (List.mem_cons_of_mem _ member) old)
        self.libraries self.libraryNames self.libraryTypes
      rw [List.map_nil, List.nil_append] at inside
      have loaded : ∀ result, (designs.map dumpDesignInterface).foldlM (loadDesignInterface type) [] = .ok result ↔
          (∀ d ∈ designs, d.type = .Primitive ↔ type = .Primitives) ∧ result = designs.map Design.bare :=
        loadDesigns_iff models _ self
      have bare : Library.mk id name type (designs.map Design.bare) (libraries.map Library.bare) =
          (Library.mk id name type designs libraries).bare := by
        rw [Library.bare, bareLibraries_eq]
      have last : insertByKey Library.id (Library.mk id name type designs libraries).bare siblings =
          siblings ++ [(Library.mk id name type designs libraries).bare] := insertByKey_last _ _ (by
        intro y member
        rw [id_bare]
        exact below y member)
      have known' : (⟨id :: known.ids, name :: known.names⟩ : Known).with (libraries.flatMap Library.flat) =
          known.with (Library.mk id name type designs libraries).flat := by
        rw [whole]
        simp [Known.with, Library.id, Library.name]
      -- what is read of the libraries inside belongs to this one
      have nested (l : Library) (member : l ∈ libraries) (x : Library) (there : x ∈ l.flat) :
          x ∈ (Library.mk id name type designs libraries).flat := by
        rw [whole]
        exact List.mem_cons_of_mem _ (List.mem_flatMap.mpr ⟨l, member, there⟩)
      simp only [dumpLibraryInterface, loadLibraryInterface, dumpLibraryInterfaces_eq]
      rw [if_neg idFresh, loadName_dumpName, show checkLibrary parent siblings known id name type = .ok () from passes]
      simp only [bind_eq_ok, loaded, inside]
      constructor
      · intro ran
        obtain ⟨-, -, designs', ⟨types, rfl⟩, pair, ⟨readable, rfl⟩, ⟨⟩, constructed, made⟩ := ran
        rw [bare] at constructed made
        rw [last, known'] at made
        refine ⟨(loadable_iff _).mpr ?_, (Except.ok.inj made).symm⟩
        intro primitives x member d inD
        have tables := (construct_bare _).mp constructed primitives x member d inD
        refine ⟨?_, tables⟩
        rw [whole] at member
        rcases List.mem_cons.mp member with rfl | deeper
        · exact (types d inD).mpr primitives
        · obtain ⟨l, inLibraries, there⟩ := List.mem_flatMap.mp deeper
          have sameType : l.type = .Primitives := (self.libraryTypes l inLibraries).trans primitives
          exact ((loadable_iff l).mp (readable l inLibraries) sameType x there d inD).1
      · intro both
        have readable := (loadable_iff _).mp both.1
        refine ⟨(), trivial, _, ⟨?_, rfl⟩, _, ⟨?_, rfl⟩, (), ?_, ?_⟩
        · intro d inD
          exact ⟨self.types d inD, fun primitives => (readable primitives _ (mem_flat_self _) d inD).1⟩
        · intro l member
          rw [loadable_iff]
          intro primitives x there
          have sameType : type = .Primitives := (self.libraryTypes l member).symm.trans primitives
          exact readable sameType x (nested l member x there)
        · rw [bare]
          exact (construct_bare _).mpr (fun primitives x member d inD => (readable primitives x member d inD).2)
        · rw [bare, last, known', both.2]
          rfl

end libraries

/-- No root library has the name of a library that is read before it; `seen` has their names. -/
def NamesFree : List String → List Library → Prop
  | _, [] => True
  | seen, l :: rest => (l.name ≠ "" → l.name ∉ seen) ∧ NamesFree (seen ++ l.flat.map Library.name) rest

section database
variable (policy : PrimitiveConflictPolicy) (models : DesignReference → Option Design)

theorem loadRoots (before ls : List Library) (wf : ∀ l ∈ ls, ∀ inside ∈ l.flat, inside.WellFormed models)
    (known : Known) (seen : List String) (same : ∀ name, name ∈ known.names ↔ name ∈ seen)
    (ids : ((ls.flatMap Library.flat).map Library.id).Nodup)
    (fresh : ∀ inside ∈ ls.flatMap Library.flat, inside.id ∉ known.ids)
    (ordered : OrderedBy Library.id (before ++ ls)) (result : List Library × Known) :
    loadLibraryInterfaces policy none (before.map Library.bare) known (ls.map dumpLibraryInterface) = .ok result ↔
      (NamesFree seen ls ∧ ∀ l ∈ ls, l.loadable = true) ∧
        result = ((before ++ ls).map Library.bare, known.with (ls.flatMap Library.flat)) := by
  induction ls generalizing before known seen with
  | nil =>
      rw [List.map_nil, loadLibraryInterfaces, List.append_nil, Except.ok.injEq]
      simp only [NamesFree, List.not_mem_nil, false_imp_iff, implies_true, and_self, true_and, eq_comm]
      rfl
  | cons l rest ih =>
      have below := ordered.below before rest l
      rw [List.flatMap_cons] at ids fresh
      rw [List.map_append] at ids
      have selfFresh : l.id ∉ known.ids := fresh l (List.mem_append_left _ (mem_flat_self l))
      have idFresh : ¬ (l.type = .Primitives ∧ l.id ∈ known.ids) := fun conflict => selfFresh conflict.2
      rw [List.map_cons, loadLibraryInterfaces]
      by_cases free : l.name ≠ "" → l.name ∉ seen
      · have passes : checkLibrary none (before.map Library.bare) known l.id l.name l.type = .ok () := by
          have freeName : ¬ (¬ l.name.isEmpty ∧ l.name ∈ known.names) := by
            intro taken
            exact free (by simpa using taken.1) ((same _).mp taken.2)
          simp only [checkLibrary]
          rw [if_neg freeName, if_neg selfFresh]
        have first := reads_all policy models l none (before.map Library.bare) known
          (wf l List.mem_cons_self) (List.nodup_append.mp ids).1
          (fun inside member => fresh inside (List.mem_append_left _ member)) (by
            intro y member
            obtain ⟨l', inside, rfl⟩ := List.mem_map.mp member
            rw [id_bare]
            exact below l' inside) passes
        have later := ih (before ++ [l]) (fun x member => wf x (List.mem_cons_of_mem _ member)) (known.with l.flat)
          (seen ++ l.flat.map Library.name) (by
            intro name
            change name ∈ (l.flat.map Library.name).reverse ++ known.names ↔ _
            rw [List.mem_append, List.mem_append, List.mem_reverse, same name, or_comm])
          (List.nodup_append.mp ids).2.1 (by
            intro inside member taken
            rcases List.mem_append.mp taken with here | old
            · rw [List.mem_reverse] at here
              exact (List.nodup_append.mp ids).2.2 _ here _ (List.mem_map_of_mem member) rfl
            · exact fresh inside (List.mem_append_right _ member) old)
          (by rwa [List.append_assoc])
        rw [List.append_assoc, List.singleton_append, ← Known.with_append, List.map_append, List.map_singleton] at later
        rw [bind_eq_ok, List.flatMap_cons]
        constructor
        · intro ran
          obtain ⟨middle, one, others⟩ := ran
          obtain ⟨readable, rfl⟩ := (first middle).mp one
          obtain ⟨⟨names, all⟩, whole⟩ := later.mp others
          exact ⟨⟨⟨free, names⟩, List.forall_mem_cons.mpr ⟨readable, all⟩⟩, whole⟩
        · intro both
          obtain ⟨⟨⟨-, names⟩, tables⟩, whole⟩ := both
          obtain ⟨readable, all⟩ := List.forall_mem_cons.mp tables
          exact ⟨_, (first _).mpr ⟨readable, rfl⟩, later.mpr ⟨⟨names, all⟩, whole⟩⟩
      · -- the creation of the library is refused
        have refused : checkLibrary none (before.map Library.bare) known l.id l.name l.type = .error .libraryName := by
          obtain ⟨named, taken⟩ := Classical.not_imp.mp free
          simp only [checkLibrary]
          exact if_pos ⟨by simpa using named, (same _).mpr (not_not.mp taken)⟩
        have stops : loadLibraryInterface policy none (before.map Library.bare) known (dumpLibraryInterface l) =
            .error .libraryName := by
          cases l with
          | mk id name type designs libraries =>
              simp only [dumpLibraryInterface, loadLibraryInterface]
              rw [if_neg (show ¬ (type = .Primitives ∧ id ∈ known.ids) from idFresh), loadName_dumpName]
              simp only [bind, Except.bind,
                show checkLibrary none (before.map Library.bare) known id name type = .error .libraryName from refused]
        rw [stops]
        simp only [bind, Except.bind, reduceCtorEq, false_iff, not_and]
        intro all
        exact absurd all.1.1 free

theorem flatLibraries_bare (ls : List Library) : flatLibraries (ls.map Library.bare) = (flatLibraries ls).map Library.bare := by
  rw [flatLibraries_eq, flatLibraries_eq, List.flatMap_map, List.map_flatMap]
  exact List.flatMap_congr (fun l _ => flat_bare l)

theorem getSNLDesign_bare (db : Database) (id : Nat) (top : Option (Nat × Nat)) (libraryID designID : Nat) :
    (⟨id, db.libraries.map Library.bare, top⟩ : Database).getSNLDesign libraryID designID =
      (db.getSNLDesign libraryID designID).map Design.bare := by
  have library : (⟨id, db.libraries.map Library.bare, top⟩ : Database).getLibrary libraryID =
      (db.getLibrary libraryID).map Library.bare := by
    unfold Database.getLibrary Database.getGlobalLibraries
    rw [flatLibraries_bare, List.find?_map]
    congr 2
    funext l
    rw [Function.comp, id_bare]
  unfold Database.getSNLDesign
  rw [library]
  cases db.getLibrary libraryID with
  | none => rfl
  | some l =>
      simp only [Option.map_some, Option.bind_some, designs_bare]
      rw [List.find?_map]
      rfl

theorem getDB_put (u : Universe) (db : Database) : Universe.getDB (Universe.put u db) db.id = some db := by
  unfold Universe.getDB Universe.put
  rw [List.find?_cons_of_pos (by simp)]

/-- The interface is read if and only if no name of a root library is taken, the truth tables can be read
and the top design is not under another ID than the database. -/
theorem loadInterface_dump (u : Universe) (db : Database) (wf : db.WellFormed u) (forced : Nat)
    (fresh : Universe.getDB u forced = none) (u' : Universe) :
    loadInterface policy u (dumpInterface db forced) = .ok u' ↔
      (NamesFree [] db.libraries ∧ ∀ l ∈ db.libraries, l.loadable = true) ∧ (db.top = none ∨ forced = db.id) ∧
        u' = Universe.put u ⟨forced, db.libraries.map Library.bare, db.top⟩ := by
  have roots := loadRoots policy (db.models u) [] db.libraries
    (fun l member inside there => wf.libraries inside (by
      unfold Database.getGlobalLibraries
      rw [flatLibraries_eq]
      exact List.mem_flatMap.mpr ⟨l, member, there⟩))
    ⟨[], []⟩ [] (fun _ => Iff.rfl) (by
      have ids := wf.ids
      unfold Database.getGlobalLibraries at ids
      rwa [flatLibraries_eq] at ids) (fun _ _ => List.not_mem_nil) wf.roots
  rw [List.map_nil, List.nil_append] at roots
  unfold loadInterface dumpInterface
  simp only [fresh, Option.getD_none, Database.getGlobalLibraries, flatLibraries, List.map_nil,
    dumpLibraryInterfaces_eq, bind, Except.bind, pure, Except.pure]
  cases loaded : loadLibraryInterfaces policy none [] ⟨[], []⟩ (db.libraries.map dumpLibraryInterface) with
  | error reason =>
      simp only [reduceCtorEq, false_iff, not_and]
      intro all
      rw [(roots _).mpr ⟨all, rfl⟩] at loaded
      contradiction
  | ok result =>
      obtain ⟨all, rfl⟩ := (roots result).mp loaded
      simp only [and_iff_right all]
      cases top : db.top with
      | none => simp [eq_comm]
      | some place =>
          simp only [Option.map_some, reduceCtorEq, false_or]
          by_cases same : forced = db.id
          · subst same
            have found : (Universe.getSNLDesign (Universe.put u ⟨db.id, db.libraries.map Library.bare, none⟩)
                ⟨db.id, place.1, place.2⟩).isSome := by
              unfold Universe.getSNLDesign
              rw [getDB_put u ⟨db.id, db.libraries.map Library.bare, none⟩, Option.bind_some,
                getSNLDesign_bare, Option.isSome_map]
              exact wf.top place top
            obtain ⟨design, there⟩ := Option.isSome_iff_exists.mp found
            rw [there]
            simp only [ne_eq, not_true_eq_false, if_false, true_and, Except.ok.injEq]
            exact eq_comm
          · have other : db.id ≠ forced := fun equal => same equal.symm
            simp only [same, false_and, iff_false]
            split
            · simp [throw, throwThe, MonadExceptOf.throw]
            · simp [other, throw, throwThe, MonadExceptOf.throw]

end database

end Naja.CapnP
