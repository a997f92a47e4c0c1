import Naja.Universe.Sound

/-! The object of an identifier is the object it was read from, and the net of a reference
the net the reference is of. References to two bits of one bus net compare equal, and the
object of a PNL design's identifier is none or an SNL design: what is meant to hold does
so exactly in the states that have neither. -/

namespace Naja.Universe
open Naja.Registry
open Netlist (Address)

/-- Identifiers and references stand for the objects they are read from. -/
structure Faithful (u : NLUniverse) : Prop where
  objects : ∀ o id, u.getNLID o = some id → u.getObject id = some o
  identifiers : ∀ o o' id id', u.getNLID o = some id → u.getNLID o' = some id' → (id.equal id' = true ↔ o = o')
  ordered : NLID.Ordered
  bitNets : ∀ n r, u.bitNetReference n = some r → u.getBitNet r = some n
  references : ∀ n n' r r', u.bitNetReference n = some r → u.bitNetReference n' = some r' →
    (r.equal r' = true ↔ n = n')

/-- No bus net has two bits. -/
def SingleBits (u : NLUniverse) : Prop :=
  ∀ d net bit bit', (u.getNLID (.netBit d net bit)).isSome → (u.getNLID (.netBit d net bit')).isSome → bit = bit'

def NoPNLDesigns (u : NLUniverse) : Prop := ∀ d, u.getNLID (.pnlDesign d) = none

section lookup
variable {u : NLUniverse}

/-- A net bit that is alive is a bit of a bus net. -/
theorem netBit_alive (d : DesignRef) (net : Address) (bit : Int) (id : NLID)
    (alive : u.getNLID (.netBit d net bit) = some id) : ∃ n bus, u.owned u.nets d net = some n ∧ n.2.data = .Bus bus ∧
      bit ∈ bus.getBits ∧ id = NLUniverse.designObjectNLID .NetBit n.1 n.2.id 0 bit := by
  obtain ⟨n, isOwned, alive⟩ := Option.bind_eq_some_iff.mp alive
  cases shape : n.2.data with
  | Scalar =>
      rw [shape] at alive
      cases alive
  | Bus bus =>
      rw [shape] at alive
      simp only [Option.ite_none_right_eq_some, Option.some.injEq] at alive
      exact ⟨n, bus, isOwned, shape, alive.1, alive.2.symm⟩

variable (sound : Sound u)
include sound

theorem getLibrary_of (l : LibraryRef) (ids : Nat × Nat) (alive : u.libraryIDs l = some ids) :
    u.getLibrary ids.1 ids.2 = some l := by
  obtain ⟨dbAddress, libraryAddress⟩ := l
  obtain ⟨db, isDB, alive⟩ := Option.bind_eq_some_iff.mp alive
  obtain ⟨library, isLibrary, rfl⟩ := Option.map_eq_some_iff.mp alive
  obtain ⟨dbMember, rfl⟩ := (sound.dbs.linked.entry_iff _ db).mp isDB
  obtain ⟨member, isObject⟩ := ((sound.libraries db.object).linked.entry_iff _ library).mp isLibrary
  rw [NLUniverse.getLibrary, (sound.dbs.linked.getByID_iff _ db).mpr ⟨dbMember, rfl⟩, Option.bind_some,
    ((sound.libraries _).linked.getByID_iff _ library).mpr ⟨member, rfl⟩, Option.map_some, isObject]

theorem getSNLDesign_of (d : DesignRef) (r : DesignReference) (alive : u.getReference d = some r) :
    u.getSNLDesign r = some d := by
  obtain ⟨ids, isLibrary, alive⟩ := Option.bind_eq_some_iff.mp alive
  obtain ⟨design, isDesign, rfl⟩ := Option.map_eq_some_iff.mp alive
  obtain ⟨member, isObject⟩ := ((sound.designs _).linked.entry_iff _ design).mp isDesign
  rw [NLUniverse.getSNLDesign, getLibrary_of sound d.owner ids isLibrary, Option.bind_some,
    ((sound.designs _).linked.getByID_iff _ design).mpr ⟨member, rfl⟩, Option.map_some, isObject]

theorem getOwned_of {α : Type} (index : Address → Index α) (linked : ∀ a, LinkedBelow u.next (index a)) (d : DesignRef)
    (object : Address) (found : DesignReference × Entry α) (isOwned : u.owned index d object = some found) :
    u.getOwned index ⟨found.1, found.2.id⟩ = some (d, found.2) ∧ found.2.object = object := by
  obtain ⟨r, isDesign, isFound⟩ := Option.bind_eq_some_iff.mp isOwned
  obtain ⟨e, isEntry, rfl⟩ := Option.map_eq_some_iff.mp isFound
  obtain ⟨member, isObject⟩ := ((linked d.design).linked.entry_iff object e).mp isEntry
  refine ⟨?_, isObject⟩
  rw [NLUniverse.getOwned, getSNLDesign_of sound d r isDesign, Option.bind_some,
    ((linked d.design).linked.getByID_iff _ e).mpr ⟨member, rfl⟩, Option.map_some]

/-- The object of an identifier, but for PNL designs. -/
theorem getObject_of (o : Object) (id : NLID) (alive : u.getNLID o = some id) (notPNL : ∀ d, o ≠ .pnlDesign d) :
    u.getObject id = some o := by
  cases o with
  | db db =>
      obtain ⟨e, isEntry, rfl⟩ := Option.map_eq_some_iff.mp alive
      obtain ⟨member, rfl⟩ := (sound.dbs.linked.entry_iff db e).mp isEntry
      rw [NLUniverse.getObject, (sound.dbs.linked.getByID_iff _ e).mpr ⟨member, rfl⟩]
      rfl
  | library l =>
      obtain ⟨ids, isLibrary, rfl⟩ := Option.map_eq_some_iff.mp alive
      rw [NLUniverse.getObject, getLibrary_of sound l ids isLibrary]
      rfl
  | design d =>
      obtain ⟨r, isDesign, rfl⟩ := Option.map_eq_some_iff.mp alive
      have found : u.getSNLDesign ⟨r.dbID, r.libraryID, r.designID⟩ = some d := getSNLDesign_of sound d r isDesign
      rw [NLUniverse.getObject, found]
      rfl
  | pnlDesign d => exact absurd rfl (notPNL d)
  | term d term =>
      obtain ⟨t, isOwned, rfl⟩ := Option.map_eq_some_iff.mp alive
      obtain ⟨found, isObject⟩ := getOwned_of sound u.terms sound.terms d term t isOwned
      exact (congrArg (Option.map _) found).trans (by rw [Option.map_some, isObject])
  | termBit d term bit =>
      obtain ⟨t, isOwned, alive⟩ := Option.bind_eq_some_iff.mp alive
      obtain ⟨found, isObject⟩ := getOwned_of sound u.terms sound.terms d term t isOwned
      cases shape : t.2.data.shape with
      | Scalar =>
          rw [shape] at alive
          cases alive
      | Bundle =>
          rw [shape] at alive
          cases alive
      | Bus bus =>
          rw [shape] at alive
          simp only [Option.ite_none_right_eq_some, Option.some.injEq] at alive
          obtain ⟨present, rfl⟩ := alive
          change (u.getOwned u.terms ⟨t.1, t.2.id⟩).bind _ = _
          rw [found, Option.bind_some]
          simp only [shape, isObject]
          exact congrArg (Option.map _) ((bus.getBit_iff bit bit).mpr ⟨rfl, present⟩)
  | net d net =>
      obtain ⟨n, isOwned, rfl⟩ := Option.map_eq_some_iff.mp alive
      obtain ⟨found, isObject⟩ := getOwned_of sound u.nets sound.nets d net n isOwned
      exact (congrArg (Option.map _) found).trans (by rw [Option.map_some, isObject])
  | netBit d net bit =>
      obtain ⟨n, bus, isOwned, shape, present, rfl⟩ := netBit_alive d net bit id alive
      obtain ⟨found, isObject⟩ := getOwned_of sound u.nets sound.nets d net n isOwned
      change (u.getOwned u.nets ⟨n.1, n.2.id⟩).bind _ = _
      rw [found, Option.bind_some]
      simp only [shape, isObject]
      exact congrArg (Option.map _) ((bus.getBit_iff bit bit).mpr ⟨rfl, present⟩)
  | inst d inst =>
      obtain ⟨i, isOwned, rfl⟩ := Option.map_eq_some_iff.mp alive
      obtain ⟨found, isObject⟩ := getOwned_of sound u.instances sound.instances d inst i isOwned
      exact (congrArg (Option.map _) found).trans (by rw [Option.map_some, isObject])

/-- The net of a reference. -/
theorem getBitNet_of (n : Object) (r : BitNetReference) (alive : u.bitNetReference n = some r) : u.getBitNet r = some n := by
  cases n with
  | net d net =>
      obtain ⟨n, isOwned, alive⟩ := Option.bind_eq_some_iff.mp alive
      obtain ⟨found, isObject⟩ := getOwned_of sound u.nets sound.nets d net n isOwned
      cases shape : n.2.data with
      | Bus bus =>
          rw [shape] at alive
          cases alive
      | Scalar =>
          rw [shape] at alive
          cases alive
          change (u.getOwned u.nets ⟨n.1, n.2.id⟩).bind _ = _
          rw [found, Option.bind_some]
          simp only [shape, isObject]
          rfl
  | netBit d net bit =>
      obtain ⟨n, isOwned, alive⟩ := Option.bind_eq_some_iff.mp alive
      obtain ⟨found, isObject⟩ := getOwned_of sound u.nets sound.nets d net n isOwned
      cases shape : n.2.data with
      | Scalar =>
          rw [shape] at alive
          cases alive
      | Bus bus =>
          rw [shape] at alive
          simp only [Option.ite_none_right_eq_some, Option.some.injEq] at alive
          obtain ⟨present, rfl⟩ := alive
          change (u.getOwned u.nets ⟨n.1, n.2.id⟩).bind _ = _
          rw [found, Option.bind_some]
          simp only [shape, isObject]
          exact congrArg (Option.map _) ((bus.getBit_iff bit bit).mpr ⟨rfl, present⟩)
  | db | library | design | pnlDesign | term | termBit | inst => cases alive

end lookup

/-- The identifier of a PNL design is the one of no object, or of an SNL design. -/
theorem getObject_ne_pnlDesign (u : NLUniverse) (id : NLID) (isDesign : id.type = .Design) (d : DesignRef) :
    u.getObject id ≠ some (.pnlDesign d) := by
  intro found
  rw [NLUniverse.getObject, isDesign] at found
  obtain ⟨_, -, other⟩ := Option.map_eq_some_iff.mp found
  cases other

/-- The reference of a bit net is the one of a scalar net, or of a bit of a bus net that is alive. -/
theorem bitNetReference_cases (u : NLUniverse) (n : Object) (r : BitNetReference) (alive : u.bitNetReference n = some r) :
    (∃ d net, n = .net d net ∧ r.isBusBit = false ∧ r.bit = 0) ∨
      ∃ d net, n = .netBit d net r.bit ∧ r.isBusBit = true ∧ (u.getNLID n).isSome ∧
        ∀ bit, (u.getNLID (.netBit d net bit)).isSome → u.bitNetReference (.netBit d net bit) = some { r with bit := bit } := by
  cases n with
  | net d net =>
      obtain ⟨n, -, alive⟩ := Option.bind_eq_some_iff.mp alive
      cases shape : n.2.data with
      | Bus bus =>
          rw [shape] at alive
          cases alive
      | Scalar =>
          rw [shape] at alive
          cases alive
          exact .inl ⟨d, net, rfl, rfl, rfl⟩
  | netBit d net bit =>
      obtain ⟨n, isOwned, alive⟩ := Option.bind_eq_some_iff.mp alive
      cases shape : n.2.data with
      | Scalar =>
          rw [shape] at alive
          cases alive
      | Bus bus =>
          rw [shape] at alive
          simp only [Option.ite_none_right_eq_some, Option.some.injEq] at alive
          obtain ⟨present, rfl⟩ := alive
          refine .inr ⟨d, net, rfl, rfl, ?_, fun other isAlive => ?_⟩
          · rw [NLUniverse.getNLID, isOwned, Option.bind_some]
            simp only [shape, if_pos present]
            rfl
          · obtain ⟨id, isID⟩ := Option.isSome_iff_exists.mp isAlive
            obtain ⟨n', bus', isOwned', shape', present', -⟩ := netBit_alive d net other id isID
            cases isOwned.symm.trans isOwned'
            rw [NLUniverse.bitNetReference, isOwned, Option.bind_some]
            simp only [shape', if_pos present']
            rfl
  | db | library | design | pnlDesign | term | termBit | inst => cases alive

/-- References that differ in their bits at most are of bits of one net. -/
theorem getBitNet_net (u : NLUniverse) (r : BitNetReference) (bit : Int) (d d' : DesignRef) (net net' : Address)
    (b b' : Int) (found : u.getBitNet r = some (.netBit d net b))
    (found' : u.getBitNet { r with bit := bit } = some (.netBit d' net' b')) : d' = d ∧ net' = net := by
  obtain ⟨n, isOwned, found⟩ := Option.bind_eq_some_iff.mp found
  obtain ⟨n', isOwned', found'⟩ := Option.bind_eq_some_iff.mp found'
  cases isOwned.symm.trans isOwned'
  cases shape : n.2.data with
  | Scalar =>
      rw [shape] at found
      cases isBus : r.isBusBit <;> rw [isBus] at found <;> cases found
  | Bus bus =>
      rw [shape] at found found'
      cases isBus : r.isBusBit with
      | false =>
          rw [isBus] at found
          cases found
      | true =>
          rw [isBus] at found found'
          obtain ⟨_, -, same⟩ := Option.map_eq_some_iff.mp found
          obtain ⟨_, -, same'⟩ := Option.map_eq_some_iff.mp found'
          cases same
          cases same'
          exact ⟨rfl, rfl⟩

/-- In a universe that is reached, identity is faithful if and only if no bus net has two bits and there is no PNL
design. -/
theorem faithful_iff (u : NLUniverse) (reached : Reached u) : Faithful u ↔ SingleBits u ∧ NoPNLDesigns u := by
  have sound := reached.sound
  constructor
  · intro faithful
    refine ⟨fun d net bit bit' alive alive' => ?_, fun d => ?_⟩
    · obtain ⟨id, isID⟩ := Option.isSome_iff_exists.mp alive
      obtain ⟨n, bus, isOwned, shape, present, -⟩ := netBit_alive d net bit id isID
      have isReference : u.bitNetReference (.netBit d net bit) = some (.busNetBit n.1 n.2.id bit) := by
        rw [NLUniverse.bitNetReference, isOwned, Option.bind_some]
        simp only [shape, if_pos present]
      rcases bitNetReference_cases u _ _ isReference with ⟨d', net', other, -⟩ | ⟨d', net', same, -, -, others⟩
      · cases other
      · cases same
        have isReference' := others bit' alive'
        have equal : (BitNetReference.busNetBit n.1 n.2.id bit).equal { BitNetReference.busNetBit n.1 n.2.id bit with bit := bit' } =
            true := (BitNetReference.equal_iff _ _).mpr rfl
        cases (faithful.references _ _ _ _ isReference isReference').mp equal
        rfl
    · by_contra present
      obtain ⟨id, isID⟩ := Option.ne_none_iff_exists'.mp present
      have isDesign : id.type = .Design := by
        obtain ⟨ids, -, isID⟩ := Option.bind_eq_some_iff.mp isID
        obtain ⟨e, -, rfl⟩ := Option.map_eq_some_iff.mp isID
        rfl
      exact getObject_ne_pnlDesign u id isDesign d (faithful.objects _ id isID)
  · rintro ⟨single, noPNL⟩
    have objects (o : Object) (id : NLID) (alive : u.getNLID o = some id) : u.getObject id = some o := by
      refine getObject_of sound o id alive (fun d isPNL => ?_)
      rw [isPNL, noPNL d] at alive
      cases alive
    refine ⟨objects, fun o o' id id' alive alive' => ?_, NLID.ordered, getBitNet_of sound,
      fun n n' r r' isReference isReference' => ?_⟩
    · rw [NLID.equal_iff]
      constructor
      · rintro rfl
        exact Option.some.inj ((objects o id alive).symm.trans (objects o' id alive'))
      · rintro rfl
        exact Option.some.inj (alive.symm.trans alive')
    · rw [BitNetReference.equal_iff]
      constructor
      · intro same
        have bits : r.bit = r'.bit := by
          rcases bitNetReference_cases u n r isReference with ⟨d, net, rfl, scalar, zero⟩ | ⟨d, net, isBit, isBus, alive, -⟩
          · rcases bitNetReference_cases u n' r' isReference' with ⟨-, -, -, -, zero'⟩ | ⟨-, -, -, bus, -⟩
            · rw [zero, zero']
            · rw [← same, scalar] at bus
              cases bus
          · rcases bitNetReference_cases u n' r' isReference' with ⟨-, -, -, scalar, -⟩ | ⟨d', net', isBit', -, alive', -⟩
            · rw [← same, isBus] at scalar
              cases scalar
            · have found := getBitNet_of sound n r isReference
              have found' := getBitNet_of sound n' r' isReference'
              rw [isBit] at found alive
              rw [isBit'] at found' alive'
              rw [← same] at found'
              obtain ⟨rfl, rfl⟩ := getBitNet_net u r r'.bit d d' net net' _ _ found found'
              exact single _ _ _ _ alive alive'
        have equal : r = r' := by
          rw [← same, ← bits]
        rw [← equal] at isReference'
        exact Option.some.inj ((getBitNet_of sound n r isReference).symm.trans (getBitNet_of sound n' r isReference'))
      · rintro rfl
        cases isReference.symm.trans isReference'
        rfl

/-- A DB with a library. -/
theorem library_faithful : ∃ u, Reached u ∧ Faithful u ∧
    u.getNLID (.library ⟨0, 1⟩) = some { type := .Library, dbID := 0, libraryID := 0 } := by
  have reached := Reached.step _ _ (.createLibrary 0 none .Standard "work")
    (.step _ _ (.createDB none) .created (by rfl) rfl) (by rfl) rfl
  refine ⟨_, reached, (faithful_iff _ reached).mpr ⟨fun d net bit bit' alive _ => ?_, fun d => ?_⟩, rfl⟩
  · obtain ⟨id, isID⟩ := Option.isSome_iff_exists.mp alive
    obtain ⟨n, -, isOwned, -⟩ := netBit_alive d net bit id isID
    obtain ⟨r, isReference, -⟩ := Option.bind_eq_some_iff.mp isOwned
    obtain ⟨_, -, none⟩ := Option.bind_eq_some_iff.mp isReference
    cases none
  · by_contra present
    obtain ⟨id, isID⟩ := Option.ne_none_iff_exists'.mp present
    obtain ⟨_, -, none⟩ := Option.bind_eq_some_iff.mp isID
    cases none

/-- The references to the bits of a net of two bits compare equal. -/
theorem busNet_not_faithful : ∃ u, Reached u ∧ ¬ Faithful u := by
  have reached := Reached.step _ _ (.createNet ⟨⟨0, 1⟩, 2⟩ none "n" (some (1, 0)))
    (.step _ _ (.createDesign ⟨0, 1⟩ none .Standard "top")
      (.step _ _ (.createLibrary 0 none .Standard "work")
        (.step _ _ (.createDB none) .created (by rfl) rfl) (by rfl) rfl) (by rfl) rfl) (by rfl) rfl
  refine ⟨_, reached, fun faithful => ?_⟩
  have same := (faithful.references (.netBit ⟨⟨0, 1⟩, 2⟩ 3 1) (.netBit ⟨⟨0, 1⟩, 2⟩ 3 0) _ _ rfl rfl).mp (by rfl)
  cases same

end Naja.Universe
