import Naja.InstTerms.Steps
import Mathlib.Data.List.Induction

/-! Exactly which operations keep the tables aligned, and what holds along the
runs made of them. -/

namespace Naja.InstTerms

def slavesOf (s : State) (r : Nat) : List Instance :=
  s.instances.filterMap (fun entry => entry.filter (fun inst => inst.model == r))

theorem mem_slavesOf (s : State) (r : Nat) (inst : Instance) :
    inst ∈ slavesOf s r ↔ some inst ∈ s.instances ∧ inst.model = r := by
  unfold slavesOf
  rw [List.mem_filterMap]
  constructor
  · intro found
    obtain ⟨entry, member, kept⟩ := found
    obtain ⟨rfl, ofModel⟩ := Option.filter_eq_some_iff.mp kept
    exact ⟨member, by simpa using ofModel⟩
  · intro found
    exact ⟨some inst, found.1, Option.filter_eq_some_iff.mpr ⟨rfl, by simpa using found.2⟩⟩

def decidableFlatFrom : (start : Nat) → (terms : List Term) → Decidable (FlatFrom start terms)
  | _, [] => .isTrue trivial
  | start, t :: rest =>
      have := decidableFlatFrom (start + t.getWidth) rest
      inferInstanceAs (Decidable (t.flatID = start ∧ FlatFrom (start + t.getWidth) rest))

instance (d : Design) : Decidable d.Dense := decidableFlatFrom 0 d.terms

/-- The condition on an operation and the state it is applied to under which no table goes out
of step: no term is added to a model with an instance whose table does not end at the flat ID
the term gets, or that is not recorded; no bus of an instantiated primitive loses its most
significant bits; a model has no gap in its flat IDs when it is instantiated; and an instance
is moved between models of equal flat IDs only. -/
def Keeps (s : State) : Operation → Prop
  | .createTerm r id _ _ _ =>
      ∀ d ∈ s.designs[r]?, (d.getTerm (termID d id)).isSome = true ∨
        ∀ inst ∈ slavesOf s r, d.isPrimitive = false ∧ inst.table.length = d.nextFlatID
  | .setMSB r id msb =>
      ∀ d ∈ s.designs[r]?, ∀ t ∈ d.getTerm id, ∀ range ∈ t.range,
        msb = range.1 ∨ d.isPrimitive = false ∨ slavesOf s r = []
  | .createInstance r => ∀ d ∈ s.designs[r]?, d.Dense
  | .cloneInstance index =>
      ∀ entry ∈ s.instances[index]?, ∀ inst ∈ entry, ∀ d ∈ s.designs[inst.model]?, d.Dense
  | .setModel index model =>
      ∀ entry ∈ s.instances[index]?, ∀ inst ∈ entry, inst.model = model ∨
        ∀ d ∈ s.designs[inst.model]?, ∀ d' ∈ s.designs[model]?, SameFlatIDs d d'
  | .createDesign _ _ | .cloneInterface _ _ | .destroyTerm _ _ | .setLSB _ _ _ | .destroyInstance _ => True

/-! ### Adding a term -/

theorem step_createTerm (s s' : State) (r : Nat) (id : Option Nat) (name : String)
    (direction : Primitives.Direction) (range : Option (Int × Int))
    (accepted : step s (.createTerm r id name direction range) = .ok s') :
    ∃ d, s.designs[r]? = some d ∧
      s' = addTerm s r d ⟨s.nextUid, termID d id, name, direction, range, d.nextFlatID⟩ := by
  simp only [step, bind, Except.bind, pure, Except.pure, throw, throwThe, MonadExceptOf.throw] at accepted
  split at accepted
  · contradiction
  next d found =>
    split at accepted
    · contradiction
    split at accepted
    · contradiction
    exact ⟨d, (findDesign_spec s r d).mp found, (Except.ok.inj accepted).symm⟩

theorem below_append (uid : Nat) (table : Table) (term : Term) (below : Below uid table)
    (same : term.uid = uid) : Below (uid + 1) (term.getBits.foldl createInstTerm table) := by
  intro slot b entry
  rw [foldl_createInstTerm] at entry
  rcases List.mem_append.mp (List.mem_of_getElem? entry) with old | new
  · obtain ⟨place, held⟩ := List.getElem?_of_mem old
    have bound := below place b held
    omega
  · obtain ⟨bit, inBits, equal⟩ := List.mem_map.mp new
    obtain ⟨i, -, rfl⟩ := (term.mem_getBits bit).mp inBits
    rw [← Option.some.inj equal, term.bitAt_term]
    omega

theorem getTerm_isSome (d : Design) (id : Nat) :
    (d.getTerm id).isSome = true ↔ ∃ t ∈ d.terms, t.id = id := by
  simp [Design.getTerm, List.find?_isSome]

theorem allAligned_addTerm_iff (s : State) (r : Nat) (d : Design) (term : Term) (sound : Sound s)
    (aligned : AllAligned s) (found : s.designs[r]? = some d) (uid : term.uid = s.nextUid)
    (flatID : term.flatID = d.nextFlatID) :
    AllAligned (addTerm s r d term) ↔ (d.getTerm term.id).isSome = true ∨
      ∀ inst ∈ slavesOf s r, d.isPrimitive = false ∧ inst.table.length = d.nextFlatID := by
  have ordered := sound.ordered d (List.mem_of_getElem? found)
  have older (t : Term) (member : t ∈ d.terms) : t.uid < term.uid := uid ▸ ordered.created t member
  unfold addTerm
  rw [allAligned_edit_iff s r d _ _ _ aligned found, getTerm_isSome]
  simp only [foldl_createInstTerm]
  by_cases taken : ∃ t ∈ d.terms, t.id = term.id
  · -- the set keeps its element of that ID, and the tables grow at their ends only
    rw [insertTerm_of_taken term d.terms ordered.sorted taken]
    refine iff_of_true ?_ (Or.inl taken)
    intro inst member ofModel
    have old := aligned inst member d (ofModel ▸ found)
    unfold slaveTable
    split
    · exact old
    · exact aligned_append d inst.table term old older
  · have free : ∀ t ∈ d.terms, t.id ≠ term.id := fun t member same => taken ⟨t, member, same⟩
    rw [or_iff_right taken]
    have each (inst : Instance) (member : some inst ∈ s.instances) (ofModel : inst.model = r) :
        Aligned { d with terms := insertTerm term d.terms }
          (slaveTable d (fun table => table ++ term.getBits.map some) inst.table) ↔
          d.isPrimitive = false ∧ inst.table.length = d.nextFlatID := by
      have old := aligned inst member d (ofModel ▸ found)
      have below : Below term.uid inst.table := uid ▸ sound.below inst member
      unfold slaveTable
      by_cases primitive : d.isPrimitive = true
      · rw [if_pos primitive, primitive]
        refine iff_of_false ?_ nofun
        apply not_aligned_of_missing _ _ term below
        exact (mem_insertTerm term d.terms free term).mpr (Or.inl rfl)
      · rw [if_neg primitive, ← flatID]
        rw [aligned_addTerm d inst.table term old below older _ (mem_insertTerm term d.terms free)]
        exact (and_iff_right (Bool.eq_false_iff.mpr primitive)).symm
    constructor
    · intro edited inst slave
      obtain ⟨member, ofModel⟩ := (mem_slavesOf s r inst).mp slave
      exact (each inst member ofModel).mp (edited inst member ofModel)
    · intro slaves inst member ofModel
      exact (each inst member ofModel).mpr (slaves inst ((mem_slavesOf s r inst).mpr ⟨member, ofModel⟩))

/-! ### Removing a term -/

theorem step_destroyTerm (s s' : State) (r id : Nat) (accepted : step s (.destroyTerm r id) = .ok s') :
    ∃ d t, s.designs[r]? = some d ∧ t ∈ d.terms ∧ t.id = id ∧
      s' = ⟨s.designs.set r { d with terms := d.terms.filter (fun other => other.id ≠ id) },
        updateSlaves s r d (fun table => removeBits table (t.getBits.map t.getFlatID)), s.nextUid⟩ := by
  simp only [step, bind, Except.bind, pure, Except.pure] at accepted
  split at accepted
  · contradiction
  next d found =>
    split at accepted
    · contradiction
    next t present =>
      obtain ⟨member, same⟩ := findTerm_spec d id t present
      exact ⟨d, t, (findDesign_spec s r d).mp found, member, same, (Except.ok.inj accepted).symm⟩

theorem below_removeBits (uid : Nat) (table : Table) (flatIDs : List Nat) (below : Below uid table) :
    Below uid (removeBits table flatIDs) := by
  intro slot b entry
  exact below slot b ((getElem?_removeBits table flatIDs slot b).mp entry).2

/-- Two bits of an aligned design in one slot belong to one term. -/
theorem uid_of_shared_slot (d : Design) (table : Table) (aligned : Aligned d table) (t t' : Term)
    (member : t ∈ d.terms) (member' : t' ∈ d.terms) (i j : Nat) (inI : i < t.getWidth)
    (inJ : j < t'.getWidth) (same : t.flatID + i = t'.flatID + j) : t.uid = t'.uid := by
  have held := aligned.held t member i inI
  rw [same, aligned.held t' member' j inJ] at held
  have uids := congrArg BitTerm.term (Option.some.inj (Option.some.inj held))
  rw [t.bitAt_term, t'.bitAt_term] at uids
  exact uids.symm

theorem allAligned_destroyTerm (s : State) (r : Nat) (d : Design) (t : Term) (sound : Sound s)
    (aligned : AllAligned s) (found : s.designs[r]? = some d) (member : t ∈ d.terms) :
    AllAligned ⟨s.designs.set r { d with terms := d.terms.filter (fun other => other.id ≠ t.id) },
      updateSlaves s r d (fun table => removeBits table (t.getBits.map t.getFlatID)), s.nextUid⟩ := by
  rw [allAligned_edit_iff s r d _ _ _ aligned found]
  intro inst inInstances ofModel
  have old := aligned inst inInstances d (ofModel ▸ found)
  have ordered := sound.ordered d (List.mem_of_getElem? found)
  unfold slaveTable
  split
  · apply aligned_removeBits d _ inst.table [] old
    intro t' kept i inside
    exact ⟨t', (List.mem_filter.mp kept).1, i, inside, rfl, rfl, List.not_mem_nil⟩
  · apply aligned_removeBits d _ inst.table _ old
    intro t' kept i inside
    obtain ⟨inTerms, different⟩ := List.mem_filter.mp kept
    refine ⟨t', inTerms, i, inside, rfl, rfl, ?_⟩
    intro removed
    unfold Term.getBits at removed
    rw [map_getFlatID t _ (fun j inRange => List.mem_range.mp inRange)] at removed
    obtain ⟨j, inRange, same⟩ := List.mem_map.mp removed
    have uids := uid_of_shared_slot d inst.table old t t' member inTerms j i (List.mem_range.mp inRange)
      inside same
    have equal := List.inj_on_of_nodup_map ordered.distinct member inTerms uids
    simp [equal] at different

/-! ### Resizing a bus -/

theorem step_setMSB (s s' : State) (r id : Nat) (msb : Int) (accepted : step s (.setMSB r id msb) = .ok s') :
    ∃ d t oldMSB lsb, s.designs[r]? = some d ∧ d.getTerm id = some t ∧ t.range = some (oldMSB, lsb) ∧
      (msb = oldMSB ∧ s' = s ∨ msb ≠ oldMSB ∧ isBetween msb oldMSB lsb = true ∧
        s' = ⟨s.designs.set r (replaceTerm d id { t with range := some (msb, lsb) }),
          updateSlaves s r d (fun table => shiftEntries t.flatID (oldMSB - msb).natAbs
            (removeBits table ((t.getBits.take (oldMSB - msb).natAbs).map t.getFlatID))
            ((List.range (t.getWidth - (oldMSB - msb).natAbs)).map ((oldMSB - msb).natAbs + ·))),
          s.nextUid⟩) := by
  simp only [step, bind, Except.bind, pure, Except.pure, throw, throwThe, MonadExceptOf.throw] at accepted
  split at accepted
  · contradiction
  next d found =>
    split at accepted
    · contradiction
    next bus present =>
      obtain ⟨t, oldMSB, lsb⟩ := bus
      obtain ⟨lookup, range⟩ := findBus_getTerm d id t oldMSB lsb present
      refine ⟨d, t, oldMSB, lsb, (findDesign_spec s r d).mp found, lookup, range, ?_⟩
      split at accepted
      · next same => exact Or.inl ⟨same, (Except.ok.inj accepted).symm⟩
      · next different =>
          split at accepted
          · contradiction
          · next between =>
              exact Or.inr ⟨different, by simpa using between, (Except.ok.inj accepted).symm⟩

theorem step_setLSB (s s' : State) (r id : Nat) (lsb : Int) (accepted : step s (.setLSB r id lsb) = .ok s') :
    ∃ d t msb oldLSB, s.designs[r]? = some d ∧ d.getTerm id = some t ∧ t.range = some (msb, oldLSB) ∧
      (s' = s ∨ isBetween lsb msb oldLSB = true ∧
        s' = ⟨s.designs.set r (replaceTerm d id { t with range := some (msb, lsb) }),
          updateSlaves s r d (fun table =>
            removeBits table ((t.getBits.drop (t.getWidth - (oldLSB - lsb).natAbs)).map t.getFlatID)),
          s.nextUid⟩) := by
  simp only [step, bind, Except.bind, pure, Except.pure, throw, throwThe, MonadExceptOf.throw] at accepted
  split at accepted
  · contradiction
  next d found =>
    split at accepted
    · contradiction
    next bus present =>
      obtain ⟨t, msb, oldLSB⟩ := bus
      obtain ⟨lookup, range⟩ := findBus_getTerm d id t msb oldLSB present
      refine ⟨d, t, msb, oldLSB, (findDesign_spec s r d).mp found, lookup, range, ?_⟩
      split at accepted
      · exact Or.inl (Except.ok.inj accepted).symm
      · split at accepted
        · contradiction
        · next between => exact Or.inr ⟨by simpa using between, (Except.ok.inj accepted).symm⟩

theorem allAligned_setMSB_iff (s : State) (r : Nat) (d : Design) (t : Term) (oldMSB msb lsb : Int)
    (sound : Sound s) (aligned : AllAligned s) (found : s.designs[r]? = some d) (member : t ∈ d.terms)
    (bus : t.range = some (oldMSB, lsb)) (different : msb ≠ oldMSB)
    (between : isBetween msb oldMSB lsb = true) :
    AllAligned ⟨s.designs.set r (replaceTerm d t.id { t with range := some (msb, lsb) }),
      updateSlaves s r d (fun table => shiftEntries t.flatID (oldMSB - msb).natAbs
        (removeBits table ((t.getBits.take (oldMSB - msb).natAbs).map t.getFlatID))
        ((List.range (t.getWidth - (oldMSB - msb).natAbs)).map ((oldMSB - msb).natAbs + ·))),
      s.nextUid⟩ ↔ d.isPrimitive = false ∨ slavesOf s r = [] := by
  obtain ⟨width, bits⟩ := resize_msb t oldMSB msb lsb bus between
  have positive : 0 < (oldMSB - msb).natAbs := by omega
  have ordered := sound.ordered d (List.mem_of_getElem? found)
  have removed : (t.getBits.take (oldMSB - msb).natAbs).map t.getFlatID =
      (List.range (oldMSB - msb).natAbs).map (t.flatID + ·) := by
    have prefixLength : min (oldMSB - msb).natAbs t.getWidth = (oldMSB - msb).natAbs := by omega
    unfold Term.getBits
    rw [← List.map_take, List.take_range, prefixLength]
    apply map_getFlatID
    intro i inRange
    have bound := List.mem_range.mp inRange
    omega
  rw [allAligned_edit_iff s r d _ _ _ aligned found, removed,
    show t.getWidth - (oldMSB - msb).natAbs = ({ t with range := some (msb, lsb) } : Term).getWidth by omega]
  by_cases primitive : d.isPrimitive = true
  · -- the instances of a primitive keep their entries while the bits move down
    rw [primitive, or_iff_right nofun]
    constructor
    · intro edited
      rw [List.eq_nil_iff_forall_not_mem]
      intro inst slave
      obtain ⟨inInstances, ofModel⟩ := (mem_slavesOf s r inst).mp slave
      have unchanged := edited inst inInstances ofModel
      unfold slaveTable at unchanged
      rw [if_pos primitive] at unchanged
      have resized : ({ t with range := some (msb, lsb) } : Term) ∈
          (replaceTerm d t.id { t with range := some (msb, lsb) }).terms := by
        unfold replaceTerm
        exact List.mem_map.mpr ⟨t, member, if_pos rfl⟩
      have held := unchanged.held _ resized 0 (Term.width_pos _)
      rw [bits 0 (Term.width_pos _)] at held
      have first := Term.width_pos { t with range := some (msb, lsb) }
      have place := (aligned inst inInstances d (ofModel ▸ found)).once t member _ (by omega) _ held
      simp only at place
      omega
    · intro none inst inInstances ofModel
      have slave := (mem_slavesOf s r inst).mpr ⟨inInstances, ofModel⟩
      rw [none] at slave
      contradiction
  · refine iff_of_true ?_ (Or.inl (Bool.eq_false_iff.mpr primitive))
    intro inst inInstances ofModel
    have old := aligned inst inInstances d (ofModel ▸ found)
    unfold slaveTable
    rw [if_neg primitive]
    exact aligned_shift d _ inst.table t { t with range := some (msb, lsb) } _ old member positive width rfl
      bits (mem_replaceTerm d s.nextUid ordered t member _)

theorem allAligned_setLSB (s : State) (r : Nat) (d : Design) (t : Term) (msb oldLSB lsb : Int)
    (sound : Sound s) (aligned : AllAligned s) (found : s.designs[r]? = some d) (member : t ∈ d.terms)
    (bus : t.range = some (msb, oldLSB)) (between : isBetween lsb msb oldLSB = true) :
    AllAligned ⟨s.designs.set r (replaceTerm d t.id { t with range := some (msb, lsb) }),
      updateSlaves s r d (fun table =>
        removeBits table ((t.getBits.drop (t.getWidth - (oldLSB - lsb).natAbs)).map t.getFlatID)),
      s.nextUid⟩ := by
  obtain ⟨width, bits⟩ := resize_lsb t msb oldLSB lsb bus between
  have ordered := sound.ordered d (List.mem_of_getElem? found)
  rw [allAligned_edit_iff s r d _ _ _ aligned found]
  intro inst inInstances ofModel
  have old := aligned inst inInstances d (ofModel ▸ found)
  -- a kept bit stays in its slot, which is not one of the removed slots
  have kept (flatIDs : List Nat)
      (own : ∀ i < ({ t with range := some (msb, lsb) } : Term).getWidth, t.flatID + i ∉ flatIDs)
      (others : ∀ other ∈ d.terms, other.uid ≠ t.uid → ∀ i < other.getWidth, other.flatID + i ∉ flatIDs) :
      Aligned (replaceTerm d t.id { t with range := some (msb, lsb) }) (removeBits inst.table flatIDs) := by
    apply aligned_removeBits d _ inst.table _ old
    intro other inTerms i inside
    rcases mem_replaceTerm d s.nextUid ordered t member _ other inTerms with rfl | ⟨inOld, distinct⟩
    · exact ⟨t, member, i, by omega, bits i inside, rfl, own i inside⟩
    · exact ⟨other, inOld, i, inside, rfl, rfl, others other inOld distinct i inside⟩
  unfold slaveTable
  split
  · exact kept [] (fun _ _ => List.not_mem_nil) (fun _ _ _ _ _ => List.not_mem_nil)
  · have removed (slot : Nat)
        (inList : slot ∈ (t.getBits.drop (t.getWidth - (oldLSB - lsb).natAbs)).map t.getFlatID) :
        ∃ j < t.getWidth, ({ t with range := some (msb, lsb) } : Term).getWidth ≤ j ∧ t.flatID + j = slot := by
      obtain ⟨b, inDrop, same⟩ := List.mem_map.mp inList
      obtain ⟨j, bound, entry⟩ := List.mem_drop_iff_getElem.mp inDrop
      rw [t.length_getBits, Nat.add_comm] at bound
      refine ⟨t.getWidth - (oldLSB - lsb).natAbs + j, bound, by omega, ?_⟩
      rw [← same, ← entry]
      simp only [Term.getBits, List.getElem_map, List.getElem_range]
      exact (t.getFlatID_bitAt _ bound).symm
    apply kept
    · intro i inside inList
      obtain ⟨j, bound, later, same⟩ := removed _ inList
      omega
    · intro other inOld distinct i inside inList
      obtain ⟨j, bound, later, same⟩ := removed _ inList
      exact distinct
        (uid_of_shared_slot d inst.table old t other member inOld j i bound inside same).symm

/-! ### Instances -/

theorem allAligned_add_iff (s : State) (r : Nat) (d : Design) (sound : Sound s) (aligned : AllAligned s)
    (found : s.designs[r]? = some d) :
    AllAligned { s with instances := s.instances ++ [some ⟨r, denseTable d⟩] } ↔ d.Dense := by
  have uids := (sound.ordered d (List.mem_of_getElem? found)).distinct
  rw [← aligned_denseTable_iff d uids]
  constructor
  · intro added
    exact added ⟨r, denseTable d⟩ (List.mem_append_right _ (List.mem_singleton_self _)) d found
  · intro dense inst member model ofModel
    rcases List.mem_append.mp member with old | new
    · exact aligned inst old model ofModel
    · have same := Option.some.inj (List.mem_singleton.mp new)
      subst same
      rw [found, Option.some.injEq] at ofModel
      rw [← ofModel]
      exact dense

theorem step_createInstance (s s' : State) (r : Nat) (accepted : step s (.createInstance r) = .ok s') :
    ∃ d, s.designs[r]? = some d ∧ s' = { s with instances := s.instances ++ [some ⟨r, denseTable d⟩] } := by
  simp only [step, bind, Except.bind, pure, Except.pure] at accepted
  split at accepted
  · contradiction
  next d found => exact ⟨d, (findDesign_spec s r d).mp found, (Except.ok.inj accepted).symm⟩

theorem step_cloneInstance (s s' : State) (index : Nat) (accepted : step s (.cloneInstance index) = .ok s') :
    ∃ inst d, s.instances[index]? = some (some inst) ∧ s.designs[inst.model]? = some d ∧
      s' = { s with instances := s.instances ++ [some ⟨inst.model, denseTable d⟩] } := by
  simp only [step, bind, Except.bind, pure, Except.pure] at accepted
  split at accepted
  · contradiction
  next inst present =>
    split at accepted
    · contradiction
    next d found =>
      exact ⟨inst, d, (findInstance_spec s index inst).mp present, (findDesign_spec s inst.model d).mp found,
        (Except.ok.inj accepted).symm⟩

theorem step_destroyInstance (s s' : State) (index : Nat)
    (accepted : step s (.destroyInstance index) = .ok s') :
    s' = { s with instances := s.instances.set index none } := by
  simp only [step, bind, Except.bind, pure, Except.pure] at accepted
  split at accepted
  · contradiction
  · exact (Except.ok.inj accepted).symm

theorem step_setModel (s s' : State) (index model : Nat) (accepted : step s (.setModel index model) = .ok s') :
    ∃ inst, s.instances[index]? = some (some inst) ∧ (inst.model = model ∧ s' = s ∨
      inst.model ≠ model ∧ ∃ d d' pairs table, s.designs[inst.model]? = some d ∧
        s.designs[model]? = some d' ∧ bitTermMap d.terms d'.terms = .ok pairs ∧
        remap pairs inst.table = .ok table ∧
        s' = { s with instances := s.instances.set index (some ⟨model, table⟩) }) := by
  simp only [step, bind, Except.bind, pure, Except.pure] at accepted
  split at accepted
  · contradiction
  next inst present =>
    refine ⟨inst, (findInstance_spec s index inst).mp present, ?_⟩
    split at accepted
    · next same => exact Or.inl ⟨same, (Except.ok.inj accepted).symm⟩
    next different =>
      refine Or.inr ⟨different, ?_⟩
      split at accepted
      · contradiction
      next d found =>
        split at accepted
        · contradiction
        next d' found' =>
          split at accepted
          · contradiction
          next pairs matched =>
            split at accepted
            · contradiction
            next table redirected =>
              exact ⟨d, d', pairs, table, (findDesign_spec s inst.model d).mp found,
                (findDesign_spec s model d').mp found', matched, redirected, (Except.ok.inj accepted).symm⟩

theorem allAligned_setModel_iff (s : State) (index model : Nat) (inst : Instance) (d d' : Design)
    (pairs : List (BitTerm × BitTerm)) (table : Table) (sound : Sound s) (aligned : AllAligned s)
    (present : s.instances[index]? = some (some inst)) (found : s.designs[inst.model]? = some d)
    (found' : s.designs[model]? = some d') (matched : bitTermMap d.terms d'.terms = .ok pairs)
    (redirected : remap pairs inst.table = .ok table) :
    AllAligned { s with instances := s.instances.set index (some ⟨model, table⟩) } ↔ SameFlatIDs d d' := by
  have bound := (List.getElem?_eq_some_iff.mp present).1
  have uids := (sound.ordered d (List.mem_of_getElem? found)).distinct
  have uids' := (sound.ordered d' (List.mem_of_getElem? found')).distinct
  have old := aligned inst (List.mem_of_getElem? present) d found
  rw [← aligned_remap_iff d d' inst.table table pairs old uids uids' matched redirected]
  constructor
  · intro moved
    exact moved ⟨model, table⟩ (List.mem_set bound _) d' found'
  · intro redirectedAligned other member design ofModel
    rcases List.mem_or_eq_of_mem_set member with before | new
    · exact aligned other before design ofModel
    · have same := Option.some.inj new
      subst same
      rw [found', Option.some.injEq] at ofModel
      rw [← ofModel]
      exact redirectedAligned

/-! ### One operation -/

theorem step_cloneInterface (s s' : State) (r : Nat) (name : String)
    (accepted : step s (.cloneInterface r name) = .ok s') :
    ∃ d, s.designs[r]? = some d ∧ s' = ⟨s.designs ++ [⟨name, false,
      d.terms.zipIdx.map (fun (t, k) => { t with uid := s.nextUid + k })⟩], s.instances,
      s.nextUid + d.terms.length⟩ := by
  simp only [step, bind, Except.bind, pure, Except.pure, throw, throwThe, MonadExceptOf.throw] at accepted
  split at accepted
  · contradiction
  next d found =>
    split at accepted
    · contradiction
    · exact ⟨d, (findDesign_spec s r d).mp found, (Except.ok.inj accepted).symm⟩

theorem ordered_clone (d : Design) (uid : Nat) (name : String) (ordered : d.Ordered uid) :
    (⟨name, false, d.terms.zipIdx.map (fun (t, k) => { t with uid := uid + k })⟩ : Design).Ordered
      (uid + d.terms.length) := by
  refine ⟨?_, ?_, ?_⟩
  · have uids : (d.terms.zipIdx.map (fun (t, k) => ({ t with uid := uid + k } : Term))).map Term.uid =
        (d.terms.zipIdx.map Prod.snd).map (uid + ·) := by
      rw [List.map_map, List.map_map]
      rfl
    rw [uids, List.zipIdx_map_snd]
    exact List.Nodup.map (fun _ _ same => Nat.add_left_cancel same) List.nodup_range'
  · intro t member
    obtain ⟨pair, inPairs, rfl⟩ := List.mem_map.mp member
    have bound := List.snd_lt_of_mem_zipIdx inPairs
    simp only
    omega
  · have ids : (d.terms.zipIdx.map (fun (t, k) => ({ t with uid := uid + k } : Term))).map Term.id =
        d.terms.map Term.id := by
      conv_rhs => rw [← List.zipIdx_map_fst 0 d.terms]
      rw [List.map_map, List.map_map]
      rfl
    have pairs := (List.pairwise_map (f := Term.id) (R := (· < ·))).mpr ordered.sorted
    rw [← ids] at pairs
    exact List.pairwise_map.mp pairs

theorem sound_addDesign (s : State) (d : Design) (uid : Nat) (sound : Sound s) (le : s.nextUid ≤ uid)
    (ordered : d.Ordered uid) : Sound ⟨s.designs ++ [d], s.instances, uid⟩ := by
  refine ⟨?_, ?_, ?_⟩
  · intro design member
    rcases List.mem_append.mp member with old | new
    · exact (sound.ordered design old).mono le
    · rw [List.mem_singleton.mp new]
      exact ordered
  · intro inst member
    have bound := sound.model inst member
    rw [List.length_append]
    exact Nat.lt_add_right _ bound
  · intro inst member
    exact (sound.below inst member).mono le

theorem allAligned_addDesign (s : State) (d : Design) (uid : Nat) (sound : Sound s)
    (aligned : AllAligned s) : AllAligned ⟨s.designs ++ [d], s.instances, uid⟩ := by
  intro inst member design found
  rw [List.getElem?_append_left (sound.model inst member)] at found
  exact aligned inst member design found

theorem below_shiftEntries (uid base removeCount : Nat) (table : Table) (positions : List Nat)
    (below : Below uid table) : Below uid (shiftEntries base removeCount table positions) := by
  induction positions generalizing table with
  | nil => exact below
  | cons i rest ih =>
      apply ih
      intro slot b entry
      rw [List.getElem?_set] at entry
      split at entry
      · split at entry <;> simp at entry
      · rw [List.getElem?_set] at entry
        split at entry
        · split at entry
          · have moved := Option.join_eq_some_iff.mp (Option.some.inj entry)
            exact below _ b moved
          · contradiction
        · exact below slot b entry

theorem below_denseTable (s : State) (d : Design) (sound : Sound s) (member : d ∈ s.designs) :
    Below s.nextUid (denseTable d) := by
  intro slot b entry
  rw [denseTable_eq] at entry
  obtain ⟨bit, inBits, same⟩ := List.mem_map.mp (List.mem_of_getElem? entry)
  obtain ⟨t, inTerms, ofTerm⟩ := List.mem_flatMap.mp inBits
  obtain ⟨i, -, rfl⟩ := (t.mem_getBits bit).mp ofTerm
  rw [← Option.some.inj same, t.bitAt_term]
  exact (sound.ordered d member).created t inTerms

theorem below_remap (s : State) (d d' : Design) (pairs : List (BitTerm × BitTerm)) (table table' : Table)
    (sound : Sound s) (member : d ∈ s.designs) (member' : d' ∈ s.designs)
    (matched : bitTermMap d.terms d'.terms = .ok pairs) (redirected : remap pairs table = .ok table') :
    Below s.nextUid table' := by
  obtain ⟨-, -, members, keys⟩ := bitTermMap_spec d.terms d'.terms pairs matched
  intro slot b' entry
  obtain ⟨b, -, target⟩ := ((remap_spec pairs table table' redirected).1 slot b').mp entry
  have nodup := nodup_getBits d.terms (sound.ordered d member).distinct
  rw [lookup_eq_some_iff pairs (keys ▸ nodup), members] at target
  obtain ⟨k, t, t', i, -, found', -, -, rfl⟩ := target
  rw [t'.bitAt_term]
  exact (sound.ordered d' member').created t' (List.mem_of_getElem? found')

theorem sound_instances (s : State) (instances : List (Option Instance)) (sound : Sound s)
    (each : ∀ inst, some inst ∈ instances → some inst ∈ s.instances ∨
      inst.model < s.designs.length ∧ Below s.nextUid inst.table) :
    Sound { s with instances := instances } := by
  refine ⟨sound.ordered, ?_, ?_⟩
  · intro inst member
    rcases each inst member with old | new
    · exact sound.model inst old
    · exact new.1
  · intro inst member
    rcases each inst member with old | new
    · exact sound.below inst old
    · exact new.2

theorem sound_addInstance (s : State) (r : Nat) (d : Design) (sound : Sound s)
    (found : s.designs[r]? = some d) :
    Sound { s with instances := s.instances ++ [some ⟨r, denseTable d⟩] } := by
  apply sound_instances s _ sound
  intro inst member
  rcases List.mem_append.mp member with old | new
  · exact Or.inl old
  · rw [Option.some.inj (List.mem_singleton.mp new)]
    exact Or.inr ⟨(List.getElem?_eq_some_iff.mp found).1,
      below_denseTable s d sound (List.mem_of_getElem? found)⟩

theorem step_sound (s s' : State) (operation : Operation) (sound : Sound s)
    (accepted : step s operation = .ok s') : Sound s' := by
  cases operation with
  | createDesign name isPrimitive =>
      rw [← Except.ok.inj accepted]
      apply sound_addDesign s _ s.nextUid sound (Nat.le_refl _)
      exact ⟨List.nodup_nil, fun t member => absurd member List.not_mem_nil, List.Pairwise.nil⟩
  | cloneInterface r name =>
      obtain ⟨d, found, rfl⟩ := step_cloneInterface s s' r name accepted
      exact sound_addDesign s _ _ sound (Nat.le_add_right _ _)
        (ordered_clone d _ name (sound.ordered d (List.mem_of_getElem? found)))
  | createTerm r id name direction range =>
      obtain ⟨d, found, rfl⟩ := step_createTerm s s' r id name direction range accepted
      apply sound_edit s r d _ _ _ sound (Nat.le_succ _)
      · exact ordered_insertTerm d _ (sound.ordered d (List.mem_of_getElem? found))
      · intro inst member below
        exact below_append s.nextUid inst.table _ below rfl
  | destroyTerm r id =>
      obtain ⟨d, t, found, member, same, rfl⟩ := step_destroyTerm s s' r id accepted
      apply sound_edit s r d _ _ _ sound (Nat.le_refl _)
      · exact ordered_filter d _ id (sound.ordered d (List.mem_of_getElem? found))
      · intro inst inInstances below
        exact below_removeBits _ _ _ below
  | setMSB r id msb =>
      obtain ⟨d, t, oldMSB, lsb, found, lookup, bus, outcome⟩ := step_setMSB s s' r id msb accepted
      obtain ⟨member, rfl⟩ := getTerm_spec d id t lookup
      rcases outcome with ⟨-, rfl⟩ | ⟨-, -, rfl⟩
      · exact sound
      · apply sound_edit s r d _ _ _ sound (Nat.le_refl _)
        · exact ordered_replaceTerm d _ (sound.ordered d (List.mem_of_getElem? found)) t member _
        · intro inst inInstances below
          exact below_shiftEntries _ _ _ _ _ (below_removeBits _ _ _ below)
  | setLSB r id lsb =>
      obtain ⟨d, t, msb, oldLSB, found, lookup, bus, outcome⟩ := step_setLSB s s' r id lsb accepted
      obtain ⟨member, rfl⟩ := getTerm_spec d id t lookup
      rcases outcome with rfl | ⟨-, rfl⟩
      · exact sound
      · apply sound_edit s r d _ _ _ sound (Nat.le_refl _)
        · exact ordered_replaceTerm d _ (sound.ordered d (List.mem_of_getElem? found)) t member _
        · intro inst inInstances below
          exact below_removeBits _ _ _ below
  | createInstance r =>
      obtain ⟨d, found, rfl⟩ := step_createInstance s s' r accepted
      exact sound_addInstance s r d sound found
  | cloneInstance index =>
      obtain ⟨inst, d, present, found, rfl⟩ := step_cloneInstance s s' index accepted
      exact sound_addInstance s inst.model d sound found
  | destroyInstance index =>
      rw [step_destroyInstance s s' index accepted]
      apply sound_instances s _ sound
      intro inst member
      rcases List.mem_or_eq_of_mem_set member with old | new
      · exact Or.inl old
      · contradiction
  | setModel index model =>
      obtain ⟨inst, present, outcome⟩ := step_setModel s s' index model accepted
      rcases outcome with ⟨-, rfl⟩ | ⟨-, d, d', pairs, table, found, found', matched, redirected, rfl⟩
      · exact sound
      · apply sound_instances s _ sound
        intro other member
        rcases List.mem_or_eq_of_mem_set member with old | new
        · exact Or.inl old
        · rw [Option.some.inj new]
          exact Or.inr ⟨(List.getElem?_eq_some_iff.mp found').1,
            below_remap s d d' pairs inst.table table sound (List.mem_of_getElem? found)
              (List.mem_of_getElem? found') matched redirected⟩

/-- An accepted operation keeps all tables aligned exactly when it meets the condition. -/
theorem step_allAligned_iff (s s' : State) (operation : Operation) (sound : Sound s)
    (aligned : AllAligned s) (accepted : step s operation = .ok s') :
    AllAligned s' ↔ Keeps s operation := by
  cases operation with
  | createDesign name isPrimitive =>
      rw [← Except.ok.inj accepted]
      exact iff_of_true (allAligned_addDesign s _ s.nextUid sound aligned) trivial
  | cloneInterface r name =>
      obtain ⟨d, found, rfl⟩ := step_cloneInterface s s' r name accepted
      exact iff_of_true (allAligned_addDesign s _ _ sound aligned) trivial
  | createTerm r id name direction range =>
      obtain ⟨d, found, rfl⟩ := step_createTerm s s' r id name direction range accepted
      rw [allAligned_addTerm_iff s r d _ sound aligned found rfl rfl]
      simp [Keeps, found]
  | destroyTerm r id =>
      obtain ⟨d, t, found, member, rfl, rfl⟩ := step_destroyTerm s s' r id accepted
      exact iff_of_true (allAligned_destroyTerm s r d t sound aligned found member) trivial
  | setMSB r id msb =>
      obtain ⟨d, t, oldMSB, lsb, found, lookup, bus, outcome⟩ := step_setMSB s s' r id msb accepted
      have keeps : Keeps s (.setMSB r id msb) ↔
          msb = oldMSB ∨ d.isPrimitive = false ∨ slavesOf s r = [] := by
        simp [Keeps, found, lookup, bus]
      obtain ⟨member, rfl⟩ := getTerm_spec d id t lookup
      rcases outcome with ⟨same, rfl⟩ | ⟨different, between, rfl⟩
      · exact iff_of_true aligned (keeps.mpr (Or.inl same))
      · rw [keeps, or_iff_right different]
        exact allAligned_setMSB_iff s r d t oldMSB msb lsb sound aligned found member bus different between
  | setLSB r id lsb =>
      obtain ⟨d, t, msb, oldLSB, found, lookup, bus, outcome⟩ := step_setLSB s s' r id lsb accepted
      obtain ⟨member, rfl⟩ := getTerm_spec d id t lookup
      refine iff_of_true ?_ trivial
      rcases outcome with rfl | ⟨between, rfl⟩
      · exact aligned
      · exact allAligned_setLSB s r d t msb oldLSB lsb sound aligned found member bus between
  | createInstance r =>
      obtain ⟨d, found, rfl⟩ := step_createInstance s s' r accepted
      rw [allAligned_add_iff s r d sound aligned found]
      simp [Keeps, found]
  | cloneInstance index =>
      obtain ⟨inst, d, present, found, rfl⟩ := step_cloneInstance s s' index accepted
      rw [allAligned_add_iff s inst.model d sound aligned found]
      simp [Keeps, present, found]
  | destroyInstance index =>
      rw [step_destroyInstance s s' index accepted]
      refine iff_of_true ?_ trivial
      intro inst member
      rcases List.mem_or_eq_of_mem_set member with old | new
      · exact aligned inst old
      · contradiction
  | setModel index model =>
      obtain ⟨inst, present, outcome⟩ := step_setModel s s' index model accepted
      rcases outcome with ⟨same, rfl⟩ | ⟨different, d, d', pairs, table, found, found', matched, redirected, rfl⟩
      · refine iff_of_true aligned ?_
        simp [Keeps, present, same]
      · rw [allAligned_setModel_iff s index model inst d d' pairs table sound aligned present found found'
          matched redirected]
        simp [Keeps, present, different, found, found']

/-! ### Runs -/

def run (s : State) (operations : List Operation) : Except String State := operations.foldlM step s

/-- Every instance holds every bit term of its model once, where `getInstTerm` looks for it. -/
def TablesHold (s : State) : Prop :=
  ∀ inst, some inst ∈ s.instances → ∃ d, s.designs[inst.model]? = some d ∧ HoldsTerms d inst.table

theorem tablesHold_iff (s : State) (sound : Sound s) : TablesHold s ↔ AllAligned s := by
  constructor
  · intro holds inst member d found
    obtain ⟨d', found', terms⟩ := holds inst member
    rw [found, Option.some.injEq] at found'
    subst found'
    exact (holdsTerms_iff_aligned d inst.table).mp terms
  · intro aligned inst member
    have found := List.getElem?_eq_getElem (sound.model inst member)
    exact ⟨_, found, (holdsTerms_iff_aligned _ inst.table).mpr (aligned inst member _ found)⟩

theorem run_append (s s' : State) (done : List Operation) (operation : Operation) :
    run s (done ++ [operation]) = .ok s' ↔ ∃ middle, run s done = .ok middle ∧ step middle operation = .ok s' := by
  unfold run
  rw [List.foldlM_append]
  simp only [List.foldlM_cons, List.foldlM_nil, bind, Except.bind, pure, Except.pure]
  constructor
  · intro accepted
    split at accepted
    · contradiction
    next middle first =>
      split at accepted
      · contradiction
      next last second => exact ⟨middle, first, by rw [second, ← Except.ok.inj accepted]⟩
  · intro found
    obtain ⟨middle, first, second⟩ := found
    rw [first]
    simp only
    rw [second]

theorem sound_initial : Sound State.initial :=
  ⟨fun _ member => absurd member List.not_mem_nil, fun _ member => absurd member List.not_mem_nil,
    fun _ member => absurd member List.not_mem_nil⟩

theorem run_sound (operations : List Operation) (s : State)
    (accepted : run State.initial operations = .ok s) : Sound s := by
  induction operations using List.reverseRecOn generalizing s with
  | nil =>
      rw [← Except.ok.inj accepted]
      exact sound_initial
  | append_singleton done operation ih =>
      obtain ⟨middle, first, second⟩ := (run_append State.initial s done operation).mp accepted
      exact step_sound middle s operation (ih middle first) second

/-- For every sequence of operations: all tables hold their terms in every state it reaches
exactly when every accepted operation in it meets the condition. -/
theorem tables_hold_along_run (operations : List Operation) :
    (∀ done s, done <+: operations → run State.initial done = .ok s → TablesHold s) ↔
      ∀ done operation s s', done ++ [operation] <+: operations → run State.initial done = .ok s →
        step s operation = .ok s' → Keeps s operation := by
  constructor
  · intro holds done operation s s' isPart first second
    have sound := run_sound done s first
    have before := holds done s ((List.prefix_append done [operation]).trans isPart) first
    have after := holds (done ++ [operation]) s' isPart
      ((run_append State.initial s' done operation).mpr ⟨s, first, second⟩)
    rw [tablesHold_iff s sound] at before
    rw [tablesHold_iff s' (step_sound s s' operation sound second)] at after
    exact (step_allAligned_iff s s' operation sound before second).mp after
  · intro keeps done
    -- along the run, one more operation at a time
    induction done using List.reverseRecOn with
    | nil =>
        intro s isPart accepted inst member
        rw [← Except.ok.inj accepted] at member
        exact absurd member List.not_mem_nil
    | append_singleton done operation ih =>
        intro s' isPart accepted
        obtain ⟨s, first, second⟩ := (run_append State.initial s' done operation).mp accepted
        have sound := run_sound done s first
        have before := ih s ((List.prefix_append done [operation]).trans isPart) first
        rw [tablesHold_iff s sound] at before
        rw [tablesHold_iff s' (step_sound s s' operation sound second)]
        exact (step_allAligned_iff s s' operation sound before second).mpr
          (keeps done operation s s' isPart first second)

/-- A term added after another one was destroyed gets its flat ID back, while the instance
has kept the emptied slot and appends the new terminal behind it. -/
theorem table_of_destroyed_term : ∃ s, run State.initial
    [.createDesign "model" false, .createTerm 0 none "a" .Input none, .createInstance 0,
      .destroyTerm 0 0, .createTerm 0 none "b" .Input none] = .ok s ∧ ¬ TablesHold s := by
  refine ⟨⟨[⟨"model", false, [⟨1, 0, "b", .Input, none, 0⟩]⟩],
    [some ⟨0, [none, some ⟨1, 0⟩]⟩], 2⟩, by decide +kernel, ?_⟩
  intro holds
  obtain ⟨d, found, terms⟩ := holds ⟨0, [none, some ⟨1, 0⟩]⟩ (by decide)
  rw [← Option.some.inj found] at terms
  have entry := terms.found ⟨1, 0, "b", .Input, none, 0⟩ (by decide) ⟨1, 0⟩ (by decide)
  exact absurd entry (by decide)

end Naja.InstTerms
