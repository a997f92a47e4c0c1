import Naja.InstTerms.Table

/-! What it means for a table to be aligned with the flat IDs of a model, and
what each edit of a table does to it. -/

namespace Naja.InstTerms

/-- Every bit term of the model has exactly one terminal, found by its flat ID. -/
structure HoldsTerms (d : Design) (table : Table) : Prop where
  found : ∀ t ∈ d.terms, ∀ b ∈ t.getBits, getInstTerm table t b = some b
  once : ∀ t ∈ d.terms, ∀ b ∈ t.getBits, ∀ slot, table[slot]? = some (some b) → slot = t.getFlatID b
  unshared : ∀ t ∈ d.terms, ∀ b ∈ t.getBits, ∀ t' ∈ d.terms, ∀ b' ∈ t'.getBits,
    t.getFlatID b = t'.getFlatID b' → b = b'

/-- The same by positions: bit `i` of `t` is in slot `t.flatID + i` and in no other. -/
structure Aligned (d : Design) (table : Table) : Prop where
  held : ∀ t ∈ d.terms, ∀ i < t.getWidth, table[t.flatID + i]? = some (some (t.bitAt i))
  once : ∀ t ∈ d.terms, ∀ i < t.getWidth, ∀ slot,
    table[slot]? = some (some (t.bitAt i)) → slot = t.flatID + i

theorem holdsTerms_iff_aligned (d : Design) (table : Table) :
    HoldsTerms d table ↔ Aligned d table := by
  constructor
  · intro holds
    refine ⟨?_, ?_⟩
    · intro t member i inside
      have found := holds.found t member (t.bitAt i) ((t.mem_getBits _).mpr ⟨i, inside, rfl⟩)
      unfold getInstTerm at found
      rw [t.getFlatID_bitAt i inside] at found
      cases slot : table[t.flatID + i]? with
      | none =>
          rw [slot] at found
          contradiction
      | some entry =>
          rw [slot] at found
          exact congrArg some found
    · intro t member i inside slot entry
      have same := holds.once t member (t.bitAt i) ((t.mem_getBits _).mpr ⟨i, inside, rfl⟩) slot entry
      rwa [t.getFlatID_bitAt i inside] at same
  · intro aligned
    refine ⟨?_, ?_, ?_⟩
    · intro t member b inBits
      obtain ⟨i, inside, rfl⟩ := (t.mem_getBits b).mp inBits
      unfold getInstTerm
      rw [t.getFlatID_bitAt i inside, aligned.held t member i inside]
      rfl
    · intro t member b inBits slot entry
      obtain ⟨i, inside, rfl⟩ := (t.mem_getBits b).mp inBits
      rw [t.getFlatID_bitAt i inside]
      exact aligned.once t member i inside slot entry
    · intro t member b inBits t' member' b' inBits' same
      obtain ⟨i, inside, rfl⟩ := (t.mem_getBits b).mp inBits
      obtain ⟨j, inside', rfl⟩ := (t'.mem_getBits b').mp inBits'
      rw [t.getFlatID_bitAt i inside, t'.getFlatID_bitAt j inside'] at same
      have left := aligned.held t member i inside
      rw [same, aligned.held t' member' j inside'] at left
      exact (Option.some.inj (Option.some.inj left)).symm

/-! ### Appending terminals -/

theorem foldl_createInstTerm (bits : List BitTerm) (table : Table) :
    bits.foldl createInstTerm table = table ++ bits.map some := by
  induction bits generalizing table with
  | nil => simp
  | cons b rest ih =>
      rw [List.foldl_cons, ih]
      simp [createInstTerm]

theorem denseTable_eq (d : Design) : denseTable d = d.getBitTerms.map some := by
  rw [denseTable, foldl_createInstTerm, List.nil_append]

/-- The entries of the table belong to terms created before `uid`. -/
def Below (uid : Nat) (table : Table) : Prop :=
  ∀ (slot : Nat) (b : BitTerm), table[slot]? = some (some b) → b.term < uid

private theorem getElem?_append_bits (table : Table) (t : Term) (slot : Nat) :
    (table ++ t.getBits.map some)[slot]? =
      if slot < table.length then table[slot]?
      else if slot - table.length < t.getWidth then some (some (t.bitAt (slot - table.length)))
      else none := by
  by_cases inside : slot < table.length
  · rw [List.getElem?_append_left inside, if_pos inside]
  · rw [List.getElem?_append_right (by omega), if_neg inside]
    by_cases added : slot - table.length < t.getWidth
    · simp [Term.getBits, added]
    · simp [Term.getBits, added]

/-- A slave instance stays aligned when a term is added exactly when its table is as long as
the flat ID of the new term. -/
theorem aligned_addTerm (d : Design) (table : Table) (term : Term) (aligned : Aligned d table)
    (below : Below term.uid table) (older : ∀ t ∈ d.terms, t.uid < term.uid)
    (terms : List Term) (members : ∀ t, t ∈ terms ↔ t = term ∨ t ∈ d.terms) :
    Aligned { d with terms := terms } (table ++ term.getBits.map some) ↔ table.length = term.flatID := by
  constructor
  · intro extended
    have first := extended.held term ((members term).mpr (Or.inl rfl)) 0 term.width_pos
    rw [getElem?_append_bits, Nat.add_zero] at first
    split at first
    · have old := below _ _ first
      rw [term.bitAt_term] at old
      omega
    · split at first
      · next notInside added =>
          have same := Option.some.inj (Option.some.inj first)
          have zero := term.bitAt_injective _ 0 added term.width_pos same
          omega
      · contradiction
  · intro length
    refine ⟨?_, ?_⟩
    · intro t member i inside
      rw [getElem?_append_bits]
      rcases (members t).mp member with rfl | old
      · rw [if_neg (by omega), if_pos (by omega)]
        congr 3
        omega
      · have held := aligned.held t old i inside
        rw [if_pos (List.getElem?_eq_some_iff.mp held).1, held]
    · intro t member i inside slot entry
      rw [getElem?_append_bits] at entry
      split at entry
      · rcases (members t).mp member with rfl | old
        · have bound := below _ _ entry
          rw [t.bitAt_term] at bound
          omega
        · exact aligned.once t old i inside slot entry
      · split at entry
        · next notInside added =>
            have same := Option.some.inj (Option.some.inj entry)
            rcases (members t).mp member with rfl | old
            · have equal := t.bitAt_injective _ _ added inside same
              omega
            · have uids := congrArg BitTerm.term same
              rw [term.bitAt_term, t.bitAt_term] at uids
              have bound := older t old
              omega
        · contradiction

/-- Terminals appended for a term that is not in the design change nothing. -/
theorem aligned_append (d : Design) (table : Table) (term : Term) (aligned : Aligned d table)
    (older : ∀ t ∈ d.terms, t.uid < term.uid) : Aligned d (table ++ term.getBits.map some) := by
  refine ⟨?_, ?_⟩
  · intro t member i inside
    have held := aligned.held t member i inside
    rw [getElem?_append_bits, if_pos (List.getElem?_eq_some_iff.mp held).1, held]
  · intro t member i inside slot entry
    rw [getElem?_append_bits] at entry
    split at entry
    · exact aligned.once t member i inside slot entry
    · split at entry
      · have uids := congrArg BitTerm.term (Option.some.inj (Option.some.inj entry))
        rw [term.bitAt_term, t.bitAt_term] at uids
        have bound := older t member
        omega
      · contradiction

/-- A table that misses the new term is not aligned with the extended design. -/
theorem not_aligned_of_missing (d : Design) (table : Table) (term : Term)
    (below : Below term.uid table) (member : term ∈ d.terms) : ¬ Aligned d table := by
  intro aligned
  have old := below _ _ (aligned.held term member 0 term.width_pos)
  rw [term.bitAt_term] at old
  omega

/-! ### Removing terminals -/

theorem length_removeBits (table : Table) (flatIDs : List Nat) :
    (removeBits table flatIDs).length = table.length := by
  induction flatIDs generalizing table with
  | nil => rfl
  | cons flatID rest ih =>
      have next := ih (removeInstTerm table flatID)
      unfold removeBits at next ⊢
      rw [List.foldl_cons, next, removeInstTerm, List.length_set]

theorem getElem?_removeBits (table : Table) (flatIDs : List Nat) (slot : Nat) (entry : BitTerm) :
    (removeBits table flatIDs)[slot]? = some (some entry) ↔
      slot ∉ flatIDs ∧ table[slot]? = some (some entry) := by
  induction flatIDs generalizing table with
  | nil => simp [removeBits]
  | cons flatID rest ih =>
      have next := ih (removeInstTerm table flatID)
      unfold removeBits at next ⊢
      rw [List.foldl_cons, next, removeInstTerm, List.getElem?_set, List.mem_cons]
      by_cases same : flatID = slot
      · subst same
        simp
      · rw [if_neg same]
        simp [Ne.symm same]

/-- Removing the terminals of some bits keeps a table aligned with a design whose terms are
bits of the old ones that were not removed. -/
theorem aligned_removeBits (d d' : Design) (table : Table) (flatIDs : List Nat)
    (aligned : Aligned d table)
    (kept : ∀ t' ∈ d'.terms, ∀ i < t'.getWidth, ∃ t ∈ d.terms, ∃ j < t.getWidth,
      t'.bitAt i = t.bitAt j ∧ t'.flatID + i = t.flatID + j ∧ t.flatID + j ∉ flatIDs) :
    Aligned d' (removeBits table flatIDs) := by
  refine ⟨?_, ?_⟩
  · intro t' member i inside
    obtain ⟨t, old, j, within, same, place, free⟩ := kept t' member i inside
    rw [getElem?_removeBits, place, same]
    exact ⟨free, aligned.held t old j within⟩
  · intro t' member i inside slot entry
    obtain ⟨t, old, j, within, same, place, free⟩ := kept t' member i inside
    rw [getElem?_removeBits, same] at entry
    rw [place]
    exact aligned.once t old j within slot entry.2

theorem length_shiftEntries (base removeCount : Nat) (table : Table) (positions : List Nat) :
    (shiftEntries base removeCount table positions).length = table.length := by
  induction positions generalizing table with
  | nil => rfl
  | cons i rest ih =>
      unfold shiftEntries at ih ⊢
      rw [List.foldl_cons, ih, List.length_set, List.length_set]

/-- Entry of a slot after the moves of the positions `removeCount`, …, `removeCount + count - 1`. -/
theorem getElem?_shiftEntries (base removeCount count : Nat) (table : Table) (slot : Nat)
    (positive : 0 < removeCount) (bound : base + removeCount + count ≤ table.length) :
    (shiftEntries base removeCount table ((List.range count).map (removeCount + ·)))[slot]? =
      if base ≤ slot ∧ slot < base + count then some (table[slot + removeCount]?).join
      else if base + removeCount ≤ slot ∧ slot < base + removeCount + count then some none
      else table[slot]? := by
  induction count generalizing slot with
  | zero =>
      rw [if_neg (by omega), if_neg (by omega)]
      rfl
  | succ count ih =>
      have within : base + removeCount + count ≤ table.length := by omega
      have moved : shiftEntries base removeCount table
          ((List.range (count + 1)).map (removeCount + ·)) =
          let earlier := shiftEntries base removeCount table
            ((List.range count).map (removeCount + ·))
          (earlier.set (base + count) ((earlier[base + removeCount + count]?).join)).set
            (base + removeCount + count) none := by
        unfold shiftEntries
        rw [List.range_succ, List.map_append, List.foldl_append, List.map_singleton,
          List.foldl_cons, List.foldl_nil]
        rw [show base + (removeCount + count) - removeCount = base + count by omega,
          ← Nat.add_assoc]
      have source := ih (base + removeCount + count) within
      rw [if_neg (by omega), if_neg (by omega)] at source
      have length := length_shiftEntries base removeCount table
        ((List.range count).map (removeCount + ·))
      rw [moved]
      simp only
      rw [source, List.getElem?_set, List.length_set, length, List.getElem?_set, length, ih slot within]
      by_cases isSource : base + removeCount + count = slot
      · subst isSource
        rw [if_pos rfl, if_pos (by omega), if_neg (by omega), if_pos (by omega)]
      · rw [if_neg isSource]
        by_cases isTarget : base + count = slot
        · subst isTarget
          rw [if_pos rfl, if_pos (by omega), if_pos (by omega)]
          congr 3
          omega
        · rw [if_neg isTarget]
          by_cases low : base ≤ slot ∧ slot < base + count
          · rw [if_pos low, if_pos (by omega)]
          · rw [if_neg low]
            by_cases high : base + removeCount ≤ slot ∧ slot < base + removeCount + count
            · rw [if_pos high, if_neg (by omega), if_pos (by omega)]
            · rw [if_neg high, if_neg (by omega), if_neg (by omega)]

/-! ### Resizing a bus -/

/-- The bits that `setMSB` keeps, by their old positions. -/
theorem resize_msb (t : Term) (oldMSB msb lsb : Int) (bus : t.range = some (oldMSB, lsb))
    (between : isBetween msb oldMSB lsb = true) :
    ({ t with range := some (msb, lsb) } : Term).getWidth + (oldMSB - msb).natAbs = t.getWidth ∧
      ∀ i < ({ t with range := some (msb, lsb) } : Term).getWidth,
        ({ t with range := some (msb, lsb) } : Term).bitAt i = t.bitAt (i + (oldMSB - msb).natAbs) := by
  simp only [isBetween, Bool.and_eq_true, decide_eq_true_eq] at between
  simp only [Term.getWidth, Term.bitAt, bus]
  refine ⟨by omega, ?_⟩
  intro i inside
  congr 1
  split <;> split <;> omega

/-- The bits that `setLSB` keeps stay where they are. -/
theorem resize_lsb (t : Term) (msb oldLSB lsb : Int) (bus : t.range = some (msb, oldLSB))
    (between : isBetween lsb msb oldLSB = true) :
    ({ t with range := some (msb, lsb) } : Term).getWidth + (oldLSB - lsb).natAbs = t.getWidth ∧
      ∀ i < ({ t with range := some (msb, lsb) } : Term).getWidth,
        ({ t with range := some (msb, lsb) } : Term).bitAt i = t.bitAt i := by
  simp only [isBetween, Bool.and_eq_true, decide_eq_true_eq] at between
  simp only [Term.getWidth, Term.bitAt, bus]
  refine ⟨by omega, ?_⟩
  intro i inside
  congr 1
  split <;> split <;> omega

/-- Flat IDs of the bits at the positions of a list. -/
theorem map_getFlatID (t : Term) (positions : List Nat) (inside : ∀ i ∈ positions, i < t.getWidth) :
    (positions.map t.bitAt).map t.getFlatID = positions.map (t.flatID + ·) := by
  rw [List.map_map]
  apply List.map_congr_left
  intro i member
  exact t.getFlatID_bitAt i (inside i member)

/-- Moving the kept entries of a bus keeps the table aligned with the resized bus. -/
theorem aligned_shift (d d' : Design) (table : Table) (t t' : Term) (removeCount : Nat)
    (aligned : Aligned d table) (member : t ∈ d.terms) (positive : 0 < removeCount)
    (width : t'.getWidth + removeCount = t.getWidth) (place : t'.flatID = t.flatID)
    (bits : ∀ i < t'.getWidth, t'.bitAt i = t.bitAt (i + removeCount))
    (others : ∀ other ∈ d'.terms, other = t' ∨ other ∈ d.terms ∧ other.uid ≠ t.uid) :
    Aligned d' (shiftEntries t.flatID removeCount
      (removeBits table ((List.range removeCount).map (t.flatID + ·)))
      ((List.range t'.getWidth).map (removeCount + ·))) := by
  have removed (slot : Nat) : slot ∈ (List.range removeCount).map (t.flatID + ·) ↔
      t.flatID ≤ slot ∧ slot < t.flatID + removeCount := by
    simp only [List.mem_map, List.mem_range]
    constructor
    · intro found
      obtain ⟨i, inside, same⟩ := found
      omega
    · intro inside
      exact ⟨slot - t.flatID, by omega, by omega⟩
  have length := length_removeBits table ((List.range removeCount).map (t.flatID + ·))
  have lastHeld := aligned.held t member (t.getWidth - 1) (by have := t.width_pos; omega)
  have bound := (List.getElem?_eq_some_iff.mp lastHeld).1
  have own (slot : Nat) (inside : t.flatID ≤ slot ∧ slot < t.flatID + t.getWidth) :
      table[slot]? = some (some (t.bitAt (slot - t.flatID))) := by
    have held := aligned.held t member (slot - t.flatID) (by omega)
    rwa [show t.flatID + (slot - t.flatID) = slot by omega] at held
  -- another term never has an entry in the slots of the bus
  have apart (other : Term) (old : other ∈ d.terms) (distinct : other.uid ≠ t.uid) (i : Nat) (slot : Nat)
      (entry : table[slot]? = some (some (other.bitAt i))) :
      ¬ (t.flatID ≤ slot ∧ slot < t.flatID + t.getWidth) := by
    intro inside
    rw [own slot inside] at entry
    have uids := congrArg BitTerm.term (Option.some.inj (Option.some.inj entry))
    rw [t.bitAt_term, other.bitAt_term] at uids
    exact distinct uids.symm
  have moved := getElem?_shiftEntries t.flatID removeCount t'.getWidth
    (removeBits table ((List.range removeCount).map (t.flatID + ·)))
  refine ⟨?_, ?_⟩
  · intro other inTerms i inside
    rw [moved _ positive (by omega)]
    rcases others other inTerms with rfl | ⟨old, distinct⟩
    · rw [place, if_pos (by omega), bits i inside]
      have kept : (removeBits table ((List.range removeCount).map (t.flatID + ·)))[t.flatID + i +
          removeCount]? = some (some (t.bitAt (i + removeCount))) := by
        rw [getElem?_removeBits, removed, own _ (by omega)]
        exact ⟨by omega, by congr 3; omega⟩
      rw [kept]
      rfl
    · have held := aligned.held other old i inside
      have outside := apart other old distinct i _ held
      rw [if_neg (by omega), if_neg (by omega), getElem?_removeBits, removed]
      exact ⟨by omega, held⟩
  · intro other inTerms i inside slot entry
    rw [moved _ positive (by omega)] at entry
    split at entry
    · next low =>
        have kept : (removeBits table ((List.range removeCount).map (t.flatID + ·)))[slot +
            removeCount]? = some (some (other.bitAt i)) := by
          cases found : (removeBits table
              ((List.range removeCount).map (t.flatID + ·)))[slot + removeCount]? with
          | none =>
              rw [found] at entry
              exact absurd (Option.some.inj entry) nofun
          | some content =>
              rw [found] at entry
              exact congrArg some (Option.some.inj entry)
        rw [getElem?_removeBits] at kept
        rcases others other inTerms with rfl | ⟨old, distinct⟩
        · rw [bits i inside] at kept
          have same := aligned.once t member (i + removeCount) (by omega) _ kept.2
          omega
        · exact absurd (by omega) (apart other old distinct i _ kept.2)
    · split at entry
      · exact absurd (Option.some.inj entry) nofun
      · next notLow notHigh =>
          rw [getElem?_removeBits, removed] at entry
          rcases others other inTerms with rfl | ⟨old, distinct⟩
          · rw [bits i inside] at entry
            have same := aligned.once t member (i + removeCount) (by omega) _ entry.2
            omega
          · exact aligned.once other old i inside slot entry.2

end Naja.InstTerms
