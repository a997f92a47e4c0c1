import Naja.InstTerms.Alignment

/-! Tables built densely for a new instance, and tables redirected to another
model: both are aligned exactly when the flat IDs of the terms say so. -/

namespace Naja.InstTerms

/-- Flat IDs of consecutive terms without a gap, from `start` on. -/
def FlatFrom : Nat → List Term → Prop
  | _, [] => True
  | start, t :: rest => t.flatID = start ∧ FlatFrom (start + t.getWidth) rest

/-- The flat ID of every bit term is its order ID. -/
def Design.Dense (d : Design) : Prop := FlatFrom 0 d.terms

theorem getElem?_getBits (t : Term) (slot : Nat) :
    t.getBits[slot]? = if slot < t.getWidth then some (t.bitAt slot) else none := by
  unfold Term.getBits
  by_cases inside : slot < t.getWidth
  · simp [inside]
  · simp [inside]

private theorem getElem?_flatMap_cons (t : Term) (rest : List Term) (slot : Nat) :
    ((t :: rest).flatMap Term.getBits)[slot]? =
      if slot < t.getWidth then some (t.bitAt slot)
      else (rest.flatMap Term.getBits)[slot - t.getWidth]? := by
  rw [List.flatMap_cons]
  by_cases inside : slot < t.getWidth
  · rw [List.getElem?_append_left (by simpa using inside), getElem?_getBits, if_pos inside,
      if_pos inside]
  · rw [List.getElem?_append_right (by simpa using inside), if_neg inside, t.length_getBits]

private theorem term_of_getElem? (terms : List Term) (slot : Nat) (b : BitTerm)
    (found : (terms.flatMap Term.getBits)[slot]? = some b) : ∃ t ∈ terms, b.term = t.uid := by
  obtain ⟨t, member, inBits⟩ := List.mem_flatMap.mp (List.mem_of_getElem? found)
  obtain ⟨i, -, rfl⟩ := (t.mem_getBits b).mp inBits
  exact ⟨t, member, t.bitAt_term i⟩

/-- With gapless flat IDs the bits stand at their flat IDs. -/
theorem getElem?_of_flatFrom (terms : List Term) (start : Nat) (uids : (terms.map Term.uid).Nodup)
    (flat : FlatFrom start terms) (t : Term) (member : t ∈ terms) (i slot : Nat)
    (inside : i < t.getWidth) :
    (terms.flatMap Term.getBits)[slot]? = some (t.bitAt i) ↔ slot + start = t.flatID + i := by
  induction terms generalizing start slot with
  | nil => contradiction
  | cons head rest ih =>
      obtain ⟨place, later⟩ := flat
      rw [List.map_cons, List.nodup_cons] at uids
      rw [getElem?_flatMap_cons]
      rcases List.mem_cons.mp member with rfl | inRest
      · by_cases low : slot < t.getWidth
        · rw [if_pos low, Option.some.injEq]
          constructor
          · intro same
            have equal := t.bitAt_injective slot i low inside same
            omega
          · intro same
            rw [show slot = i by omega]
        · rw [if_neg low]
          refine iff_of_false ?_ (by omega)
          intro found
          obtain ⟨other, inRest, same⟩ := term_of_getElem? rest _ _ found
          rw [t.bitAt_term] at same
          exact uids.1 (List.mem_map.mpr ⟨other, inRest, same.symm⟩)
      · have distinct : head.uid ≠ t.uid := by
          intro same
          exact uids.1 (List.mem_map.mpr ⟨t, inRest, same.symm⟩)
        have above : ∀ terms start, FlatFrom start terms → t ∈ terms → start ≤ t.flatID := by
          intro terms
          induction terms with
          | nil => exact fun _ _ member => absurd member List.not_mem_nil
          | cons first others step =>
              intro start flat member
              rcases List.mem_cons.mp member with rfl | inOthers
              · exact Nat.le_of_eq flat.1.symm
              · have bound := step _ flat.2 inOthers
                omega
        have bound := above rest _ later inRest
        by_cases low : slot < head.getWidth
        · rw [if_pos low]
          refine iff_of_false ?_ (by omega)
          intro found
          have uid := congrArg BitTerm.term (Option.some.inj found)
          rw [head.bitAt_term, t.bitAt_term] at uid
          exact distinct uid
        · rw [if_neg low, ih _ uids.2 later inRest]
          omega

theorem flatFrom_of_getElem? (terms : List Term) (start : Nat) (uids : (terms.map Term.uid).Nodup)
    (placed : ∀ t ∈ terms, ∀ i < t.getWidth, ∃ slot, slot + start = t.flatID + i ∧
      (terms.flatMap Term.getBits)[slot]? = some (t.bitAt i)) : FlatFrom start terms := by
  induction terms generalizing start with
  | nil => trivial
  | cons head rest ih =>
      rw [List.map_cons, List.nodup_cons] at uids
      refine ⟨?_, ih _ uids.2 ?_⟩
      · obtain ⟨slot, place, found⟩ := placed head List.mem_cons_self 0 head.width_pos
        rw [getElem?_flatMap_cons] at found
        split at found
        · next low =>
            have same := head.bitAt_injective slot 0 low head.width_pos (Option.some.inj found)
            omega
        · obtain ⟨other, inRest, same⟩ := term_of_getElem? rest _ _ found
          rw [head.bitAt_term] at same
          exact absurd (List.mem_map.mpr ⟨other, inRest, same.symm⟩) uids.1
      · intro t inRest i inside
        obtain ⟨slot, place, found⟩ := placed t (List.mem_cons_of_mem _ inRest) i inside
        rw [getElem?_flatMap_cons] at found
        split at found
        · have uid := congrArg BitTerm.term (Option.some.inj found)
          rw [head.bitAt_term, t.bitAt_term] at uid
          exact absurd (List.mem_map.mpr ⟨t, inRest, uid.symm⟩) uids.1
        · exact ⟨slot - head.getWidth, by omega, found⟩

/-- A new instance is aligned exactly when the flat IDs of its model have no gap. -/
theorem aligned_denseTable_iff (d : Design) (uids : (d.terms.map Term.uid).Nodup) :
    Aligned d (denseTable d) ↔ d.Dense := by
  have entry (slot : Nat) (b : BitTerm) : (denseTable d)[slot]? = some (some b) ↔
      (d.terms.flatMap Term.getBits)[slot]? = some b := by
    rw [denseTable_eq, List.getElem?_map, Option.map_eq_some_iff]
    constructor
    · intro found
      obtain ⟨other, present, same⟩ := found
      rw [← Option.some.inj same]
      exact present
    · intro found
      exact ⟨b, found, rfl⟩
  constructor
  · intro aligned
    apply flatFrom_of_getElem? d.terms 0 uids
    intro t member i inside
    exact ⟨t.flatID + i, rfl, (entry _ _).mp (aligned.held t member i inside)⟩
  · intro dense
    refine ⟨?_, ?_⟩
    · intro t member i inside
      rw [entry, getElem?_of_flatFrom d.terms 0 uids dense t member i _ inside]
      rfl
    · intro t member i inside slot held
      rw [entry, getElem?_of_flatFrom d.terms 0 uids dense t member i _ inside] at held
      exact held

/-! ### Another model -/

theorem checkTerms_range (current new : Term) (checked : checkTerms current new = .ok ()) :
    new.range = current.range := by
  unfold checkTerms at checked
  split at checked
  · contradiction
  split at checked
  · contradiction
  split at checked
  · contradiction
  split at checked
  · contradiction
  split at checked
  · next old later same same' =>
      split at checked
      · contradiction
      · next equal => rw [same, same', Decidable.not_not.mp equal]
  · next same same' => rw [same, same']
  · contradiction

theorem getWidth_of_range (t t' : Term) (same : t'.range = t.range) : t'.getWidth = t.getWidth := by
  unfold Term.getWidth
  rw [same]

/-- What a successful match of two term lists maps to what. -/
theorem bitTermMap_spec (currents news : List Term) (pairs : List (BitTerm × BitTerm))
    (matched : bitTermMap currents news = .ok pairs) :
    currents.length = news.length ∧
    (∀ (k : Nat) (t t' : Term), currents[k]? = some t → news[k]? = some t' → t'.range = t.range) ∧
    (∀ b b' : BitTerm, (b, b') ∈ pairs ↔ ∃ (k : Nat) (t t' : Term) (i : Nat), currents[k]? = some t ∧
      news[k]? = some t' ∧ i < t.getWidth ∧ b = t.bitAt i ∧ b' = t'.bitAt i) ∧
    pairs.map Prod.fst = currents.flatMap Term.getBits := by
  induction currents generalizing news pairs with
  | nil =>
      cases news with
      | nil =>
          rw [← Except.ok.inj matched]
          simp
      | cons new news => contradiction
  | cons current currents ih =>
      cases news with
      | nil => contradiction
      | cons new news =>
          simp only [bitTermMap, bind, Except.bind, pure, Except.pure] at matched
          split at matched
          · contradiction
          next checked =>
            split at matched
            · contradiction
            next rest later =>
              obtain ⟨length, ranges, members, keys⟩ := ih news rest later
              have range := checkTerms_range current new checked
              have width := getWidth_of_range current new range
              rw [← Except.ok.inj matched]
              refine ⟨by simp [length], ?_, ?_, ?_⟩
              · intro k t t' found found'
                cases k with
                | zero =>
                    rw [List.getElem?_cons_zero, Option.some.injEq] at found found'
                    rw [← found, ← found', range]
                | succ k => exact ranges k t t' found found'
              · intro b b'
                rw [List.mem_append, members]
                constructor
                · intro found
                  rcases found with zipped | inRest
                  · obtain ⟨i, bound, same⟩ := List.mem_iff_getElem.mp zipped
                    rw [List.getElem_zip] at same
                    simp only [List.length_zip, Term.length_getBits] at bound
                    refine ⟨0, current, new, i, rfl, rfl, by omega, ?_, ?_⟩
                    · simpa [Term.getBits] using (congrArg Prod.fst same).symm
                    · simpa [Term.getBits] using (congrArg Prod.snd same).symm
                  · obtain ⟨k, rest⟩ := inRest
                    exact ⟨k + 1, rest⟩
                · intro found
                  obtain ⟨k, t, t', i, first, second, inside, rfl, rfl⟩ := found
                  cases k with
                  | zero =>
                      rw [List.getElem?_cons_zero, Option.some.injEq] at first second
                      subst first second
                      refine Or.inl (List.mem_iff_getElem.mpr ⟨i, ?_, ?_⟩)
                      · simp [width, inside]
                      · simp [List.getElem_zip, Term.getBits]
                  | succ k => exact Or.inr ⟨k, t, t', i, first, second, inside, rfl, rfl⟩
              · rw [List.map_append, keys, List.map_fst_zip (by simp [width]), List.flatMap_cons]

theorem lookup_eq_some_iff (pairs : List (BitTerm × BitTerm)) (keys : (pairs.map Prod.fst).Nodup)
    (b b' : BitTerm) : pairs.lookup b = some b' ↔ (b, b') ∈ pairs := by
  induction pairs with
  | nil => simp
  | cons head rest ih =>
      rw [List.map_cons, List.nodup_cons] at keys
      rw [List.lookup_cons, List.mem_cons]
      by_cases same : b = head.1
      · subst same
        rw [beq_self_eq_true]
        constructor
        · intro found
          exact Or.inl (Prod.ext rfl (Option.some.inj found).symm)
        · intro found
          rcases found with equal | inRest
          · rw [← equal]
          · exact absurd (List.mem_map_of_mem inRest) keys.1
      · rw [beq_eq_false_iff_ne.mpr same]
        simp only
        rw [ih keys.2]
        constructor
        · exact Or.inr
        · intro found
          rcases found with equal | inRest
          · exact absurd (congrArg Prod.fst equal) same
          · exact inRest

theorem nodup_getBits (terms : List Term) (uids : (terms.map Term.uid).Nodup) :
    (terms.flatMap Term.getBits).Nodup := by
  rw [List.nodup_flatMap]
  refine ⟨?_, ?_⟩
  · intro t member
    unfold Term.getBits
    apply List.Nodup.map_on _ List.nodup_range
    intro i inI j inJ same
    exact t.bitAt_injective i j (List.mem_range.mp inI) (List.mem_range.mp inJ) same
  · apply List.Pairwise.imp _ (List.pairwise_map.mp uids)
    intro t t' distinct b first second
    obtain ⟨i, -, rfl⟩ := (t.mem_getBits b).mp first
    obtain ⟨j, -, same⟩ := (t'.mem_getBits _).mp second
    have uid := congrArg BitTerm.term same
    rw [t'.bitAt_term, t.bitAt_term] at uid
    exact distinct uid.symm

/-- A redirected table has the images of the entries, slot by slot. -/
theorem remap_spec (pairs : List (BitTerm × BitTerm)) (table table' : Table)
    (redirected : remap pairs table = .ok table') :
    (∀ (slot : Nat) (b' : BitTerm), table'[slot]? = some (some b') ↔
      ∃ b, table[slot]? = some (some b) ∧ pairs.lookup b = some b') ∧
    (∀ (slot : Nat) (b : BitTerm), table[slot]? = some (some b) → ∃ b', pairs.lookup b = some b') := by
  induction table generalizing table' with
  | nil =>
      rw [← Except.ok.inj redirected]
      simp
  | cons entry rest ih =>
      cases entry with
      | none =>
          simp only [remap, bind, Except.bind, pure, Except.pure] at redirected
          split at redirected
          · contradiction
          next later found =>
            rw [← Except.ok.inj redirected]
            obtain ⟨images, total⟩ := ih later found
            refine ⟨?_, ?_⟩
            · intro slot b'
              cases slot with
              | zero => simp
              | succ slot => exact images slot b'
            · intro slot b held
              cases slot with
              | zero => exact absurd (Option.some.inj held) nofun
              | succ slot => exact total slot b held
      | some b₀ =>
          simp only [remap, bind, Except.bind, pure, Except.pure] at redirected
          split at redirected
          · contradiction
          next new target =>
            split at redirected
            · contradiction
            next later found =>
              rw [← Except.ok.inj redirected]
              obtain ⟨images, total⟩ := ih later found
              refine ⟨?_, ?_⟩
              · intro slot b'
                cases slot with
                | zero => simp [target]
                | succ slot => exact images slot b'
              · intro slot b held
                cases slot with
                | zero =>
                    rw [List.getElem?_cons_zero, Option.some.injEq, Option.some.injEq] at held
                    rw [← held]
                    exact ⟨new, target⟩
                | succ slot => exact total slot b held

/-- Equal flat IDs of the corresponding terms of two models. -/
def SameFlatIDs (d d' : Design) : Prop := d.terms.map Term.flatID = d'.terms.map Term.flatID

instance (d d' : Design) : Decidable (SameFlatIDs d d') :=
  inferInstanceAs (Decidable (_ = _))

theorem sameFlatIDs_iff (d d' : Design) (length : d.terms.length = d'.terms.length) :
    SameFlatIDs d d' ↔ ∀ (k : Nat) (t t' : Term), d.terms[k]? = some t → d'.terms[k]? = some t' →
      t.flatID = t'.flatID := by
  unfold SameFlatIDs
  constructor
  · intro same k t t' found found'
    have entries := congrArg (fun flatIDs : List Nat => flatIDs[k]?) same
    simp only [List.getElem?_map, found, found', Option.map_some, Option.some.injEq] at entries
    exact entries
  · intro same
    apply List.ext_getElem (by simp [length])
    intro k inside inside'
    rw [List.getElem_map, List.getElem_map]
    exact same k _ _ (List.getElem?_eq_getElem (by simpa using inside))
      (List.getElem?_eq_getElem (by simpa using inside'))

/-- A redirected instance is aligned exactly when both models give their terms the same
flat IDs. -/
theorem aligned_remap_iff (d d' : Design) (table table' : Table) (pairs : List (BitTerm × BitTerm))
    (aligned : Aligned d table) (uids : (d.terms.map Term.uid).Nodup)
    (uids' : (d'.terms.map Term.uid).Nodup) (matched : bitTermMap d.terms d'.terms = .ok pairs)
    (redirected : remap pairs table = .ok table') : Aligned d' table' ↔ SameFlatIDs d d' := by
  obtain ⟨length, ranges, members, keys⟩ := bitTermMap_spec d.terms d'.terms pairs matched
  obtain ⟨images, -⟩ := remap_spec pairs table table' redirected
  have lookups := lookup_eq_some_iff pairs (keys ▸ nodup_getBits d.terms uids)
  have width (k : Nat) (t t' : Term) (found : d.terms[k]? = some t) (found' : d'.terms[k]? = some t') :=
    getWidth_of_range t t' (ranges k t t' found found')
  -- the only entry that is redirected to bit `i` of a term is bit `i` of its counterpart
  have source (k i : Nat) (t t' : Term) (found : d.terms[k]? = some t) (found' : d'.terms[k]? = some t')
      (inside : i < t'.getWidth) (slot : Nat) :
      table'[slot]? = some (some (t'.bitAt i)) ↔ table[slot]? = some (some (t.bitAt i)) := by
    rw [images]
    constructor
    · intro entry
      obtain ⟨b, held, target⟩ := entry
      rw [lookups, members] at target
      obtain ⟨k₁, t₁, t₁', i₁, first, second, within, rfl, same⟩ := target
      have uid := congrArg BitTerm.term same
      rw [t'.bitAt_term, t₁'.bitAt_term] at uid
      have bound := (List.getElem?_eq_some_iff.mp found').1
      have sameKey : k = k₁ := by
        apply (List.getElem?_inj (by simpa using bound) uids').mp
        rw [List.getElem?_map, List.getElem?_map, found', second, Option.map_some, Option.map_some, uid]
      subst sameKey
      rw [found, Option.some.injEq] at first
      rw [found', Option.some.injEq] at second
      subst first second
      rw [held, t'.bitAt_injective i i₁ inside (by rw [width k t t' found found']; exact within) same]
    · intro held
      refine ⟨t.bitAt i, held, ?_⟩
      rw [lookups, members]
      exact ⟨k, t, t', i, found, found', by rw [← width k t t' found found']; exact inside, rfl, rfl⟩
  rw [sameFlatIDs_iff d d' length]
  constructor
  · intro redirectedAligned k t t' found found'
    have held := redirectedAligned.held t' (List.mem_of_getElem? found') 0 t'.width_pos
    rw [source k 0 t t' found found' t'.width_pos] at held
    exact (aligned.once t (List.mem_of_getElem? found) 0 t.width_pos _ held).symm
  · intro same
    have counterpart (t' : Term) (member : t' ∈ d'.terms) :
        ∃ (k : Nat) (t : Term), d.terms[k]? = some t ∧ d'.terms[k]? = some t' := by
      obtain ⟨k, found'⟩ := List.getElem?_of_mem member
      have bound := (List.getElem?_eq_some_iff.mp found').1
      exact ⟨k, _, List.getElem?_eq_getElem (by omega), found'⟩
    refine ⟨?_, ?_⟩
    · intro t' member i inside
      obtain ⟨k, t, found, found'⟩ := counterpart t' member
      rw [source k i t t' found found' inside, ← same k t t' found found']
      rw [width k t t' found found'] at inside
      exact aligned.held t (List.mem_of_getElem? found) i inside
    · intro t' member i inside slot entry
      obtain ⟨k, t, found, found'⟩ := counterpart t' member
      rw [source k i t t' found found' inside] at entry
      rw [← same k t t' found found']
      rw [width k t t' found found'] at inside
      exact aligned.once t (List.mem_of_getElem? found) i inside slot entry

end Naja.InstTerms
