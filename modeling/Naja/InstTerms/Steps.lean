import Naja.InstTerms.Remap

/-! What every state reached by the operations satisfies, whether or not its
tables are aligned, and how an operation on a model reaches the tables of its
instances. -/

namespace Naja.InstTerms

/-- The ordered set of terms of a design: distinct objects, created before `uid`, by increasing ID. -/
structure Design.Ordered (d : Design) (uid : Nat) : Prop where
  distinct : (d.terms.map Term.uid).Nodup
  created : ∀ t ∈ d.terms, t.uid < uid
  sorted : d.terms.Pairwise (fun t t' => t.id < t'.id)

structure Sound (s : State) : Prop where
  ordered : ∀ d ∈ s.designs, d.Ordered s.nextUid
  model : ∀ inst, some inst ∈ s.instances → inst.model < s.designs.length
  below : ∀ inst, some inst ∈ s.instances → Below s.nextUid inst.table

def AllAligned (s : State) : Prop :=
  ∀ inst, some inst ∈ s.instances → ∀ d, s.designs[inst.model]? = some d → Aligned d inst.table

theorem Design.Ordered.mono {d : Design} {uid uid' : Nat} (ordered : d.Ordered uid) (le : uid ≤ uid') :
    d.Ordered uid' :=
  ⟨ordered.distinct, fun t member => Nat.lt_of_lt_of_le (ordered.created t member) le, ordered.sorted⟩

theorem Below.mono {table : Table} {uid uid' : Nat} (below : Below uid table) (le : uid ≤ uid') :
    Below uid' table :=
  fun slot b entry => Nat.lt_of_lt_of_le (below slot b entry) le

/-! ### The ordered set of terms -/

theorem Design.Ordered.eq_of_id {d : Design} {uid : Nat} (ordered : d.Ordered uid) (t t' : Term)
    (member : t ∈ d.terms) (member' : t' ∈ d.terms) (same : t.id = t'.id) : t = t' := by
  have pairs := ordered.sorted
  generalize d.terms = terms at member member' pairs
  induction terms with
  | nil => contradiction
  | cons head rest ih =>
      rw [List.pairwise_cons] at pairs
      rcases List.mem_cons.mp member with rfl | inRest
      · rcases List.mem_cons.mp member' with rfl | inRest'
        · rfl
        · have less := pairs.1 t' inRest'
          omega
      · rcases List.mem_cons.mp member' with rfl | inRest'
        · have less := pairs.1 t inRest
          omega
        · exact ih inRest inRest' pairs.2

theorem insertTerm_of_taken (term : Term) (terms : List Term)
    (sorted : terms.Pairwise (fun t t' => t.id < t'.id)) (taken : ∃ t ∈ terms, t.id = term.id) :
    insertTerm term terms = terms := by
  induction terms with
  | nil => exact absurd taken (by simp)
  | cons head rest ih =>
      rw [List.pairwise_cons] at sorted
      obtain ⟨t, member, same⟩ := taken
      unfold insertTerm
      rcases List.mem_cons.mp member with rfl | inRest
      · rw [if_neg (by omega), if_pos same.symm]
      · have less := sorted.1 t inRest
        rw [if_neg (by omega), if_neg (by omega), ih sorted.2 ⟨t, inRest, same⟩]

theorem insertTerm_perm (term : Term) (terms : List Term) (free : ∀ t ∈ terms, t.id ≠ term.id) :
    (insertTerm term terms).Perm (term :: terms) := by
  induction terms with
  | nil => exact List.Perm.refl _
  | cons head rest ih =>
      unfold insertTerm
      have other := free head List.mem_cons_self
      split
      · exact List.Perm.refl _
      · rw [if_neg (Ne.symm other)]
        have later := ih (fun t member => free t (List.mem_cons_of_mem _ member))
        exact (List.Perm.cons head later).trans (List.Perm.swap term head rest)

theorem insertTerm_sorted (term : Term) (terms : List Term)
    (sorted : terms.Pairwise (fun t t' => t.id < t'.id)) (free : ∀ t ∈ terms, t.id ≠ term.id) :
    (insertTerm term terms).Pairwise (fun t t' => t.id < t'.id) := by
  induction terms with
  | nil => exact List.pairwise_singleton _ _
  | cons head rest ih =>
      have other := free head List.mem_cons_self
      have freeRest (t : Term) (member : t ∈ rest) := free t (List.mem_cons_of_mem _ member)
      rw [List.pairwise_cons] at sorted
      unfold insertTerm
      split
      · next first =>
          rw [List.pairwise_cons]
          refine ⟨?_, List.pairwise_cons.mpr sorted⟩
          intro t member
          rcases List.mem_cons.mp member with rfl | inRest
          · exact first
          · exact Nat.lt_trans first (sorted.1 t inRest)
      · next notFirst =>
          rw [if_neg (Ne.symm other), List.pairwise_cons]
          refine ⟨?_, ih sorted.2 freeRest⟩
          intro t member
          rcases List.mem_cons.mp ((insertTerm_perm term rest freeRest).mem_iff.mp member) with
            rfl | inRest
          · omega
          · exact sorted.1 t inRest

/-- A term of an unused ID is added to the set, any other is not. -/
theorem mem_insertTerm (term : Term) (terms : List Term) (free : ∀ t ∈ terms, t.id ≠ term.id) (t : Term) :
    t ∈ insertTerm term terms ↔ t = term ∨ t ∈ terms := by
  rw [(insertTerm_perm term terms free).mem_iff, List.mem_cons]

theorem ordered_insertTerm (d : Design) (term : Term) (ordered : d.Ordered term.uid) :
    ({ d with terms := insertTerm term d.terms } : Design).Ordered (term.uid + 1) := by
  by_cases taken : ∃ t ∈ d.terms, t.id = term.id
  · rw [insertTerm_of_taken term d.terms ordered.sorted taken]
    exact ordered.mono (Nat.le_succ _)
  · have free : ∀ t ∈ d.terms, t.id ≠ term.id := fun t member same => taken ⟨t, member, same⟩
    refine ⟨?_, ?_, insertTerm_sorted term d.terms ordered.sorted free⟩
    · apply ((insertTerm_perm term d.terms free).map Term.uid).nodup_iff.mpr
      rw [List.map_cons, List.nodup_cons]
      refine ⟨?_, ordered.distinct⟩
      intro present
      obtain ⟨t, member, same⟩ := List.mem_map.mp present
      have less := ordered.created t member
      omega
    · intro t member
      rcases (mem_insertTerm term d.terms free t).mp member with rfl | old
      · exact Nat.lt_succ_self _
      · exact Nat.lt_succ_of_lt (ordered.created t old)

theorem ordered_filter (d : Design) (uid id : Nat) (ordered : d.Ordered uid) :
    ({ d with terms := d.terms.filter (fun other => other.id ≠ id) } : Design).Ordered uid :=
  ⟨ordered.distinct.sublist (List.filter_sublist.map _),
    fun t member => ordered.created t (List.mem_filter.mp member).1,
    ordered.sorted.sublist List.filter_sublist⟩

/-- Terms of a design after one of them got another range. -/
theorem mem_replaceTerm (d : Design) (uid : Nat) (ordered : d.Ordered uid) (t : Term)
    (member : t ∈ d.terms) (range : Option (Int × Int)) (other : Term)
    (inTerms : other ∈ (replaceTerm d t.id { t with range := range }).terms) :
    other = { t with range := range } ∨ other ∈ d.terms ∧ other.uid ≠ t.uid := by
  obtain ⟨old, inOld, same⟩ := List.mem_map.mp inTerms
  split at same
  · exact Or.inl same.symm
  · next different =>
      subst same
      refine Or.inr ⟨inOld, ?_⟩
      intro sameUid
      exact different (congrArg Term.id (List.inj_on_of_nodup_map ordered.distinct inOld member sameUid))

theorem ordered_replaceTerm (d : Design) (uid : Nat) (ordered : d.Ordered uid) (t : Term)
    (member : t ∈ d.terms) (range : Option (Int × Int)) :
    (replaceTerm d t.id { t with range := range }).Ordered uid := by
  have uids : (replaceTerm d t.id { t with range := range }).terms.map Term.uid = d.terms.map Term.uid := by
    unfold replaceTerm
    rw [List.map_map]
    apply List.map_congr_left
    intro other inTerms
    rw [Function.comp_apply]
    split
    · next same => rw [ordered.eq_of_id other t inTerms member same]
    · rfl
  have ids : (replaceTerm d t.id { t with range := range }).terms.map Term.id = d.terms.map Term.id := by
    unfold replaceTerm
    rw [List.map_map]
    apply List.map_congr_left
    intro other inTerms
    rw [Function.comp_apply]
    split
    · next same => exact same.symm
    · rfl
  refine ⟨uids ▸ ordered.distinct, ?_, ?_⟩
  · intro other inTerms
    rcases mem_replaceTerm d uid ordered t member range other inTerms with rfl | ⟨old, -⟩
    · exact ordered.created t member
    · exact ordered.created other old
  · have pairs := List.pairwise_map (f := Term.id) (R := (· < ·)) (l := d.terms)
    have pairs' := List.pairwise_map (f := Term.id) (R := (· < ·))
      (l := (replaceTerm d t.id { t with range := range }).terms)
    exact pairs'.mp (ids ▸ pairs.mpr ordered.sorted)

theorem getTerm_spec (d : Design) (id : Nat) (t : Term) (found : d.getTerm id = some t) :
    t ∈ d.terms ∧ t.id = id :=
  ⟨List.mem_of_find?_eq_some found, by simpa using List.find?_some found⟩

theorem findTerm_spec (d : Design) (id : Nat) (t : Term) (found : findTerm d id = .ok t) :
    t ∈ d.terms ∧ t.id = id := by
  unfold findTerm at found
  split at found
  · next t' present =>
      rw [← Except.ok.inj found]
      exact getTerm_spec d id t' present
  · contradiction

theorem findBus_getTerm (d : Design) (id : Nat) (t : Term) (msb lsb : Int)
    (found : findBus d id = .ok (t, msb, lsb)) : d.getTerm id = some t ∧ t.range = some (msb, lsb) := by
  unfold findBus at found
  split at found
  · next t' present =>
      split at found
      · next oldMSB oldLSB bus =>
          have same := Except.ok.inj found
          simp only [Prod.mk.injEq] at same
          obtain ⟨rfl, rfl, rfl⟩ := same
          exact ⟨present, bus⟩
      · contradiction
  · contradiction

theorem findDesign_spec (s : State) (r : Nat) (d : Design) :
    findDesign s r = .ok d ↔ s.designs[r]? = some d := by
  unfold findDesign
  split
  · next d' found => rw [found, Except.ok.injEq, Option.some.injEq]
  · next found =>
      rw [found]
      exact iff_of_false nofun nofun

theorem findInstance_spec (s : State) (index : Nat) (inst : Instance) :
    findInstance s index = .ok inst ↔ s.instances[index]? = some (some inst) := by
  unfold findInstance
  split
  · next inst' found => rw [found, Except.ok.injEq, Option.some.injEq, Option.some.injEq]
  · next other =>
      refine iff_of_false nofun ?_
      intro found
      exact other inst found

/-! ### Slave instances -/

/-- The table of an instance of `d` after `f` was applied to the recorded slave instances. -/
def slaveTable (d : Design) (f : Table → Table) (table : Table) : Table :=
  if d.isPrimitive then table else f table

theorem mem_updateSlaves (s : State) (r : Nat) (d : Design) (f : Table → Table) (inst' : Instance) :
    some inst' ∈ updateSlaves s r d f ↔ ∃ inst, some inst ∈ s.instances ∧
      inst' = if inst.model = r then { inst with table := slaveTable d f inst.table } else inst := by
  unfold updateSlaves slaveTable
  by_cases primitive : d.isPrimitive = true
  · simp only [if_pos primitive]
    constructor
    · intro member
      refine ⟨inst', member, ?_⟩
      split <;> rfl
    · intro found
      obtain ⟨inst, member, rfl⟩ := found
      split <;> exact member
  · simp only [if_neg primitive]
    rw [List.mem_map]
    constructor
    · intro found
      obtain ⟨entry, member, same⟩ := found
      cases entry with
      | none => contradiction
      | some inst => exact ⟨inst, member, (Option.some.inj same).symm⟩
    · intro found
      obtain ⟨inst, member, rfl⟩ := found
      exact ⟨some inst, member, rfl⟩

/-- An edit of one design and of the tables of its slave instances. -/
theorem allAligned_edit_iff (s : State) (r : Nat) (d d' : Design) (f : Table → Table) (uid : Nat)
    (aligned : AllAligned s) (found : s.designs[r]? = some d) :
    AllAligned ⟨s.designs.set r d', updateSlaves s r d f, uid⟩ ↔
      ∀ inst, some inst ∈ s.instances → inst.model = r → Aligned d' (slaveTable d f inst.table) := by
  have bound := (List.getElem?_eq_some_iff.mp found).1
  constructor
  · intro edited inst member ofModel
    have member' := (mem_updateSlaves s r d f { inst with table := slaveTable d f inst.table }).mpr
      ⟨inst, member, by rw [if_pos ofModel]⟩
    apply edited _ member' d'
    simp only
    rw [ofModel, List.getElem?_set_self bound]
  · intro slaves inst' member' model found'
    obtain ⟨inst, member, rfl⟩ := (mem_updateSlaves s r d f inst').mp member'
    simp only at found'
    split at found'
    · next ofModel =>
        simp only [ofModel, List.getElem?_set_self bound, Option.some.injEq] at found'
        rw [if_pos ofModel, ← found']
        exact slaves inst member ofModel
    · next other =>
        rw [List.getElem?_set_ne (Ne.symm other)] at found'
        rw [if_neg other]
        exact aligned inst member model found'

theorem sound_edit (s : State) (r : Nat) (d d' : Design) (f : Table → Table) (uid : Nat)
    (sound : Sound s) (le : s.nextUid ≤ uid) (ordered : d'.Ordered uid)
    (below : ∀ inst, some inst ∈ s.instances → Below s.nextUid inst.table → Below uid (f inst.table)) :
    Sound ⟨s.designs.set r d', updateSlaves s r d f, uid⟩ := by
  refine ⟨?_, ?_, ?_⟩
  · intro design member
    rcases List.mem_or_eq_of_mem_set member with old | rfl
    · exact (sound.ordered design old).mono le
    · exact ordered
  · intro inst' member'
    obtain ⟨inst, member, rfl⟩ := (mem_updateSlaves s r d f inst').mp member'
    rw [List.length_set]
    split <;> exact sound.model inst member
  · intro inst' member'
    obtain ⟨inst, member, rfl⟩ := (mem_updateSlaves s r d f inst').mp member'
    have old := sound.below inst member
    split
    · unfold slaveTable
      split
      · exact old.mono le
      · exact below inst member old
    · exact old.mono le

end Naja.InstTerms
