import Naja.Netlist.Connection

/-! Destroying a term or one of its bits keeps the netlist sound when the terminals
of these bits stand at their flat IDs in the tables of recorded instances. A change of
model keeps it sound when the new model has the bits of the current one. -/

namespace Naja.Netlist
open Naja.Registry

/-- The terminals of the bits are where their removal looks for them. -/
def Detachable (w : World) (m : Nat) (d : Design) (bits : List BitTerm) : Prop :=
  ∀ (k : Nat) (x : Design), w.designs[k]? = some x → ∀ i ∈ x.instances.set, i.data.model = m →
    ∀ (slot : Nat) (b : BitTerm), b ∈ bits → i.data.table[slot]? = some (some b) →
      d.isPrimitive = false ∧ d.getFlatID b = some slot

/-- `d'` is `d` with fewer terminals and links. -/
structure Shrunk (d d' : Design) : Prop where
  frame : d' = { d with instances := d'.instances, links := d'.links }
  links : ∀ c n, d'.links.netOf c = some n → d.links.netOf c = some n
  objects : d'.instances.set.map Entry.object = d.instances.set.map Entry.object
  tables : ∀ e' ∈ d'.instances.set, ∃ e ∈ d.instances.set, e.object = e'.object ∧ e.data.model = e'.data.model ∧
    ∀ (slot : Nat) (b : BitTerm), e'.data.table[slot]? = some (some b) → e.data.table[slot]? = some (some b)

theorem Shrunk.refl (d : Design) : Shrunk d d :=
  ⟨rfl, fun _ _ found => found, rfl, fun e member => ⟨e, member, rfl, rfl, fun _ _ filled => filled⟩⟩

theorem Shrunk.trans (d d' d'' : Design) (first : Shrunk d d') (second : Shrunk d' d'') : Shrunk d d'' where
  frame := by
    rw [second.frame, first.frame]
  links c n found := first.links c n (second.links c n found)
  objects := second.objects.trans first.objects
  tables e'' member := by
    obtain ⟨e', member', object', model', entries'⟩ := second.tables e'' member
    obtain ⟨e, member₀, object, model, entries⟩ := first.tables e' member'
    exact ⟨e, member₀, object.trans object', model.trans model',
      fun slot b filled => entries slot b (entries' slot b filled)⟩

/-- The instance has no terminal in the slot. -/
def Emptied (d : Design) (inst : Address) (slot : Nat) : Prop :=
  ∀ e ∈ d.instances.set, e.object = inst → ∀ b, e.data.table[slot]? ≠ some (some b)

theorem Emptied.mono (d d' : Design) (shrunk : Shrunk d d') (inst : Address) (slot : Nat)
    (emptied : Emptied d inst slot) : Emptied d' inst slot := by
  intro e' member' object b filled
  obtain ⟨e, member, same, -, entries⟩ := shrunk.tables e' member'
  exact emptied e member (same.trans object) b (entries slot b filled)

/-- A loop whose steps shrink a design, and each of which does something that lasts. -/
theorem shrunk_foldlM {α : Type} (w : World) (step : Design → α → Option Design) (done : α → Design → Prop)
    (lasts : ∀ x d d', Shrunk d d' → done x d → done x d')
    (each : ∀ d x d', d.Sound w → step d x = some d' → d'.Sound w ∧ Shrunk d d' ∧ done x d')
    (xs : List α) (d d' : Design) (sound : d.Sound w) (ran : xs.foldlM step d = some d') :
    d'.Sound w ∧ Shrunk d d' ∧ ∀ x ∈ xs, done x d' := by
  induction xs generalizing d with
  | nil =>
      obtain rfl := Option.some.inj ran
      exact ⟨sound, Shrunk.refl d, nofun⟩
  | cons x rest ih =>
      rw [List.foldlM_cons] at ran
      obtain ⟨d₁, first, later⟩ := Option.bind_eq_some_iff.mp ran
      obtain ⟨sound₁, shrunk₁, done₁⟩ := each d x d₁ sound first
      obtain ⟨sound', shrunk', done'⟩ := ih d₁ sound₁ later
      refine ⟨sound', shrunk₁.trans d d₁ d' shrunk', ?_⟩
      intro y member
      rcases List.mem_cons.mp member with rfl | inRest
      · exact lasts y d₁ d' shrunk' done₁
      · exact done' y inRest

section removal
variable (w : World) (whole : w.Sound)
include whole

theorem removeInstTerm_spec (inst : Address) (d : Design) (flatID : Nat) (d' : Design) (sound : d.Sound w)
    (removed : w.removeInstTerm inst d flatID = some d') :
    d'.Sound w ∧ Shrunk d d' ∧ Emptied d' inst flatID := by
  unfold World.removeInstTerm at removed
  split at removed
  · contradiction
  · next empty =>
      obtain rfl := Option.some.inj removed
      refine ⟨sound, Shrunk.refl _, ?_⟩
      intro e member object b filled
      obtain ⟨x, found, entry⟩ := Option.bind_eq_some_iff.mp empty
      obtain ⟨member', object'⟩ := (sound.instances.entry_iff inst x).mp found
      rw [sound.instances.eq_of_object e x member member' (object.trans object'.symm)] at filled
      rw [filled] at entry
      exact absurd (Option.some.inj entry) nofun
  · next b filled =>
      obtain rfl := Option.some.inj removed
      obtain ⟨i, found, entry⟩ := Option.bind_eq_some_iff.mp filled
      obtain ⟨member, rfl⟩ := (sound.instances.entry_iff inst i).mp found
      have cut := sound.setNet w whole d (.instTerm i.object flatID) ⟨i, member, rfl, b, entry⟩ none nofun
      have members := Index.mem_modify d.instances i.object (fun data => { data with table := data.table.set flatID none })
      have links (c : Component) : (w.setNet d (.instTerm i.object flatID) none).links.netOf c =
          if c = .instTerm i.object flatID then none else d.links.netOf c :=
        Links.netOf_setNet (w.sameKey d) d.links _ none c
      have shorter (table : List (Option BitTerm)) (slot : Nat) (b : BitTerm)
          (after : (table.set flatID none)[slot]? = some (some b)) : table[slot]? = some (some b) ∧ slot ≠ flatID := by
        by_cases hit : slot = flatID
        · rw [hit, List.getElem?_set] at after
          simp at after
        · rw [List.getElem?_set_ne (Ne.symm hit)] at after
          exact ⟨after, hit⟩
      refine ⟨?_, ⟨rfl, ?_, ?_, ?_⟩, ?_⟩
      · refine cut.modifyInstance w whole _ i.object _ ?_ ?_
        · intro e inSet _
          obtain ⟨terms, model, table⟩ := sound.tables e inSet
          refine ⟨terms, model, ?_, ?_⟩
          · intro slot b' after
            exact table.bits slot b' (shorter _ slot b' after).1
          · intro slot slot' b' after after'
            exact table.distinct slot slot' b' (shorter _ slot b' after).1 (shorter _ slot' b' after').1
        · intro e inSet object slot linked
          obtain ⟨n, there⟩ := Option.isSome_iff_exists.mp linked
          rw [links] at there
          split at there
          · contradiction
          · next other =>
              obtain ⟨x, inSet', object', b', entry'⟩ := (sound.attached _ n there).1
              rw [sound.instances.eq_of_object e x inSet inSet' (object.trans object'.symm)]
              refine ⟨b', ?_⟩
              have different : flatID ≠ slot := by
                intro same
                exact other (by rw [same])
              exact (List.getElem?_set_ne different).trans entry'
      · intro c n after
        have after' : (w.setNet d (.instTerm i.object flatID) none).links.netOf c = some n := after
        rw [links] at after'
        split at after'
        · contradiction
        · exact after'
      · change (d.instances.set.map _).map Entry.object = _
        rw [List.map_map]
        refine List.map_congr_left ?_
        intro e _
        rw [Function.comp_apply]
        split <;> rfl
      · intro e' member'
        obtain ⟨e, inSet, rfl⟩ := (members e').mp member'
        refine ⟨e, inSet, ?_, ?_, ?_⟩
        · split <;> rfl
        · split <;> rfl
        · intro slot b' after
          split at after
          · exact (shorter _ slot b' after).1
          · exact after
      · intro e' member' object b' after
        obtain ⟨e, inSet, rfl⟩ := (members e').mp member'
        split at after
        · exact (shorter _ flatID b' after).2 rfl
        · next other =>
            rw [if_neg other] at object
            exact other object

theorem removeTerminals_spec (m : Nat) (flatIDs : List Nat) (d d' : Design) (sound : d.Sound w)
    (removed : w.removeTerminals m flatIDs d = some d') :
    d'.Sound w ∧ Shrunk d d' ∧
      ∀ e ∈ d'.instances.set, e.data.model = m → ∀ slot ∈ flatIDs, ∀ b, e.data.table[slot]? ≠ some (some b) := by
  have inner (d : Design) (inst : Address) (d' : Design) (sound : d.Sound w)
      (ran : flatIDs.foldlM (w.removeInstTerm inst) d = some d') :
      d'.Sound w ∧ Shrunk d d' ∧ ∀ slot ∈ flatIDs, Emptied d' inst slot :=
    shrunk_foldlM w (w.removeInstTerm inst) (fun slot x => Emptied x inst slot)
      (fun slot x x' shrunk emptied => emptied.mono x x' shrunk inst slot)
      (fun x slot x' soundX ran => removeInstTerm_spec w whole inst x slot x' soundX ran) flatIDs d d' sound ran
  obtain ⟨sound', shrunk, emptied⟩ := shrunk_foldlM w
    (fun d inst => flatIDs.foldlM (w.removeInstTerm inst) d) (fun inst x => ∀ slot ∈ flatIDs, Emptied x inst slot)
    (fun inst x x' shrunk all slot member => (all slot member).mono x x' shrunk inst slot)
    (fun x inst x' soundX ran => inner x inst x' soundX ran) _ d d' sound removed
  refine ⟨sound', shrunk, ?_⟩
  intro e' member' model slot inList
  obtain ⟨e, member, object, sameModel, -⟩ := shrunk.tables e' member'
  refine emptied e.object (List.mem_map.mpr ⟨e, List.mem_filter.mpr ⟨member, ?_⟩, rfl⟩) slot inList e' member' object.symm
  rw [beq_iff_eq, sameModel, model]

omit whole in
theorem getElem?_mapM {α β : Type} (f : α → Option β) (xs : List α) (ys : List β) (ran : xs.mapM f = some ys)
    (k : Nat) (y : β) (found : ys[k]? = some y) : ∃ x, xs[k]? = some x ∧ f x = some y := by
  induction xs generalizing ys k with
  | nil =>
      obtain rfl : [] = ys := Option.some.inj ran
      contradiction
  | cons x rest ih =>
      rw [List.mapM_cons] at ran
      obtain ⟨y₀, first, later⟩ := Option.bind_eq_some_iff.mp ran
      obtain ⟨ys', others, same⟩ := Option.bind_eq_some_iff.mp later
      obtain rfl := Option.some.inj same
      cases k with
      | zero =>
          obtain rfl := Option.some.inj found
          exact ⟨x, rfl, first⟩
      | succ k => exact ih ys' others k found

/-- After the removal every design is sound and has no terminal of the bits left. -/
theorem removeBits_spec (m : Nat) (d : Design) (bits : List BitTerm) (detachable : Detachable w m d bits)
    (designs : List Design) (removed : w.removeBits m d bits = some designs) (k : Nat) (x' : Design)
    (there : designs[k]? = some x') :
    ∃ x, w.designs[k]? = some x ∧ x'.Sound w ∧ Shrunk x x' ∧
      ∀ e ∈ x'.instances.set, e.data.model = m → ∀ (slot : Nat) (b : BitTerm), b ∈ bits →
        e.data.table[slot]? ≠ some (some b) := by
  unfold World.removeBits at removed
  split at removed
  · next primitive =>
      obtain rfl := Option.some.inj removed
      refine ⟨x', there, whole k x' there, Shrunk.refl x', ?_⟩
      intro e member model slot b inBits filled
      have recorded := (detachable k x' there e member model slot b inBits filled).1
      rw [primitive] at recorded
      contradiction
  · obtain ⟨x, found, ran⟩ := getElem?_mapM _ w.designs designs removed k x' there
    obtain ⟨sound, shrunk, emptied⟩ := removeTerminals_spec w whole m _ x x' (whole k x found) ran
    refine ⟨x, found, sound, shrunk, ?_⟩
    intro e' member' model slot b inBits filled
    obtain ⟨e, member, -, sameModel, entries⟩ := shrunk.tables e' member'
    have flat := (detachable k x found e member (sameModel.trans model) slot b inBits (entries slot b filled)).2
    exact emptied e' member' model slot (List.mem_filterMap.mpr ⟨b, inBits, flat⟩) b filled

/-- The bits leave the index of their design once nothing refers to them. -/
theorem removed_sound (m : Nat) (d : Design) (found : w.designs[m]? = some d) (bits : List BitTerm)
    (detachable : Detachable w m d bits) (unlinked : ∀ b ∈ bits, d.links.netOf (.bitTerm b) = none)
    (designs : List Design) (removed : w.removeBits m d bits = some designs) (terms : Index TermData → Index TermData)
    (exact : (terms d.terms).Sound) (old : ∀ e ∈ (terms d.terms).set, e.object < w.next)
    (kept : ∀ b, HasBit d.terms b → b ∉ bits → HasBit (terms d.terms) b) :
    ({ w with designs := designs.modify m (fun x => { x with terms := terms x.terms }) } : World).Sound := by
  have each := removeBits_spec w whole m d bits detachable designs removed
  have termsOf (k : Nat) (t : Index TermData) (model : w.termsOf k = some t) (inside : k < designs.length) :
      (({ w with designs := designs.modify m (fun x => { x with terms := terms x.terms }) } : World).termsOf k) =
        some (if k = m then terms t else t) := by
    obtain ⟨x, foundX, rfl⟩ := Option.map_eq_some_iff.mp model
    obtain ⟨x', there⟩ : ∃ x', designs[k]? = some x' := ⟨_, List.getElem?_eq_getElem inside⟩
    obtain ⟨x₀, found₀, -, shrunk, -⟩ := each k x' there
    obtain rfl := Option.some.inj (foundX.symm.trans found₀)
    have same : x'.terms = x.terms := by rw [shrunk.frame]
    unfold World.termsOf
    by_cases here : k = m
    · subst here
      rw [List.getElem?_modify_eq, there, if_pos rfl, ← same]
      rfl
    · rw [List.getElem?_modify_ne _ _ (Ne.symm here), there, if_neg here, ← same]
      rfl
  have length : w.designs.length ≤ designs.length := by
    unfold World.removeBits at removed
    split at removed
    · obtain rfl := Option.some.inj removed
      exact Nat.le_refl _
    · have same : ∀ (xs : List Design) (ys : List Design) (f : Design → Option Design),
          xs.mapM f = some ys → xs.length = ys.length := by
        intro xs
        induction xs with
        | nil =>
            intro ys f ran
            obtain rfl : [] = ys := Option.some.inj ran
            rfl
        | cons x rest ih =>
            intro ys f ran
            rw [List.mapM_cons] at ran
            obtain ⟨y₀, -, later⟩ := Option.bind_eq_some_iff.mp ran
            obtain ⟨ys', others, equal⟩ := Option.bind_eq_some_iff.mp later
            obtain rfl := Option.some.inj equal
            exact congrArg Nat.succ (ih ys' f others)
      exact Nat.le_of_eq (same _ _ _ removed)
  intro k y there
  -- the design before its terms changed
  obtain ⟨x', placed, rfl⟩ : ∃ x', designs[k]? = some x' ∧
      y = if k = m then { x' with terms := terms x'.terms } else x' := by
    by_cases here : k = m
    · subst here
      rw [List.getElem?_modify_eq] at there
      obtain ⟨x', placed, rfl⟩ := Option.map_eq_some_iff.mp there
      exact ⟨x', placed, (if_pos rfl).symm⟩
    · rw [List.getElem?_modify_ne _ _ (Ne.symm here)] at there
      exact ⟨y, there, (if_neg here).symm⟩
  obtain ⟨x, foundX, sound, shrunk, gone⟩ := each k x' placed
  have tables : ∀ e ∈ x'.instances.set, ∃ t,
      (({ w with designs := designs.modify m (fun x => { x with terms := terms x.terms }) } : World).termsOf
        e.data.model) = some t ∧ TableSound t e.data.table := by
    intro e member
    obtain ⟨t, model, table⟩ := sound.tables e member
    obtain ⟨x₀, found₀, -⟩ := Option.map_eq_some_iff.mp model
    have inside := Nat.lt_of_lt_of_le (List.getElem?_eq_some_iff.mp found₀).1 length
    refine ⟨_, termsOf e.data.model t model inside, ?_⟩
    split
    · next ofModel =>
        rw [ofModel, World.termsOf, found] at model
        obtain rfl := Option.some.inj model
        refine ⟨?_, table.distinct⟩
        intro slot b filled
        refine kept b (table.bits slot b filled) ?_
        intro inBits
        exact gone e member ofModel slot b inBits filled
    · exact table
  split
  · next here =>
      subst here
      obtain rfl := Option.some.inj (foundX.symm.trans found)
      have same : x'.terms = x.terms := by rw [shrunk.frame]
      rw [same]
      refine ⟨exact, sound.nets, sound.instances, old, sound.oldNets, sound.oldInstances, sound.parameters, sound.links,
        ?_, tables⟩
      intro c n linked
      obtain ⟨here, onNet⟩ := sound.attached c n linked
      refine ⟨?_, onNet⟩
      cases c with
      | bitTerm b =>
          have before := shrunk.links (.bitTerm b) n linked
          have inside : HasBit x.terms b := by
            rw [← same]
            exact here
          refine kept b inside ?_
          intro inBits
          rw [unlinked b inBits] at before
          contradiction
      | instTerm inst slot => exact here
  · exact ⟨sound.terms, sound.nets, sound.instances, sound.oldTerms, sound.oldNets, sound.oldInstances,
      sound.parameters, sound.links, sound.attached, tables⟩

omit whole in
/-- New links of one design do not matter for the terminals. -/
theorem Detachable.relinked (m : Nat) (d d' : Design) (bits : List BitTerm) (detachable : Detachable w m d bits)
    (found : w.designs[m]? = some d) (frame : d' = { d with links := d'.links }) :
    Detachable (w.setDesign m d') m d bits := by
  intro k x there
  by_cases here : k = m
  · subst here
    have placed : (w.setDesign k d').designs[k]? = some d' :=
      List.getElem?_set_self (List.getElem?_eq_some_iff.mp found).1
    obtain rfl := Option.some.inj (placed.symm.trans there)
    rw [frame]
    exact detachable k d found
  · have kept : (w.setDesign m d').designs[k]? = w.designs[k]? := List.getElem?_set_ne (Ne.symm here)
    rw [kept] at there
    exact detachable k x there

/-- The bits of a design are unlinked, lose their terminals and leave the index. -/
theorem destroyBits_sound (m : Nat) (d cut : Design) (found : w.designs[m]? = some d) (bits : List BitTerm)
    (detachable : Detachable w m d bits) (frame : cut = { d with links := cut.links }) (soundCut : cut.Sound w)
    (unlinked : ∀ b ∈ bits, cut.links.netOf (.bitTerm b) = none) (designs : List Design)
    (removed : (w.setDesign m cut).removeBits m d bits = some designs) (terms : Index TermData → Index TermData)
    (exact : (terms d.terms).Sound) (old : ∀ e ∈ (terms d.terms).set, e.object < w.next)
    (kept : ∀ b, HasBit d.terms b → b ∉ bits → HasBit (terms d.terms) b) :
    ({ w.setDesign m cut with designs := designs.modify m (fun x => { x with terms := terms x.terms }) } : World).Sound := by
  have sameTerms : cut.terms = d.terms := by rw [frame]
  have primitive : cut.isPrimitive = d.isPrimitive := by
    rw [frame]
    rfl
  have flat : cut.getFlatID = d.getFlatID := by
    rw [frame]
    rfl
  have placed : (w.setDesign m cut).designs[m]? = some cut :=
    List.getElem?_set_self (List.getElem?_eq_some_iff.mp found).1
  have ready := Detachable.relinked w m d cut bits detachable found frame
  refine removed_sound _ (whole.relinked w m d cut found frame soundCut) m cut placed bits ?_ unlinked designs ?_ terms
    ?_ ?_ ?_
  · intro k x there i inSet model slot b inBits filled
    rw [primitive, flat]
    exact ready k x there i inSet model slot b inBits filled
  · unfold World.removeBits at removed ⊢
    rw [primitive, flat]
    exact removed
  · rw [sameTerms]
    exact exact
  · rw [sameTerms]
    exact old
  · rw [sameTerms]
    exact kept

theorem destroyTerm_sound (m : Nat) (term : Address)
    (detachable : ∀ d e, w.designs[m]? = some d → d.terms.entry term = some e → Detachable w m d (bitsOf e)) :
    (w.destroyTerm m term).Sound := by
  unfold World.destroyTerm
  split
  · trivial
  · next d found =>
      have sound := whole m d found
      split
      · trivial
      · next e foundTerm =>
          obtain ⟨member, -⟩ := (sound.terms.entry_iff term e).mp foundTerm
          have pairs : (bitsOf e).map (fun b => (Component.bitTerm b, (none : Option BitNet))) =
              ((bitsOf e).map Component.bitTerm).map (fun c => (c, none)) := by
            rw [List.map_map]
            rfl
          simp only
          rw [pairs]
          have cut := sound.setNets w whole d (((bitsOf e).map Component.bitTerm).map (fun c => (c, none))) (by
            intro pair inPairs
            obtain ⟨c, inBits, rfl⟩ := List.mem_map.mp inPairs
            obtain ⟨b, there, rfl⟩ := List.mem_map.mp inBits
            exact ⟨⟨e, member, there⟩, nofun⟩)
          split
          · trivial
          · next designs removed =>
              refine destroyBits_sound w whole m d _ found (bitsOf e) (detachable d e found foundTerm)
                (setNets_frame w d _) cut ?_ designs removed (fun t => t.remove e)
                (Index.sound_remove sound.terms e member) ?_ ?_
              · intro b inBits
                rw [netOf_setNets_none]
                exact if_pos (List.mem_map.mpr ⟨b, inBits, rfl⟩)
              · intro x there
                exact sound.oldTerms x ((Index.mem_remove sound.terms e member x).mp there).1
              · intro b inside outside
                obtain ⟨x, there, bit⟩ := inside
                refine ⟨x, (Index.mem_remove sound.terms e member x).mpr ⟨there, ?_⟩, bit⟩
                intro hit
                exact outside (hit ▸ bit)

theorem destroyTermBit_sound (m : Nat) (b : BitTerm)
    (detachable : ∀ d, w.designs[m]? = some d → Detachable w m d [b]) : (w.destroyTermBit m b).Sound := by
  unfold World.destroyTermBit
  split
  · trivial
  · next d found =>
      have sound := whole m d found
      split
      · trivial
      · next held =>
          have here := hasComponent_of_held w d sound (.bitTerm b) (not_not.mp held)
          have cut := sound.setNet w whole d (.bitTerm b) here none nofun
          simp only
          split
          · trivial
          · next designs removed =>
              have members := Index.mem_modify d.terms b.term (fun data => { data with removed := b.bit :: data.removed })
              refine destroyBits_sound w whole m d _ found [b] (detachable d found) rfl cut ?_ designs removed
                (fun t => t.modify b.term (fun data => { data with removed := b.bit :: data.removed }))
                (Index.sound_modify d.terms b.term sound.terms _) ?_ ?_
              · intro b' inBits
                rw [List.mem_singleton.mp inBits]
                exact (Links.netOf_setNet (w.sameKey d) d.links (.bitTerm b) none (.bitTerm b)).trans (if_pos rfl)
              · intro x' there
                obtain ⟨x, inSet, rfl⟩ := (members x').mp there
                split <;> exact sound.oldTerms x inSet
              · intro b' inside outside
                obtain ⟨x, inSet, bit⟩ := inside
                refine ⟨_, (members _).mpr ⟨x, inSet, rfl⟩, ?_⟩
                split
                · next hit =>
                    obtain ⟨term, inBits⟩ := (mem_bitsOf x b').mp bit
                    refine (mem_bitsOf _ b').mpr ⟨term, ?_⟩
                    obtain ⟨inRange, kept⟩ := List.mem_filter.mp inBits
                    refine List.mem_filter.mpr ⟨inRange, ?_⟩
                    have other : b'.bit ≠ b.bit := by
                      intro same
                      apply outside
                      obtain ⟨t, i⟩ := b
                      obtain ⟨t', i'⟩ := b'
                      simp only at term hit same
                      rw [term, hit, same]
                      exact List.mem_singleton.mpr rfl
                    simpa [other] using kept
                · exact bit

omit whole in
/-- The loop over the terminals, when all of them are bits of the current model. -/
theorem remapTable_spec (current new : List (Entry TermData)) (length : current.length = new.length)
    (table : List (Option BitTerm))
    (known : ∀ (slot : Nat) (b : BitTerm), table[slot]? = some (some b) → ∃ e ∈ current, b ∈ bitsOf e) :
    (World.remapTable current new table).2 = true ∧
      (∀ (slot : Nat) (b : BitTerm), table[slot]? = some (some b) →
        ∃ b', (World.remapTable current new table).1[slot]? = some (some b')) ∧
      ∀ (slot : Nat) (b' : BitTerm), (World.remapTable current new table).1[slot]? = some (some b') →
        ∃ b, table[slot]? = some (some b) ∧ ∃ pair ∈ current.zip new, b ∈ bitsOf pair.1 ∧
          b' = ⟨pair.2.object, b.bit⟩ := by
  induction table with
  | nil => exact ⟨rfl, nofun, nofun⟩
  | cons entry rest ih =>
      obtain ⟨all, filled, origin⟩ := ih (fun slot b there => known (slot + 1) b there)
      cases entry with
      | none =>
          refine ⟨all, ?_, ?_⟩
          · intro slot b there
            cases slot with
            | zero => exact absurd (Option.some.inj there) nofun
            | succ slot => exact filled slot b there
          · intro slot b' there
            cases slot with
            | zero => exact absurd (Option.some.inj there) nofun
            | succ slot => exact origin slot b' there
      | some b₀ =>
          obtain ⟨e, member, bit⟩ := known 0 b₀ rfl
          obtain ⟨i, inside, here⟩ := List.getElem_of_mem member
          have paired : (e, new.get ⟨i, length ▸ inside⟩) ∈ current.zip new := by
            refine List.mem_of_getElem? (i := i) ?_
            rw [List.getElem?_zip_eq_some]
            exact ⟨by rw [List.getElem?_eq_getElem inside, here], List.getElem?_eq_getElem _⟩
          have hit : ((current.zip new).find? (fun pair => b₀ ∈ bitsOf pair.1)).isSome :=
            List.find?_isSome.mpr ⟨_, paired, by simpa using bit⟩
          obtain ⟨pair, found⟩ := Option.isSome_iff_exists.mp hit
          have inZip := List.mem_of_find?_eq_some found
          have bits : b₀ ∈ bitsOf pair.1 := by simpa using List.find?_some found
          have step : World.remapTable current new (some b₀ :: rest) =
              (some ⟨pair.2.object, b₀.bit⟩ :: (World.remapTable current new rest).1,
                (World.remapTable current new rest).2) := by
            simp only [World.remapTable, found]
          rw [step]
          refine ⟨all, ?_, ?_⟩
          · intro slot b there
            cases slot with
            | zero => exact ⟨_, rfl⟩
            | succ slot => exact filled slot b there
          · intro slot b' there
            cases slot with
            | zero =>
                obtain rfl := Option.some.inj (Option.some.inj there)
                exact ⟨b₀, rfl, pair, inZip, bits, rfl⟩
            | succ slot => exact origin slot b' there

/-- The new model has the bits that the current one has, and the current one the parameters that the
instance gives values to. -/
def Replaceable (i : Entry InstData) (current new : Design) : Prop :=
  (∀ pair ∈ current.terms.set.zip new.terms.set, ∀ bit ∈ pair.1.data.getBits, bit ∈ pair.2.data.getBits) ∧
    i.data.parameters.all (fun p => current.parameters.any (fun q => q.name == p.name))

omit whole in
theorem tableSound_remap (current new : Index TermData) (soundNew : new.Sound)
    (length : current.set.length = new.set.length) (table : List (Option BitTerm)) (sound : TableSound current table)
    (bits : ∀ pair ∈ current.set.zip new.set, ∀ bit ∈ pair.1.data.getBits, bit ∈ pair.2.data.getBits) :
    TableSound new (World.remapTable current.set new.set table).1 := by
  obtain ⟨-, -, origin⟩ := remapTable_spec current.set new.set length table sound.bits
  refine ⟨?_, ?_⟩
  · intro slot b' there
    obtain ⟨b, -, pair, inZip, bit, rfl⟩ := origin slot b' there
    refine ⟨pair.2, (List.of_mem_zip inZip).2, (mem_bitsOf _ _).mpr ⟨rfl, ?_⟩⟩
    exact bits pair inZip _ ((mem_bitsOf pair.1 b).mp bit).2
  · intro slot slot' b' there there'
    obtain ⟨b, entry, pair, inZip, bit, same⟩ := origin slot b' there
    obtain ⟨b₂, entry₂, pair₂, inZip₂, bit₂, same₂⟩ := origin slot' b' there'
    have objects : pair.2.object = pair₂.2.object := congrArg BitTerm.term (same.symm.trans same₂)
    have bitsEq : b.bit = b₂.bit := (BitTerm.mk.inj (same.symm.trans same₂)).2
    -- terms at the same place of the new model stand at the same place of the current one
    have pairs : pair.1 = pair₂.1 := by
      obtain ⟨i, inside, rfl⟩ := List.getElem_of_mem inZip
      obtain ⟨j, inside', rfl⟩ := List.getElem_of_mem inZip₂
      rw [List.getElem_zip, List.getElem_zip] at objects
      rw [List.length_zip] at inside inside'
      have place : i = j := by
        have inNew : i < (new.set.map Entry.object).length := by
          rw [List.length_map]
          omega
        have inNew' : j < (new.set.map Entry.object).length := by
          rw [List.length_map]
          omega
        have same : (new.set.map Entry.object)[i] = (new.set.map Entry.object)[j] := by simpa using objects
        exact (List.Nodup.getElem_inj_iff soundNew.objects).mp same
      subst place
      rfl
    have equal : b = b₂ := by
      obtain ⟨t, bit'⟩ := b
      obtain ⟨t₂, bit₂'⟩ := b₂
      have term := ((mem_bitsOf pair.1 _).mp bit).1
      have term₂ := ((mem_bitsOf pair₂.1 _).mp bit₂).1
      simp only at term term₂ bitsEq
      rw [term, term₂, pairs, bitsEq]
    rw [← equal] at entry₂
    exact sound.distinct slot slot' b entry entry₂

theorem setModel_sound (k : Nat) (inst : Address) (model : Nat)
    (replaceable : ∀ d i current new, w.designs[k]? = some d → d.instances.entry inst = some i →
      w.designs[i.data.model]? = some current → w.designs[model]? = some new → i.data.model ≠ model →
        Replaceable i current new) : (w.setModel k inst model).Sound := by
  unfold World.setModel
  split
  · trivial
  · next i foundInst =>
      obtain ⟨d, found, entry⟩ := Option.bind_eq_some_iff.mp foundInst
      have sound := whole k d found
      obtain ⟨member, rfl⟩ := (sound.instances.entry_iff inst i).mp entry
      split
      · exact whole
      · next different =>
          split
          · next current new foundCurrent foundNew =>
              obtain ⟨bits, parameters⟩ := replaceable d i current new found entry foundCurrent foundNew different
              split
              · exact whole
              · next length =>
                  split
                  · exact whole
                  · split
                    · exact whole
                    · split
                      · exact whole
                      · obtain ⟨terms, ofModel, table⟩ := sound.tables i member
                        rw [World.termsOf, foundCurrent] at ofModel
                        obtain rfl := Option.some.inj ofModel
                        obtain ⟨all, filled, -⟩ := remapTable_spec current.terms.set new.terms.set
                          (not_not.mp length) i.data.table table.bits
                        have remapped := tableSound_remap current.terms new.terms (whole _ new foundNew).terms
                          (not_not.mp length) i.data.table table bits
                        simp only [all, not_true_eq_false, if_false]
                        refine whole.modifyDesign w k _ (fun _ _ inside => inside) ?_
                        intro d' found'
                        obtain rfl := Option.some.inj (found.symm.trans found')
                        refine sound.modifyInstance w whole d i.object _ ?_ ?_
                        · intro e _ _
                          exact ⟨new.terms, congrArg (Option.map Design.terms) foundNew, remapped⟩
                        · intro e inSet object slot linked
                          obtain ⟨n, there⟩ := Option.isSome_iff_exists.mp linked
                          obtain ⟨x, inSet', object', b, there'⟩ := (sound.attached _ n there).1
                          rw [sound.instances.eq_of_object x i inSet' member object'] at there'
                          exact filled slot b there'
          · trivial

end removal

end Naja.Netlist
