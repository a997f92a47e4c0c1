import Naja.Netlist.Sound

/-! Creation and renaming keep the netlist sound, as long as an automatic ID does not
wrap around to one that is taken. -/

namespace Naja.Netlist
open Naja.Registry Naja.Primitives

/-- An automatic ID, the one after the last, is not taken; it can be after a wrap-around to 0. -/
def Room {α : Type} (r : Index α) (id : Option Nat) : Prop := id = none → ∀ e ∈ r.set, e.id ≠ r.nextID idBound

instance {α : Type} (r : Index α) (id : Option Nat) : Decidable (Room r id) :=
  inferInstanceAs (Decidable (id = none → ∀ e ∈ r.set, e.id ≠ r.nextID idBound))

/-- What the checks before a creation give. -/
theorem checkCreate_spec {α : Type} (r : Index α) (sound : r.Sound) (id : Option Nat) (name : String)
    (room : Room r id) (passed : World.checkCreate r id name = .ok ()) :
    (∀ e ∈ r.set, e.id ≠ World.newID r id) ∧ (name ≠ "" → ∀ e ∈ r.set, e.name ≠ name) := by
  unfold World.checkCreate at passed
  split at passed
  · contradiction
  · next named =>
      refine ⟨?_, ?_⟩
      · cases id with
        | none => exact room rfl
        | some id =>
            simp only at passed
            split at passed
            · contradiction
            · next free => exact sound.free_id _ (Option.not_isSome_iff_eq_none.mp free)
      · intro given
        refine sound.free_name name given ?_
        by_contra taken
        exact named ⟨by simpa using given, Option.isSome_iff_ne_none.mpr taken⟩

theorem bitAt_injective (range : Option (Int × Int)) (i j : Nat) (inI : i < width range) (inJ : j < width range)
    (same : bitAt range i = bitAt range j) : i = j := by
  cases range with
  | none =>
      simp only [width] at inI inJ
      omega
  | some bus =>
      obtain ⟨msb, lsb⟩ := bus
      simp only [width] at inI inJ
      simp only [bitAt] at same
      split at same <;> omega

theorem rangeBits_nodup (range : Option (Int × Int)) : (rangeBits range).Nodup := by
  unfold rangeBits
  refine List.Nodup.map_on ?_ List.nodup_range
  intro i inI j inJ same
  exact bitAt_injective range i j (List.mem_range.mp inI) (List.mem_range.mp inJ) same

theorem bitsOf_nodup (e : Entry TermData) : (bitsOf e).Nodup := by
  unfold bitsOf TermData.getBits
  refine List.Nodup.map ?_ ((rangeBits_nodup e.data.range).filter _)
  intro bit bit' same
  exact congrArg BitTerm.bit same

theorem getBitTerms_nodup (d : Design) (sound : d.terms.Sound) : d.getBitTerms.Nodup := by
  unfold Design.getBitTerms
  rw [List.nodup_flatMap]
  refine ⟨fun e _ => bitsOf_nodup e, ?_⟩
  refine (List.pairwise_map.mp sound.objects).imp ?_
  intro e e' different
  intro b inE inE'
  exact different (((mem_bitsOf e b).mp inE).1.symm.trans ((mem_bitsOf e' b).mp inE').1)

/-- A new instance has one terminal for every bit of its model. -/
theorem tableSound_dense (d : Design) (sound : d.terms.Sound) : TableSound d.terms (d.getBitTerms.map some) := by
  have entry (slot : Nat) (b : BitTerm) :
      (d.getBitTerms.map some)[slot]? = some (some b) ↔ d.getBitTerms[slot]? = some b := by
    rw [List.getElem?_map]
    simp
  refine ⟨?_, ?_⟩
  · intro slot b filled
    exact List.mem_flatMap.mp (List.mem_of_getElem? ((entry slot b).mp filled))
  · intro slot slot' b filled filled'
    obtain ⟨inside, here⟩ := List.getElem?_eq_some_iff.mp ((entry slot b).mp filled)
    obtain ⟨inside', here'⟩ := List.getElem?_eq_some_iff.mp ((entry slot' b).mp filled')
    exact (List.Nodup.getElem_inj_iff (getBitTerms_nodup d sound)).mp (here.trans here'.symm)

/-- Other instances, as long as no connected terminal is lost. -/
theorem Design.Sound.withInstances (w : World) (d : Design) (sound : d.Sound w) (instances : Index InstData)
    (exact : instances.Sound) (old : ∀ e ∈ instances.set, e.object < w.next)
    (tables : ∀ e ∈ instances.set, ∃ terms, w.termsOf e.data.model = some terms ∧ TableSound terms e.data.table)
    (kept : ∀ inst slot, (d.links.netOf (.instTerm inst slot)).isSome →
      ∃ e ∈ instances.set, e.object = inst ∧ ∃ b, e.data.table[slot]? = some (some b)) :
    ({ d with instances := instances } : Design).Sound w where
  terms := sound.terms
  nets := sound.nets
  instances := exact
  oldTerms := sound.oldTerms
  oldNets := sound.oldNets
  oldInstances := old
  parameters := sound.parameters
  links := sound.links
  attached c n found := by
    obtain ⟨here, there⟩ := sound.attached c n found
    cases c with
    | bitTerm b => exact ⟨here, there⟩
    | instTerm inst slot => exact ⟨kept inst slot (Option.isSome_iff_exists.mpr ⟨n, found⟩), there⟩
  tables := tables

/-- Other nets, as long as no connected bit is lost. -/
theorem Design.Sound.withNets (w : World) (d : Design) (sound : d.Sound w) (nets : Index NetData) (exact : nets.Sound)
    (old : ∀ e ∈ nets.set, e.object < w.next)
    (kept : ∀ c n, d.links.netOf c = some n → ∃ e ∈ nets.set, n ∈ bitNetsOf e) :
    ({ d with nets := nets } : Design).Sound w where
  terms := sound.terms
  nets := exact
  instances := sound.instances
  oldTerms := sound.oldTerms
  oldNets := old
  oldInstances := sound.oldInstances
  parameters := sound.parameters
  links := sound.links
  attached c n found := ⟨(sound.attached c n found).1, kept c n found⟩
  tables := sound.tables

/-- Other terms, as long as no connected bit is lost. -/
theorem Design.Sound.withTerms (w : World) (d : Design) (sound : d.Sound w) (terms : Index TermData)
    (exact : terms.Sound) (old : ∀ e ∈ terms.set, e.object < w.next)
    (kept : ∀ b, (d.links.netOf (.bitTerm b)).isSome → HasBit terms b) :
    ({ d with terms := terms } : Design).Sound w where
  terms := exact
  nets := sound.nets
  instances := sound.instances
  oldTerms := old
  oldNets := sound.oldNets
  oldInstances := sound.oldInstances
  parameters := sound.parameters
  links := sound.links
  attached c n found := by
    obtain ⟨here, there⟩ := sound.attached c n found
    cases c with
    | bitTerm b => exact ⟨kept b (Option.isSome_iff_exists.mpr ⟨n, found⟩), there⟩
    | instTerm inst slot => exact ⟨here, there⟩
  tables := sound.tables

section creation
variable (w : World) (whole : w.Sound)
include whole

theorem createNet_sound (k : Nat) (id : Option Nat) (name : String) (range : Option (Int × Int))
    (room : ∀ d, w.designs[k]? = some d → Room d.nets id) : (w.createNet k id name range).Sound := by
  unfold World.createNet
  split
  · exact whole
  · next d found =>
      split
      · exact whole
      · next passed =>
          have sound := whole k d found
          obtain ⟨free, unused⟩ := checkCreate_spec d.nets sound.nets id name (room d found) passed
          have later := whole.later w (w.next + 1) (Nat.le_succ _)
          refine later.modifyDesign _ k _ (fun _ _ inside => inside) ?_
          intro d' found'
          obtain rfl := Option.some.inj (found.symm.trans found')
          refine (later k d found).withNets _ d _ (Index.sound_add sound.nets _ free ?_ unused) ?_ ?_
          · intro e member
            exact Nat.ne_of_lt (sound.oldNets e member)
          · intro e member
            rcases (Index.mem_add _ free e).mp member with rfl | old
            · exact Nat.lt_succ_self _
            · exact Nat.lt_succ_of_lt (sound.oldNets e old)
          · intro c n linked
            obtain ⟨e, member, inside⟩ := (sound.attached c n linked).2
            exact ⟨e, (Index.mem_add _ free e).mpr (Or.inr member), inside⟩

theorem createInstance_sound (k model : Nat) (id : Option Nat) (name : String)
    (room : ∀ d, w.designs[k]? = some d → Room d.instances id) : (w.createInstance k model id name).Sound := by
  unfold World.createInstance
  split
  · next d m found foundModel =>
      split
      · exact whole
      · split
        · exact whole
        · next passed =>
            have sound := whole k d found
            obtain ⟨free, unused⟩ := checkCreate_spec d.instances sound.instances id name (room d found) passed
            have later := whole.later w (w.next + 1) (Nat.le_succ _)
            refine later.modifyDesign _ k _ (fun _ _ inside => inside) ?_
            intro d' found'
            obtain rfl := Option.some.inj (found.symm.trans found')
            refine (later k d found).withInstances _ d _ (Index.sound_add sound.instances _ free ?_ unused) ?_ ?_ ?_
            · intro e member
              exact Nat.ne_of_lt (sound.oldInstances e member)
            · intro e member
              rcases (Index.mem_add _ free e).mp member with rfl | old
              · exact Nat.lt_succ_self _
              · exact Nat.lt_succ_of_lt (sound.oldInstances e old)
            · intro e member
              rcases (Index.mem_add _ free e).mp member with rfl | old
              · refine ⟨m.terms, ?_, tableSound_dense m (whole model m foundModel).terms⟩
                exact congrArg (Option.map Design.terms) foundModel
              · exact sound.tables e old
            · intro inst slot linked
              obtain ⟨n, there⟩ := Option.isSome_iff_exists.mp linked
              obtain ⟨e, member, rest⟩ := (sound.attached _ n there).1
              exact ⟨e, (Index.mem_add _ free e).mpr (Or.inr member), rest⟩
  · exact whole

theorem createParameter_sound (k : Nat) (parameter : Parameter) : (w.createParameter k parameter).Sound := by
  unfold World.createParameter
  split
  · trivial
  · next d found =>
      split
      · exact whole
      · next unused =>
          refine whole.modifyDesign w k _ (fun _ _ inside => inside) ?_
          intro d' found'
          obtain rfl := Option.some.inj (found.symm.trans found')
          have sound := whole k d found
          refine ⟨sound.terms, sound.nets, sound.instances, sound.oldTerms, sound.oldNets, sound.oldInstances, ?_,
            sound.links, sound.attached, sound.tables⟩
          rw [List.map_append, List.nodup_append]
          refine ⟨sound.parameters, List.nodup_singleton _, ?_⟩
          intro name inOld name' here same
          obtain ⟨p, member, rfl⟩ := List.mem_map.mp inOld
          rw [List.map_singleton, List.mem_singleton] at here
          refine unused (List.any_eq_true.mpr ⟨p, member, ?_⟩)
          rw [beq_iff_eq, same, here]

theorem destroyParameter_sound (k : Nat) (name : String) : (w.destroyParameter k name).Sound := by
  unfold World.destroyParameter
  split
  · trivial
  · refine whole.modifyDesign w k _ (fun _ _ inside => inside) ?_
    intro d found
    have sound := whole k d found
    exact ⟨sound.terms, sound.nets, sound.instances, sound.oldTerms, sound.oldNets, sound.oldInstances,
      sound.parameters.sublist (List.filter_sublist.map _), sound.links, sound.attached, sound.tables⟩

/-- The data of an instance changes, and its table at most in the bits it names. -/
theorem Design.Sound.modifyInstance (d : Design) (sound : d.Sound w) (inst : Address) (f : InstData → InstData)
    (tables : ∀ e ∈ d.instances.set, e.object = inst →
      ∃ terms, w.termsOf (f e.data).model = some terms ∧ TableSound terms (f e.data).table)
    (slots : ∀ e ∈ d.instances.set, e.object = inst → ∀ slot,
      (d.links.netOf (.instTerm inst slot)).isSome → ∃ b, (f e.data).table[slot]? = some (some b)) :
    ({ d with instances := d.instances.modify inst f } : Design).Sound w := by
  have members := Index.mem_modify d.instances inst f
  refine sound.withInstances w d _ (Index.sound_modify d.instances inst sound.instances f) ?_ ?_ ?_
  · intro e member
    obtain ⟨x, there, rfl⟩ := (members e).mp member
    split <;> exact sound.oldInstances x there
  · intro e member
    obtain ⟨x, there, rfl⟩ := (members e).mp member
    split
    · next hit => exact tables x there hit
    · exact sound.tables x there
  · intro i slot linked
    obtain ⟨n, found⟩ := Option.isSome_iff_exists.mp linked
    obtain ⟨x, there, rfl, b, filled⟩ := (sound.attached _ n found).1
    by_cases hit : x.object = inst
    · obtain ⟨b', filled'⟩ := slots x there hit slot (by rw [← hit]; exact linked)
      exact ⟨{ x with data := f x.data }, (members _).mpr ⟨x, there, if_pos hit⟩, rfl, b', filled'⟩
    · exact ⟨x, (members _).mpr ⟨x, there, if_neg hit⟩, rfl, b, filled⟩

theorem createInstParameter_sound (k : Nat) (inst : Address) (m : Nat) (parameter : InstParameter) :
    (w.createInstParameter k inst m parameter).Sound := by
  unfold World.createInstParameter
  split
  · split
    · trivial
    · split
      · exact whole
      · split
        · exact whole
        · refine whole.modifyDesign w k _ (fun _ _ inside => inside) ?_
          intro d found
          have sound := whole k d found
          refine sound.modifyInstance w whole d inst _ ?_ ?_
          · intro e member _
            exact sound.tables e member
          · intro e member object slot linked
            obtain ⟨n, there⟩ := Option.isSome_iff_exists.mp linked
            obtain ⟨x, member', rfl, filled⟩ := (sound.attached _ n there).1
            rw [sound.instances.eq_of_object e x member member' object]
            exact filled
  · trivial

omit whole in
/-- Terminals for the bits of a new term, behind those that are there. -/
theorem tableSound_append (terms terms' : Index TermData) (table : List (Option BitTerm)) (e : Entry TermData)
    (sound : TableSound terms table) (fresh : ∀ b, HasBit terms b → b.term ≠ e.object)
    (bits : ∀ b, HasBit terms b → HasBit terms' b) (new : e ∈ terms'.set) :
    TableSound terms' (table ++ (bitsOf e).map some) := by
  have entry (slot : Nat) (b : BitTerm) (filled : (table ++ (bitsOf e).map some)[slot]? = some (some b)) :
      table[slot]? = some (some b) ∨ table.length ≤ slot ∧ (bitsOf e)[slot - table.length]? = some b := by
    by_cases inside : slot < table.length
    · rw [List.getElem?_append_left inside] at filled
      exact Or.inl filled
    · rw [List.getElem?_append_right (Nat.le_of_not_lt inside), List.getElem?_map] at filled
      obtain ⟨b', found, same⟩ := Option.map_eq_some_iff.mp filled
      obtain rfl := Option.some.inj same
      exact Or.inr ⟨Nat.le_of_not_lt inside, found⟩
  have apart (slot slot' : Nat) (b : BitTerm) (old : table[slot]? = some (some b))
      (added : (bitsOf e)[slot']? = some b) : False :=
    fresh b (sound.bits slot b old) ((mem_bitsOf e b).mp (List.mem_of_getElem? added)).1
  refine ⟨?_, ?_⟩
  · intro slot b filled
    rcases entry slot b filled with old | ⟨-, added⟩
    · exact bits b (sound.bits slot b old)
    · exact ⟨e, new, List.mem_of_getElem? added⟩
  · intro slot slot' b filled filled'
    rcases entry slot b filled with old | ⟨behind, added⟩
    · rcases entry slot' b filled' with old' | ⟨-, added'⟩
      · exact sound.distinct slot slot' b old old'
      · exact (apart slot _ b old added').elim
    · rcases entry slot' b filled' with old' | ⟨behind', added'⟩
      · exact (apart slot' _ b old' added).elim
      · obtain ⟨inside, here⟩ := List.getElem?_eq_some_iff.mp added
        obtain ⟨inside', here'⟩ := List.getElem?_eq_some_iff.mp added'
        have same := (List.Nodup.getElem_inj_iff (bitsOf_nodup e)).mp (here.trans here'.symm)
        omega

theorem createTerm_sound (m : Nat) (id : Option Nat) (name : String) (direction : Direction)
    (range : Option (Int × Int)) (room : ∀ d, w.designs[m]? = some d → Room d.terms id) :
    (w.createTerm m id name direction range).Sound := by
  unfold World.createTerm
  split
  · exact whole
  · next d found =>
      split
      · exact whole
      · next passed =>
          have sound := whole m d found
          obtain ⟨free, unused⟩ := checkCreate_spec d.terms sound.terms id name (room d found) passed
          let e : Entry TermData :=
            ⟨w.next, World.newID d.terms id, name, ⟨direction, range, World.nextFlatID d, []⟩⟩
          have freeE : ∀ x ∈ d.terms.set, x.id ≠ e.id := free
          have grows (b : BitTerm) (inside : HasBit d.terms b) : HasBit (d.terms.add e) b := by
            obtain ⟨x, member, bit⟩ := inside
            exact ⟨x, (Index.mem_add e freeE x).mpr (Or.inr member), bit⟩
          have later := whole.later w (w.next + 1) (Nat.le_succ _)
          -- first the term is added to its design
          let grown : Design := { d with terms := d.terms.add e }
          have soundGrown : grown.Sound { w with next := w.next + 1 } := by
            refine (later m d found).withTerms _ d _ (Index.sound_add sound.terms e freeE ?_ unused) ?_ ?_
            · intro x member
              exact Nat.ne_of_lt (sound.oldTerms x member)
            · intro x member
              rcases (Index.mem_add e freeE x).mp member with rfl | old
              · exact Nat.lt_succ_self _
              · exact Nat.lt_succ_of_lt (sound.oldTerms x old)
            · intro b linked
              obtain ⟨n, there⟩ := Option.isSome_iff_exists.mp linked
              exact grows b (sound.attached _ n there).1
          have added : (({ w with next := w.next + 1 } : World).setDesign m grown).Sound :=
            later.setDesign _ m d grown found grows soundGrown
          have same : w.designs.modify m (fun d => { d with terms := d.terms.add e }) = w.designs.set m grown := by
            have both := modifyDesign_eq w m (fun d => { d with terms := d.terms.add e })
            rw [found] at both
            exact congrArg World.designs both
          change World.Sound { w with
            designs := if d.isPrimitive then w.designs.modify m (fun d => { d with terms := d.terms.add e })
              else (w.designs.modify m (fun d => { d with terms := d.terms.add e })).map
                (World.appendTerminals m (bitsOf e))
            next := w.next + 1 }
          rw [same]
          split
          · exact added
          · -- then its bits get terminals in the instances
            refine added.mapDesigns _ (World.appendTerminals m (bitsOf e)) (fun _ => rfl) ?_
            intro k x there
            have soundX := added k x there
            obtain ⟨old, foundOld, instances⟩ : ∃ old, w.designs[k]? = some old ∧ x.instances = old.instances := by
              by_cases here : k = m
              · rw [here] at there ⊢
                have placed : (w.designs.set m grown)[m]? = some grown :=
                  List.getElem?_set_self (List.getElem?_eq_some_iff.mp found).1
                obtain rfl := Option.some.inj (placed.symm.trans there)
                exact ⟨d, found, rfl⟩
              · have kept : (w.designs.set m grown)[k]? = w.designs[k]? := List.getElem?_set_ne (Ne.symm here)
                exact ⟨x, kept.symm.trans there, rfl⟩
            have members := Index.mem_mapData x.instances (fun e' =>
              if e'.data.model = m then { e'.data with table := e'.data.table ++ (bitsOf e).map some } else e'.data)
            refine soundX.withInstances _ x _ (Index.sound_mapData x.instances soundX.instances _) ?_ ?_ ?_
            · intro i member
              obtain ⟨i₀, inOld, rfl⟩ := (members i).mp member
              exact soundX.oldInstances i₀ inOld
            · intro i member
              obtain ⟨i₀, inOld, rfl⟩ := (members i).mp member
              simp only
              split
              · next ofModel =>
                  refine ⟨d.terms.add e, ?_, ?_⟩
                  · simp only [ofModel]
                    have placed : (w.designs.set m grown)[m]? = some grown :=
                      List.getElem?_set_self (List.getElem?_eq_some_iff.mp found).1
                    exact congrArg (Option.map Design.terms) placed
                  · rw [instances] at inOld
                    obtain ⟨terms, model, table⟩ := (whole k old foundOld).tables i₀ inOld
                    rw [ofModel, World.termsOf, found] at model
                    obtain rfl := Option.some.inj model
                    refine tableSound_append d.terms (d.terms.add e) _ e table ?_ grows
                      ((Index.mem_add e freeE e).mpr (Or.inl rfl))
                    intro b inside
                    obtain ⟨t, inTerms, bit⟩ := inside
                    rw [((mem_bitsOf t b).mp bit).1]
                    exact Nat.ne_of_lt (sound.oldTerms t inTerms)
              · exact soundX.tables i₀ inOld
            · intro inst slot linked
              obtain ⟨n, there'⟩ := Option.isSome_iff_exists.mp linked
              obtain ⟨i₀, inOld, rfl, b, filled⟩ := (soundX.attached _ n there').1
              refine ⟨_, (members _).mpr ⟨i₀, inOld, rfl⟩, rfl, b, ?_⟩
              simp only
              split
              · have inside := (List.getElem?_eq_some_iff.mp filled).1
                exact (List.getElem?_append_left inside).trans filled
              · exact filled

/-- A rename of an object in its index. -/
theorem setName_spec {α : Type} (r : Index α) (sound : r.Sound) (object : Address) (name : String) (r' : Index α)
    (renamed : World.setName r object name = some (.ok r')) :
    r' = r ∨ ∃ e ∈ r.set, e.object = object ∧ r' = r.rename e name ∧ (name ≠ "" → ∀ x ∈ r.set, x.name ≠ name) := by
  unfold World.setName at renamed
  obtain ⟨e, found, outcome⟩ := Option.map_eq_some_iff.mp renamed
  obtain ⟨member, here⟩ := (sound.entry_iff object e).mp found
  split at outcome
  · exact Or.inl (Except.ok.inj outcome).symm
  · split at outcome
    · contradiction
    · next free =>
        refine Or.inr ⟨e, member, here, (Except.ok.inj outcome).symm, ?_⟩
        intro given
        refine sound.free_name name given ?_
        by_contra taken
        exact free ⟨by simpa using given, Option.isSome_iff_ne_none.mpr taken⟩

theorem rename_sound (k : Nat) (kind : World.ObjectKind) (object : Address) (name : String) :
    (w.rename k kind object name).Sound := by
  unfold World.rename
  split
  · trivial
  · next d found =>
      have sound := whole k d found
      cases kind with
      | term =>
          simp only
          cases outcome : World.setName d.terms object name with
          | none => trivial
          | some result =>
              cases result with
              | error reason => exact whole
              | ok terms =>
                  rcases setName_spec w whole d.terms sound.terms object name terms outcome with
                    rfl | ⟨e, member, -, rfl, free⟩
                  · exact whole.setDesign w k d _ found (fun _ inside => inside) sound
                  · have members := Index.mem_rename d.terms e name
                    have bits (b : BitTerm) (inside : HasBit d.terms b) : HasBit (d.terms.rename e name) b := by
                      obtain ⟨x, there, bit⟩ := inside
                      refine ⟨_, (members _).mpr ⟨x, there, rfl⟩, ?_⟩
                      split <;> exact bit
                    refine whole.setDesign w k d _ found bits ?_
                    refine sound.withTerms w d _ (Index.sound_rename sound.terms e member name free) ?_ ?_
                    · intro x' member'
                      obtain ⟨x, there, rfl⟩ := (members x').mp member'
                      split <;> exact sound.oldTerms x there
                    · intro b linked
                      obtain ⟨n, there⟩ := Option.isSome_iff_exists.mp linked
                      exact bits b (sound.attached _ n there).1
      | net =>
          simp only
          cases outcome : World.setName d.nets object name with
          | none => trivial
          | some result =>
              cases result with
              | error reason => exact whole
              | ok nets =>
                  rcases setName_spec w whole d.nets sound.nets object name nets outcome with
                    rfl | ⟨e, member, -, rfl, free⟩
                  · exact whole.setDesign w k d _ found (fun _ inside => inside) sound
                  · have members := Index.mem_rename d.nets e name
                    refine whole.setDesign w k d _ found (fun _ inside => inside) ?_
                    refine sound.withNets w d _ (Index.sound_rename sound.nets e member name free) ?_ ?_
                    · intro x' member'
                      obtain ⟨x, there, rfl⟩ := (members x').mp member'
                      split <;> exact sound.oldNets x there
                    · intro c n linked
                      obtain ⟨x, there, bit⟩ := (sound.attached c n linked).2
                      refine ⟨_, (members _).mpr ⟨x, there, rfl⟩, ?_⟩
                      split <;> exact bit
      | inst =>
          simp only
          cases outcome : World.setName d.instances object name with
          | none => trivial
          | some result =>
              cases result with
              | error reason => exact whole
              | ok instances =>
                  rcases setName_spec w whole d.instances sound.instances object name instances outcome with
                    rfl | ⟨e, member, -, rfl, free⟩
                  · exact whole.setDesign w k d _ found (fun _ inside => inside) sound
                  · have members := Index.mem_rename d.instances e name
                    refine whole.setDesign w k d _ found (fun _ inside => inside) ?_
                    refine sound.withInstances w d _ (Index.sound_rename sound.instances e member name free) ?_ ?_ ?_
                    · intro x' member'
                      obtain ⟨x, there, rfl⟩ := (members x').mp member'
                      split <;> exact sound.oldInstances x there
                    · intro x' member'
                      obtain ⟨x, there, rfl⟩ := (members x').mp member'
                      split <;> exact sound.tables x there
                    · intro inst slot linked
                      obtain ⟨n, there⟩ := Option.isSome_iff_exists.mp linked
                      obtain ⟨x, inOld, rfl, b, filled⟩ := (sound.attached _ n there).1
                      refine ⟨_, (members _).mpr ⟨x, inOld, rfl⟩, ?_, b, ?_⟩
                      · split <;> rfl
                      · split <;> exact filled

theorem setNetType_sound (k : Nat) (net : Address) (types : List NetType) : (w.setNetType k net types).Sound := by
  unfold World.setNetType
  split
  · trivial
  · refine whole.modifyDesign w k _ (fun _ _ inside => inside) ?_
    intro d found
    have sound := whole k d found
    have members := Index.mem_modify d.nets net (fun data => { data with types := types })
    refine sound.withNets w d _ (Index.sound_modify d.nets net sound.nets _) ?_ ?_
    · intro x' member'
      obtain ⟨x, there, rfl⟩ := (members x').mp member'
      split <;> exact sound.oldNets x there
    · intro c n linked
      obtain ⟨x, there, bit⟩ := (sound.attached c n linked).2
      refine ⟨_, (members _).mpr ⟨x, there, rfl⟩, ?_⟩
      split <;> exact bit

end creation

end Naja.Netlist
