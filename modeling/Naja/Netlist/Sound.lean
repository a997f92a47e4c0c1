import Naja.Netlist.Operations

/-! What holds of a netlist in every state: the indices and the links are exact,
what is linked exists, and the terminals of an instance are bits of its model, no
two of the same bit. Keys then tell components apart. -/

namespace Naja.Netlist
open Naja.Registry

/-- The bits of an index of terms. -/
def HasBit (terms : Index TermData) (b : BitTerm) : Prop := ∃ e ∈ terms.set, b ∈ bitsOf e

/-- Terminals of distinct bits, all of them bits of the model. -/
structure TableSound (terms : Index TermData) (table : List (Option BitTerm)) : Prop where
  bits : ∀ (slot : Nat) (b : BitTerm), table[slot]? = some (some b) → HasBit terms b
  distinct : ∀ (slot slot' : Nat) (b : BitTerm), table[slot]? = some (some b) → table[slot']? = some (some b) → slot = slot'

/-- The terms of the design with a given number. -/
def World.termsOf (w : World) (k : Nat) : Option (Index TermData) := (w.designs[k]?).map Design.terms

structure Design.Sound (w : World) (d : Design) : Prop where
  terms : d.terms.Sound
  nets : d.nets.Sound
  instances : d.instances.Sound
  oldTerms : ∀ e ∈ d.terms.set, e.object < w.next
  oldNets : ∀ e ∈ d.nets.set, e.object < w.next
  oldInstances : ∀ e ∈ d.instances.set, e.object < w.next
  parameters : (d.parameters.map Parameter.name).Nodup
  links : d.links.Paired
  attached : ∀ c n, d.links.netOf c = some n → d.hasComponent c ∧ d.hasBitNet n
  tables : ∀ e ∈ d.instances.set, ∃ terms, w.termsOf e.data.model = some terms ∧ TableSound terms e.data.table

def World.Sound (w : World) : Prop := ∀ (k : Nat) (d : Design), w.designs[k]? = some d → d.Sound w

theorem mem_bitsOf (e : Entry TermData) (b : BitTerm) : b ∈ bitsOf e ↔ b.term = e.object ∧ b.bit ∈ e.data.getBits := by
  unfold bitsOf
  rw [List.mem_map]
  constructor
  · intro found
    obtain ⟨bit, member, rfl⟩ := found
    exact ⟨rfl, member⟩
  · intro found
    obtain ⟨term, bit⟩ := b
    obtain ⟨rfl, member⟩ := found
    exact ⟨bit, member, rfl⟩

theorem mem_bitNetsOf (e : Entry NetData) (n : BitNet) :
    n ∈ bitNetsOf e ↔ n.net = e.object ∧ n.bit ∈ e.data.getBits := by
  unfold bitNetsOf
  rw [List.mem_map]
  constructor
  · intro found
    obtain ⟨bit, member, rfl⟩ := found
    exact ⟨rfl, member⟩
  · intro found
    obtain ⟨net, bit⟩ := n
    obtain ⟨rfl, member⟩ := found
    exact ⟨bit, member, rfl⟩

section keys
variable (w : World) (d : Design) (sound : d.Sound w)

/-- The key of a component that exists. -/
theorem key_bitTerm (terms : d.terms.Sound) (e : Entry TermData) (member : e ∈ d.terms.set) (bit : Int) :
    w.key d (.bitTerm ⟨e.object, bit⟩) =
      some (if e.data.range.isNone then .Term else .TermBit, e.id, 0, bit) := by
  simp only [World.key]
  rw [(terms.entry_iff e.object e).mpr ⟨member, rfl⟩]
  rfl

theorem key_instTerm (instances : d.instances.Sound) (i : Entry InstData) (member : i ∈ d.instances.set) (slot : Nat)
    (b : BitTerm) (filled : i.data.table[slot]? = some (some b)) (terms : Index TermData)
    (model : w.termsOf i.data.model = some terms) (sound : terms.Sound) (t : Entry TermData) (inModel : t ∈ terms.set)
    (object : t.object = b.term) :
    w.key d (.instTerm i.object slot) = some (.InstTerm, t.id, i.id, b.bit) := by
  obtain ⟨m, found, rfl⟩ := Option.map_eq_some_iff.mp model
  simp only [World.key]
  rw [(instances.entry_iff i.object i).mpr ⟨member, rfl⟩]
  simp only [Option.bind_some, filled, Option.join_some, found]
  rw [(sound.entry_iff b.term t).mpr ⟨inModel, object⟩]
  rfl

include sound

/-- Keys tell the components of a design apart. -/
theorem key_injective (whole : w.Sound) (c c' : Component) (here : d.hasComponent c) (here' : d.hasComponent c') :
    w.sameKey d c c' = true ↔ c' = c := by
  unfold World.sameKey
  rw [beq_iff_eq]
  refine ⟨?_, fun same => by rw [same]⟩
  intro equal
  -- the model of an instance is sound, since every design is
  have modelSound (k : Nat) (terms : Index TermData) (found : w.termsOf k = some terms) : terms.Sound := by
    obtain ⟨m, there, rfl⟩ := Option.map_eq_some_iff.mp found
    exact (whole k m there).terms
  cases c with
  | bitTerm b =>
      obtain ⟨e, member, inside⟩ := here
      obtain ⟨term, bit⟩ := b
      obtain ⟨rfl, -⟩ := (mem_bitsOf e _).mp inside
      rw [key_bitTerm w d sound.terms e member] at equal
      cases c' with
      | bitTerm b' =>
          obtain ⟨e', member', inside'⟩ := here'
          obtain ⟨term', bit'⟩ := b'
          obtain ⟨rfl, -⟩ := (mem_bitsOf e' _).mp inside'
          rw [key_bitTerm w d sound.terms e' member', Option.some.injEq, Prod.mk.injEq, Prod.mk.injEq,
            Prod.mk.injEq] at equal
          obtain ⟨-, ids, -, rfl⟩ := equal
          rw [sound.terms.eq_of_id e e' member member' ids]
      | instTerm inst slot =>
          obtain ⟨i, member', rfl, b', filled⟩ := here'
          obtain ⟨terms, model, table⟩ := sound.tables i member'
          obtain ⟨t, inModel, inside'⟩ := table.bits slot b' filled
          obtain ⟨object, -⟩ := (mem_bitsOf t b').mp inside'
          rw [key_instTerm w d sound.instances i member' slot b' filled terms model (modelSound _ _ model) t inModel
            object.symm, Option.some.injEq, Prod.mk.injEq] at equal
          split at equal <;> exact absurd equal.1 (by decide)
  | instTerm inst slot =>
      obtain ⟨i, member, rfl, b, filled⟩ := here
      obtain ⟨terms, model, table⟩ := sound.tables i member
      obtain ⟨t, inModel, inside⟩ := table.bits slot b filled
      obtain ⟨object, -⟩ := (mem_bitsOf t b).mp inside
      rw [key_instTerm w d sound.instances i member slot b filled terms model (modelSound _ _ model) t inModel
        object.symm] at equal
      cases c' with
      | bitTerm b' =>
          obtain ⟨e', member', inside'⟩ := here'
          obtain ⟨term', bit'⟩ := b'
          obtain ⟨rfl, -⟩ := (mem_bitsOf e' _).mp inside'
          rw [key_bitTerm w d sound.terms e' member', Option.some.injEq, Prod.mk.injEq] at equal
          split at equal <;> exact absurd equal.1 (by decide)
      | instTerm inst' slot' =>
          obtain ⟨i', member', rfl, b', filled'⟩ := here'
          obtain ⟨terms', model', table'⟩ := sound.tables i' member'
          obtain ⟨t', inModel', inside'⟩ := table'.bits slot' b' filled'
          obtain ⟨object', -⟩ := (mem_bitsOf t' b').mp inside'
          rw [key_instTerm w d sound.instances i' member' slot' b' filled' terms' model' (modelSound _ _ model') t'
            inModel' object'.symm, Option.some.injEq, Prod.mk.injEq, Prod.mk.injEq, Prod.mk.injEq] at equal
          obtain ⟨-, ids, insts, bits⟩ := equal
          obtain rfl := sound.instances.eq_of_id i i' member member' insts
          obtain rfl := Option.some.inj (model.symm.trans model')
          obtain rfl := (modelSound _ _ model).eq_of_id t t' inModel inModel' ids
          have sameBit : b = b' := by
            obtain ⟨term, bit⟩ := b
            obtain ⟨term', bit'⟩ := b'
            simp only at object object' bits
            rw [object, object', bits]
          subst sameBit
          rw [table.distinct slot slot' b filled filled']

end keys

/-- The bits of every model stay. -/
def World.Keeps (w w' : World) : Prop :=
  ∀ k t, w.termsOf k = some t → ∃ t', w'.termsOf k = some t' ∧ ∀ b, HasBit t b → HasBit t' b

theorem TableSound.mono (t t' : Index TermData) (table : List (Option BitTerm)) (sound : TableSound t table)
    (bits : ∀ b, HasBit t b → HasBit t' b) : TableSound t' table :=
  ⟨fun slot b filled => bits b (sound.bits slot b filled), sound.distinct⟩

/-- A design sees of the others only the bits of its models. -/
theorem Design.Sound.frame (w w' : World) (d : Design) (sound : d.Sound w) (keeps : w.Keeps w')
    (next : w.next ≤ w'.next) : d.Sound w' where
  terms := sound.terms
  nets := sound.nets
  instances := sound.instances
  oldTerms e member := Nat.lt_of_lt_of_le (sound.oldTerms e member) next
  oldNets e member := Nat.lt_of_lt_of_le (sound.oldNets e member) next
  oldInstances e member := Nat.lt_of_lt_of_le (sound.oldInstances e member) next
  parameters := sound.parameters
  links := sound.links
  attached := sound.attached
  tables e member := by
    obtain ⟨t, model, table⟩ := sound.tables e member
    obtain ⟨t', model', bits⟩ := keeps _ t model
    exact ⟨t', model', table.mono t t' _ bits⟩

section connect
variable (w : World) (whole : w.Sound) (d : Design) (sound : d.Sound w)
include whole sound

/-- A component that exists moves to a net that exists. -/
theorem Design.Sound.setNet (c : Component) (here : d.hasComponent c) (target : Option BitNet)
    (there : ∀ n, target = some n → d.hasBitNet n) : (w.setNet d c target).Sound w := by
  have exact (x : Component) (linked : (d.links.netOf x).isSome) : w.sameKey d c x = true ↔ x = c := by
    obtain ⟨n, found⟩ := Option.isSome_iff_exists.mp linked
    exact key_injective w d sound whole c x here (sound.attached x n found).1
  refine ⟨sound.terms, sound.nets, sound.instances, sound.oldTerms, sound.oldNets, sound.oldInstances,
    sound.parameters, Links.paired_setNet (w.sameKey d) d.links c target sound.links exact, ?_, sound.tables⟩
  intro x n found
  have moved := Links.netOf_setNet (w.sameKey d) d.links c target x
  rw [show (w.setNet d c target).links.netOf x = _ from moved] at found
  split at found
  · next hit => exact ⟨hit ▸ here, there n found⟩
  · exact sound.attached x n found

/-- Several components, one after the other. -/
theorem Design.Sound.setNets (pairs : List (Component × Option BitNet))
    (fine : ∀ pair ∈ pairs, d.hasComponent pair.1 ∧ ∀ n, pair.2 = some n → d.hasBitNet n) :
    (w.setNets d pairs).Sound w := by
  induction pairs generalizing d with
  | nil => exact sound
  | cons pair rest ih =>
      obtain ⟨here, there⟩ := fine pair List.mem_cons_self
      exact ih (w.setNet d pair.1 pair.2) (sound.setNet w whole d pair.1 here pair.2 there)
        (fun other member => fine other (List.mem_cons_of_mem _ member))

end connect

/-- What a sequence of connections leaves as it is. -/
theorem setNets_frame (w : World) (d : Design) (pairs : List (Component × Option BitNet)) :
    w.setNets d pairs = { d with links := (w.setNets d pairs).links } := by
  induction pairs generalizing d with
  | nil => rfl
  | cons pair rest ih =>
      have step : w.setNets d (pair :: rest) = w.setNets (w.setNet d pair.1 pair.2) rest := rfl
      rw [step, ih (w.setNet d pair.1 pair.2)]
      rfl

/-- The net of a component after all of a sequence moved to one net, or to none. -/
theorem netOf_setNets_to (w : World) (target : Option BitNet) (d : Design) (cs : List Component) (x : Component) :
    (w.setNets d (cs.map (fun c => (c, target)))).links.netOf x = if x ∈ cs then target else d.links.netOf x := by
  induction cs generalizing d with
  | nil => simp [World.setNets]
  | cons c rest ih =>
      have step : w.setNets d ((c :: rest).map (fun c => (c, target))) =
          w.setNets (w.setNet d c target) (rest.map (fun c => (c, target))) := rfl
      have first := Links.netOf_setNet (w.sameKey d) d.links c target x
      rw [step, ih, show (w.setNet d c target).links.netOf x = _ from first]
      by_cases later : x ∈ rest
      · simp [later]
      · by_cases hit : x = c <;> simp [later, hit]

theorem netOf_setNets_none (w : World) (d : Design) (cs : List Component) (x : Component) :
    (w.setNets d (cs.map (fun c => (c, none)))).links.netOf x = if x ∈ cs then none else d.links.netOf x :=
  netOf_setNets_to w none d cs x

/-- The last net that a list of connections gives to a component. -/
def lastNet (moves : List (Component × Option BitNet)) (c : Component) : Option (Option BitNet) :=
  (moves.reverse.find? (fun move => move.1 == c)).map Prod.snd

theorem netOf_setNets (w : World) (d : Design) (moves : List (Component × Option BitNet)) (c : Component) :
    (w.setNets d moves).links.netOf c = (lastNet moves c).getD (d.links.netOf c) := by
  induction moves generalizing d with
  | nil => rfl
  | cons move rest ih =>
      have step : w.setNets d (move :: rest) = w.setNets (w.setNet d move.1 move.2) rest := rfl
      have first := Links.netOf_setNet (w.sameKey d) d.links move.1 move.2 c
      rw [step, ih, show (w.setNet d move.1 move.2).links.netOf c = _ from first]
      unfold lastNet
      rw [List.reverse_cons, List.find?_append]
      cases rest.reverse.find? (fun move => move.1 == c) with
      | some later => rfl
      | none =>
          by_cases hit : move.1 = c
          · simp [hit]
          · simp [hit, Ne.symm hit]

theorem lastNet_iff (moves : List (Component × Option BitNet)) (distinct : (moves.map Prod.fst).Nodup) (c : Component)
    (net : Option BitNet) : lastNet moves c = some net ↔ (c, net) ∈ moves := by
  unfold lastNet
  rw [Option.map_eq_some_iff]
  constructor
  · intro found
    obtain ⟨move, first, rfl⟩ := found
    have same : move.1 = c := by simpa using List.find?_some first
    have member := List.mem_reverse.mp (List.mem_of_find?_eq_some first)
    rwa [← same]
  · intro member
    have some : (moves.reverse.find? (fun move => move.1 == c)).isSome := by
      rw [List.find?_isSome]
      exact ⟨(c, net), List.mem_reverse.mpr member, beq_self_eq_true c⟩
    obtain ⟨move, first⟩ := Option.isSome_iff_exists.mp some
    have same : move.1 = c := by simpa using List.find?_some first
    have there := List.mem_reverse.mp (List.mem_of_find?_eq_some first)
    have equal : move = (c, net) := List.inj_on_of_nodup_map distinct there member same
    exact ⟨move, first, by rw [equal]⟩

theorem lastNet_none (moves : List (Component × Option BitNet)) (c : Component) (absent : c ∉ moves.map Prod.fst) :
    lastNet moves c = none := by
  unfold lastNet
  rw [Option.map_eq_none_iff, List.find?_eq_none]
  intro move member same
  exact absent (List.mem_map.mpr ⟨move, List.mem_reverse.mp member, by simpa using same⟩)

section world
variable (w : World) (whole : w.Sound)

theorem keeps_setDesign (k : Nat) (d d' : Design) (found : w.designs[k]? = some d)
    (bits : ∀ b, HasBit d.terms b → HasBit d'.terms b) : w.Keeps (w.setDesign k d') := by
  intro j t model
  by_cases here : j = k
  · rw [here, World.termsOf, found] at model
    obtain rfl := Option.some.inj model
    refine ⟨d'.terms, ?_, bits⟩
    rw [here, World.termsOf, World.setDesign, List.getElem?_set_self (List.getElem?_eq_some_iff.mp found).1]
    rfl
  · refine ⟨t, ?_, fun _ inside => inside⟩
    rw [World.termsOf, World.setDesign, List.getElem?_set_ne (Ne.symm here)]
    exact model

theorem modifyDesign_eq (k : Nat) (f : Design → Design) :
    w.modifyDesign k f = (w.designs[k]?).elim w (fun d => w.setDesign k (f d)) := by
  cases found : w.designs[k]? with
  | none =>
      unfold World.modifyDesign
      rw [List.modify_eq_self (List.getElem?_eq_none_iff.mp found)]
      rfl
  | some d =>
      unfold World.modifyDesign World.setDesign
      simp only [Option.elim_some]
      congr 1
      refine List.ext_getElem? ?_
      intro j
      by_cases here : j = k
      · rw [here, List.getElem?_modify_eq, found, List.getElem?_set_self (List.getElem?_eq_some_iff.mp found).1]
        rfl
      · rw [List.getElem?_modify_ne f w.designs (Ne.symm here), List.getElem?_set_ne (Ne.symm here)]

include whole

/-- One design is replaced by another one with at least its bits. -/
theorem World.Sound.setDesign (k : Nat) (d d' : Design) (found : w.designs[k]? = some d)
    (bits : ∀ b, HasBit d.terms b → HasBit d'.terms b) (sound : d'.Sound w) : (w.setDesign k d').Sound := by
  have keeps := keeps_setDesign w k d d' found bits
  intro j x there
  by_cases here : j = k
  · have placed : (w.setDesign k d').designs[k]? = some d' :=
      List.getElem?_set_self (List.getElem?_eq_some_iff.mp found).1
    rw [here, placed] at there
    obtain rfl := Option.some.inj there
    exact sound.frame w _ _ keeps (Nat.le_refl _)
  · have kept : (w.setDesign k d').designs[j]? = w.designs[j]? := List.getElem?_set_ne (Ne.symm here)
    rw [kept] at there
    exact (whole j x there).frame w _ x keeps (Nat.le_refl _)

theorem World.Sound.modifyDesign (k : Nat) (f : Design → Design)
    (bits : ∀ d b, HasBit d.terms b → HasBit (f d).terms b)
    (sound : ∀ d, w.designs[k]? = some d → (f d).Sound w) : (w.modifyDesign k f).Sound := by
  rw [modifyDesign_eq]
  cases found : w.designs[k]? with
  | none => exact whole
  | some d => exact whole.setDesign w k d (f d) found (bits d) (sound d found)

/-- All designs change, and all keep their terms. -/
theorem World.Sound.mapDesigns (f : Design → Design) (terms : ∀ d, (f d).terms = d.terms)
    (sound : ∀ (k : Nat) (d : Design), w.designs[k]? = some d → (f d).Sound w) :
    ({ w with designs := w.designs.map f } : World).Sound := by
  intro k x there
  rw [List.getElem?_map] at there
  obtain ⟨d, found, rfl⟩ := Option.map_eq_some_iff.mp there
  refine (sound k d found).frame w _ _ ?_ (Nat.le_refl _)
  intro j t model
  refine ⟨t, ?_, fun _ inside => inside⟩
  obtain ⟨m, foundModel, rfl⟩ := Option.map_eq_some_iff.mp model
  rw [World.termsOf, List.getElem?_map, foundModel]
  exact congrArg some (terms m)

/-- Addresses are given out from the next one on. -/
theorem World.Sound.later (next : Address) (le : w.next ≤ next) : ({ w with next := next } : World).Sound := by
  intro k d found
  exact (whole k d found).frame w _ d (fun j t model => ⟨t, model, fun _ inside => inside⟩) le

/-- A design more. -/
def World.withDesign (w : World) (new : Design) (next : Address) : World :=
  { w with designs := w.designs ++ [new], next := next }

omit whole in
theorem keeps_withDesign (new : Design) (next : Address) : w.Keeps (w.withDesign new next) := by
  intro k t model
  refine ⟨t, ?_, fun _ inside => inside⟩
  obtain ⟨m, found, rfl⟩ := Option.map_eq_some_iff.mp model
  have placed : (w.withDesign new next).designs[k]? = some m := by
    change (w.designs ++ [new])[k]? = some m
    rw [List.getElem?_append_left (List.getElem?_eq_some_iff.mp found).1, found]
  exact congrArg (Option.map Design.terms) placed

theorem World.Sound.withDesign (new : Design) (next : Address) (le : w.next ≤ next)
    (sound : new.Sound (w.withDesign new next)) : (w.withDesign new next).Sound := by
  intro k x there
  change (w.designs ++ [new])[k]? = some x at there
  by_cases old : k < w.designs.length
  · rw [List.getElem?_append_left old] at there
    exact (whole k x there).frame w _ x (keeps_withDesign w new next) le
  · rw [List.getElem?_append_right (Nat.le_of_not_lt old), List.getElem?_singleton] at there
    split at there
    · obtain rfl := Option.some.inj there
      exact sound
    · contradiction

end world

/-- The state after a call, whether it returned or threw. -/
def Outcome.Sound : Outcome → Prop
  | .done w => w.Sound
  | .thrown _ w => w.Sound
  | .undefined => True

end Naja.Netlist
