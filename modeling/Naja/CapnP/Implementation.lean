import Naja.CapnP.Interface
import Naja.Netlist.Creation

/-! Reading the implementation: the instances and nets of the designs in the root
libraries come back as they were, with the references of their models as written. -/

namespace Naja.CapnP
open Naja.Netlist (Parameter InstParameter NetType rangeBits rangeBits_nodup)
open Naja.Registry

/-- The interface of a design with some of its instances and nets. -/
def Design.upTo (d : Design) (instances : List Instance) (nets : List Net) : Design :=
  { d.whole with instances := instances, nets := nets }

/-- The models are found, with the same parameters and no bit less. -/
def Refound (models : DesignReference → Option Design) (u : Universe) (d : Design) : Prop :=
  ∀ i ∈ d.instances, ∀ model, models i.model = some model → ∃ model', Universe.getSNLDesign u i.model = some model' ∧
    model'.parameters = model.parameters ∧ (model'.terms = model.terms ∨ model'.terms = model.terms.map Term.whole)

theorem getBit_whole (t : Term) (bit : Int) (there : t.getBit bit = some bit) : t.whole.getBit bit = some bit := by
  obtain ⟨id, name, direction, range, removed⟩ := t
  cases range with
  | none => exact there
  | some range =>
      simp only [Term.getBit] at there
      split at there
      · next inside =>
          refine if_pos ?_
          exact List.mem_filter.mpr ⟨(List.mem_filter.mp inside).1, decide_eq_true List.not_mem_nil⟩
      · contradiction

theorem getTerm_whole (terms : List Term) (id : Nat) :
    (terms.map Term.whole).find? (fun t => t.id == id) = (terms.find? (fun t => t.id == id)).map Term.whole := by
  rw [List.find?_map]
  rfl

section instances
variable (models : DesignReference → Option Design) (u : Universe) (d : Design) (wf : d.WellFormed models)
  (refound : Refound models u d)
include wf refound

theorem loadInstances_dump :
    (d.instances.map dumpInstance).foldlM (loadInstance u) (d.upTo [] []) = .ok (d.upTo d.instances []) := by
  refine foldlM_dump dumpInstance (loadInstance u) (fun instances => d.upTo instances []) d.instances ?_
  intro before i after parts
  have member : i ∈ d.instances := by rw [parts]; simp
  have ordered := wf.instances
  have names := wf.instanceNames
  rw [parts] at ordered names
  have below := ordered.below before after i
  obtain ⟨model, found, known⟩ := wf.resolved i member
  obtain ⟨model', found', parameters, -⟩ := refound i member model found
  have notPrimitive : ¬ (d.upTo before []).isPrimitive = true := by
    intro primitive
    rw [wf.primitive primitive] at member
    contradiction
  have created : create Instance.id Instance.name .instanceName .instanceID before ⟨i.id, i.name, i.model, []⟩ =
      .ok (before ++ [⟨i.id, i.name, i.model, []⟩]) :=
    create_last Instance.id Instance.name _ _ before _ below (names.before before after i)
  have values : i.parameters.foldlM (loadInstParameter model') [] = .ok i.parameters := by
    have loop := foldlM_dump id (loadInstParameter model') id i.parameters ?_
    · rwa [List.map_id] at loop
    · intro first p rest split
      have order := wf.instParameters i member
      rw [split] at order
      have given : model'.parameters.any (fun q => q.name == p.name) = true := by
        obtain ⟨q, there, same⟩ := known p (by rw [split]; simp)
        rw [parameters]
        exact List.any_eq_true.mpr ⟨q, there, by simpa using same⟩
      rw [id, id, loadInstParameter, if_pos given, insertByKey_last p first (order.below first rest p)]
      rfl
  simp only [loadInstance, dumpInstance, found', bind, Except.bind, pure, Except.pure, loadName_dumpName]
  rw [if_neg notPrimitive]
  simp only [show (d.upTo before []).instances = before from rfl, created, values]
  have kept : before.map (fun x => if x.id = i.id then { x with parameters := i.parameters } else x) = before := by
    refine (List.map_congr_left ?_).trans (List.map_id _)
    intro x inside
    exact if_neg (ne_of_lt (below x inside))
  have filled : (before ++ [(⟨i.id, i.name, i.model, []⟩ : Instance)]).map
      (fun x : Instance => if x.id = i.id then { x with parameters := i.parameters } else x) = before ++ [i] := by
    rw [List.map_append, kept, List.map_singleton]
    exact congrArg (fun x => before ++ [x]) (if_pos rfl)
  exact congrArg (fun instances => Except.ok (d.upTo instances [])) filled

omit wf in
/-- A component that is there is found by its reference. -/
theorem findComponent_present (nets : List Net) (c : Component) (present : d.Has models c)
    (members : ∀ inst i, d.getInstance inst = some i → i ∈ d.instances) :
    findComponent u (d.upTo d.instances nets) c = .ok c := by
  cases c with
  | bitTerm term bit =>
      obtain ⟨t, found, there⟩ := present
      have foundWhole : (d.upTo d.instances nets).getTerm term = some t.whole := by
        change (d.terms.map Term.whole).find? (fun t => t.id == term) = _
        rw [getTerm_whole]
        exact congrArg (Option.map Term.whole) found
      simp only [findComponent, foundWhole, getBit_whole t bit there]
  | instTerm inst term bit =>
      obtain ⟨i, model, t, foundInst, foundModel, foundTerm, there⟩ := present
      obtain ⟨model', found', -, terms⟩ := refound i (members inst i foundInst) model foundModel
      have foundTerm' : ∃ t', model'.getTerm term = some t' ∧ t'.getBit bit = some bit := by
        unfold Design.getTerm at foundTerm ⊢
        rcases terms with same | whole
        · rw [same]
          exact ⟨t, foundTerm, there⟩
        · rw [whole, getTerm_whole, foundTerm]
          exact ⟨t.whole, rfl, getBit_whole t bit there⟩
      obtain ⟨t', foundAgain, thereAgain⟩ := foundTerm'
      have sameInst : (d.upTo d.instances nets).getInstance inst = some i := foundInst
      simp only [findComponent, sameInst, found', Option.bind_some, foundAgain, thereAgain]

end instances

/-! ### Nets -/

/-- The components on the bits of a net. -/
def Net.components (n : Net) : List Component := n.bits.flatMap (fun b => (b.map NetBit.components).getD [])

theorem mem_components (n : Net) (c : Component) : c ∈ n.components ↔ ∃ b, some b ∈ n.bits ∧ c ∈ b.components := by
  unfold Net.components
  rw [List.mem_flatMap]
  constructor
  · intro found
    obtain ⟨b, member, inside⟩ := found
    cases b with
    | none => contradiction
    | some b => exact ⟨b, member, inside⟩
  · intro found
    obtain ⟨b, member, inside⟩ := found
    exact ⟨some b, member, inside⟩

theorem detach_absent (n : Net) (c : Component) (absent : c ∉ n.components) : n.detach c = n := by
  unfold Net.detach
  have same : n.bits.map (Option.map (fun b => { b with components := b.components.filter (fun x => x != c) })) =
      n.bits := by
    refine (List.map_congr_left ?_).trans (List.map_id _)
    intro b member
    cases b with
    | none => rfl
    | some b =>
        have kept : b.components.filter (fun x => x != c) = b.components := by
          rw [List.filter_eq_self]
          intro x inside
          have other : x ≠ c := by
            intro hit
            exact absent ((mem_components n c).mpr ⟨b, member, hit ▸ inside⟩)
          simpa using other
        simp only [Option.map_some, kept, id]
  rw [same]

theorem modify_middle {α : Type} (f : α → α) (done rest : List α) (x : α) :
    (done ++ x :: rest).modify done.length f = done ++ f x :: rest := by
  induction done with
  | nil => rfl
  | cons y later ih => rw [List.cons_append, List.length_cons, List.modify_succ_cons, ih, List.cons_append]

section nets
variable (models : DesignReference → Option Design) (u : Universe) (d : Design)
  (refound : Refound models u d) (before : List Net) (id : Nat) (name : String) (range : Option (Int × Int))
  (others : ∀ n ∈ before, n.id ≠ id)
include others

/-- What is done to the new net is done to no other. -/
theorem modifyNet_last (instances : List Instance) (bits : List (Option NetBit)) (f : Net → Net) :
    (d.upTo instances (before ++ [⟨id, name, range, bits⟩])).modifyNet id f =
      d.upTo instances (before ++ [f ⟨id, name, range, bits⟩]) := by
  have kept : before.map (fun n => if n.id = id then f n else n) = before := by
    refine (List.map_congr_left ?_).trans (List.map_id _)
    intro n member
    exact if_neg (others n member)
  unfold Design.modifyNet Design.upTo
  simp only [List.map_append, List.map_singleton, if_true, kept]

include refound in
/-- The components of one bit. -/
theorem loadComponents (done rest : List (Option NetBit)) (type : NetType) (sofar cs : List Component)
    (present : ∀ c ∈ cs, d.Has models c) (ordered : OrderedBy Component.key (sofar ++ cs))
    (elsewhere : ∀ c ∈ cs, (∀ n ∈ before, c ∉ n.components) ∧ ∀ b, some b ∈ done ++ rest → c ∉ b.components) :
    cs.foldlM (loadComponent u id done.length)
        (d.upTo d.instances (before ++ [⟨id, name, range, done ++ some ⟨type, sofar⟩ :: rest⟩])) =
      .ok (d.upTo d.instances (before ++ [⟨id, name, range, done ++ some ⟨type, sofar ++ cs⟩ :: rest⟩])) := by
  induction cs generalizing sofar with
  | nil =>
      rw [List.append_nil]
      rfl
  | cons c later ih =>
      have below := ordered.below sofar later c
      obtain ⟨notBefore, notHere⟩ := elsewhere c List.mem_cons_self
      have found := findComponent_present models u d refound
        (before ++ [⟨id, name, range, done ++ some ⟨type, sofar⟩ :: rest⟩]) c (present c List.mem_cons_self)
        (fun inst i found => List.mem_of_find?_eq_some found)
      have absent : c ∉ (⟨id, name, range, done ++ some ⟨type, sofar⟩ :: rest⟩ : Net).components := by
        rw [mem_components]
        intro attached
        obtain ⟨b, member, inside⟩ := attached
        rcases List.mem_append.mp member with inDone | inRest
        · exact notHere b (List.mem_append_left _ inDone) inside
        · rcases List.mem_cons.mp inRest with here | later
          · obtain rfl := Option.some.inj here
            exact absurd rfl (ne_of_lt (below c inside))
          · exact notHere b (List.mem_append_right _ later) inside
      have moved : setNet id done.length (before ++ [⟨id, name, range, done ++ some ⟨type, sofar⟩ :: rest⟩]) c =
          before ++ [⟨id, name, range, done ++ some ⟨type, sofar ++ [c]⟩ :: rest⟩] := by
        have kept : before.map (fun n => if n.id = id then (n.detach c).attach c done.length else n.detach c) =
            before := by
          refine (List.map_congr_left ?_).trans (List.map_id _)
          intro n member
          exact (if_neg (others n member)).trans (detach_absent n c (notBefore n member))
        unfold setNet
        rw [List.map_append, kept, List.map_singleton, if_pos rfl, detach_absent _ c absent]
        unfold Net.attach
        simp only [modify_middle, Option.map_some, insertByKey_last c sofar below]
      have next := ih (sofar ++ [c]) (fun x member => present x (List.mem_cons_of_mem _ member))
        (by rwa [List.append_assoc]) (fun x member => elsewhere x (List.mem_cons_of_mem _ member))
      rw [List.append_assoc, List.singleton_append] at next
      rw [List.foldlM_cons, loadComponent, found]
      simp only [bind, Except.bind, pure, Except.pure]
      rw [show (d.upTo d.instances (before ++ [⟨id, name, range, done ++ some ⟨type, sofar⟩ :: rest⟩])).nets =
        before ++ [⟨id, name, range, done ++ some ⟨type, sofar⟩ :: rest⟩] from rfl, moved]
      exact next

/-- The components of some bits. -/
def componentsOf (bits : List (Option NetBit)) : List Component :=
  bits.flatMap (fun b => (b.map NetBit.components).getD [])

omit others in
theorem mem_componentsOf (bits : List (Option NetBit)) (b : NetBit) (member : some b ∈ bits) (c : Component)
    (inside : c ∈ b.components) : c ∈ componentsOf bits :=
  List.mem_flatMap.mpr ⟨some b, member, inside⟩

omit others in
theorem idxOf?_middle (front back : List Int) (bit : Int) (distinct : (front ++ bit :: back).Nodup) :
    (front ++ bit :: back).idxOf? bit = some front.length := by
  rw [List.idxOf?_eq_some_iff]
  refine ⟨by simp, by simp, ?_⟩
  intro j early same
  rw [List.getElem_append_left early] at same
  exact (List.nodup_append.mp distinct).2.2 _ (List.getElem_mem early) _ List.mem_cons_self same

include refound in
/-- The bits of a bus from some place on. -/
theorem loadBits (bus : Int × Int) (done rest : List (Option NetBit)) (front back : List Int)
    (whole : rangeBits (some bus) = front ++ back) (frontLength : front.length = done.length)
    (backLength : back.length = rest.length) (present : ∀ c ∈ componentsOf rest, d.Has models c)
    (ordered : ∀ b, some b ∈ rest → OrderedBy Component.key b.components)
    (notBefore : ∀ c ∈ componentsOf rest, ∀ n ∈ before, c ∉ n.components)
    (distinct : (componentsOf (done ++ rest)).Nodup) :
    (List.zipWith dumpBusNetBit back rest).foldlM (loadBusNetBit u id bus)
        (d.upTo d.instances (before ++ [⟨id, name, some bus, done ++ back.map (fun _ => some ⟨.Standard, []⟩)⟩])) =
      .ok (d.upTo d.instances (before ++ [⟨id, name, some bus, done ++ rest⟩])) := by
  induction rest generalizing done front back with
  | nil =>
      rw [List.length_eq_zero_iff.mp backLength]
      rfl
  | cons b rest ih =>
      obtain ⟨bit, back, rfl⟩ := List.exists_cons_of_length_eq_add_one backLength
      have split : componentsOf (done ++ b :: rest) =
          componentsOf done ++ ((b.map NetBit.components).getD [] ++ componentsOf rest) := by
        simp [componentsOf]
      have place : (rangeBits (some bus)).idxOf? bit = some done.length := by
        rw [whole, ← frontLength]
        refine idxOf?_middle front back bit ?_
        rw [← whole]
        exact rangeBits_nodup _
      have bits := rangeBits_nodup (some bus)
      -- the net is the one with this ID, and its bit is still there
      have there : ¬ ((before ++ [(⟨id, name, some bus,
          done ++ some ⟨.Standard, []⟩ :: back.map (fun _ => some ⟨.Standard, []⟩)⟩ : Net)]).find?
            (fun n => n.id == id)).any (fun n => (n.bits[done.length]?).join.isNone) = true := by
        have found : (before ++ [(⟨id, name, some bus,
            done ++ some ⟨.Standard, []⟩ :: back.map (fun _ => some ⟨.Standard, []⟩)⟩ : Net)]).find?
              (fun n => n.id == id) = some ⟨id, name, some bus,
                done ++ some ⟨.Standard, []⟩ :: back.map (fun _ => some ⟨.Standard, []⟩)⟩ := by
          rw [List.find?_append, List.find?_eq_none.mpr (fun n member => by simpa using others n member)]
          simp
        rw [found]
        simp
      have step : loadBusNetBit u id bus (d.upTo d.instances (before ++ [⟨id, name, some bus,
          done ++ some ⟨.Standard, []⟩ :: back.map (fun _ => some ⟨.Standard, []⟩)⟩])) (dumpBusNetBit bit b) =
            .ok (d.upTo d.instances (before ++ [⟨id, name, some bus,
              (done ++ [b]) ++ back.map (fun _ => some ⟨.Standard, []⟩)⟩])) := by
        rw [List.append_assoc, List.singleton_append]
        cases b with
        | none =>
            simp only [loadBusNetBit, dumpBusNetBit, place]
            refine (if_neg there).trans ((if_pos trivial).trans ?_)
            rw [modifyNet_last d before id name (some bus) others]
            unfold Net.destroyBit
            simp
        | some b =>
            simp only [loadBusNetBit, dumpBusNetBit, place]
            refine (if_neg there).trans ((if_neg Bool.false_ne_true).trans ?_)
            rw [modifyNet_last d before id name (some bus) others]
            unfold Net.setType
            simp only [modify_middle, Option.map_some]
            have inRest (c : Component) (inside : c ∈ b.components) : c ∈ componentsOf (some b :: rest) :=
              mem_componentsOf _ b List.mem_cons_self c inside
            have components := loadComponents models u d refound before id name (some bus) others done
              (back.map (fun _ => some ⟨.Standard, []⟩)) b.type [] b.components
              (fun c inside => present c (inRest c inside)) (ordered b List.mem_cons_self) (by
                intro c inside
                refine ⟨notBefore c (inRest c inside), ?_⟩
                intro b' member attached
                rcases List.mem_append.mp member with early | later
                · rw [split] at distinct
                  exact (List.nodup_append.mp distinct).2.2 c (mem_componentsOf done b' early c attached) c
                    (List.mem_append_left _ inside) rfl
                · obtain ⟨_, -, fresh⟩ := List.mem_map.mp later
                  obtain rfl := Option.some.inj fresh
                  contradiction)
            rw [List.nil_append] at components
            exact components
      rw [List.zipWith_cons_cons, List.foldlM_cons, List.map_cons, step]
      have next := ih (done ++ [b]) (front ++ [bit]) back (by rw [whole, List.append_assoc, List.singleton_append])
        (by rw [List.length_append, List.length_append, frontLength]; rfl) (Nat.succ.inj backLength)
        (fun c inside => present c (List.mem_append_right _ inside))
        (fun b' member => ordered b' (List.mem_cons_of_mem _ member))
        (fun c inside => notBefore c (List.mem_append_right _ inside))
        (by rwa [List.append_assoc, List.singleton_append])
      rw [List.append_assoc done [b] rest, List.singleton_append] at next
      exact next

end nets

theorem attached_eq (d : Design) : d.attached = d.nets.flatMap Net.components := rfl

section design
variable (models : DesignReference → Option Design) (u : Universe) (d : Design) (wf : d.WellFormed models)
  (refound : Refound models u d)
include wf refound

theorem loadNets_dump :
    (d.nets.map dumpNet).foldlM (loadNet u) (d.upTo d.instances []) = .ok (d.upTo d.instances d.nets) := by
  refine foldlM_dump dumpNet (loadNet u) (fun nets => d.upTo d.instances nets) d.nets ?_
  intro before n after parts
  have member : n ∈ d.nets := by rw [parts]; simp
  have ordered := wf.nets
  have names := wf.netNames
  have attached := wf.attached
  rw [attached_eq, parts, List.flatMap_append, List.flatMap_cons] at attached
  rw [parts] at ordered names
  have below := ordered.below before after n
  have others (x : Net) (inside : x ∈ before) : x.id ≠ n.id := ne_of_lt (below x inside)
  have notBefore (c : Component) (inside : c ∈ n.components) : ∀ x ∈ before, c ∉ x.components := by
    intro x early there
    exact (List.nodup_append.mp attached).2.2 c (List.mem_flatMap.mpr ⟨x, early, there⟩) c
      (List.mem_append_left _ inside) rfl
  have distinct : n.components.Nodup := (List.nodup_append.mp (List.nodup_append.mp attached).2.1).1
  have present (c : Component) (inside : c ∈ n.components) : d.Has models c := by
    refine wf.present c ?_
    rw [attached_eq, parts]
    exact List.mem_flatMap.mpr ⟨n, by simp, inside⟩
  have created : createNet (d.upTo d.instances before) (newNet n.id n.name n.range) =
      .ok (d.upTo d.instances (before ++ [newNet n.id n.name n.range])) := by
    unfold createNet
    rw [show (d.upTo d.instances before).nets = before from rfl,
      create_last Net.id Net.name _ _ before (newNet n.id n.name n.range) below (names.before before after n)]
    rfl
  obtain ⟨id, name, range, bits⟩ := n
  have length : bits.length = (rangeBits range).length := wf.netBits _ member
  cases range with
  | none =>
      obtain ⟨b, rfl⟩ := List.length_eq_one_iff.mp length
      obtain ⟨bit, rfl⟩ := Option.isSome_iff_exists.mp (wf.scalars _ member rfl b List.mem_cons_self)
      simp only [dumpNet, loadNet, loadName_dumpName, created, bind, Except.bind]
      have fresh : newNet id name none = ⟨id, name, none, [] ++ some ⟨.Standard, []⟩ :: []⟩ := rfl
      rw [fresh, modifyNet_last d before id name none others]
      have components := loadComponents models u d refound before id name none others [] [] bit.type [] bit.components
        (fun c inside => present c ((mem_components _ c).mpr ⟨bit, List.mem_cons_self, inside⟩))
        (wf.components _ member bit List.mem_cons_self) (by
          intro c inside
          refine ⟨notBefore c ((mem_components _ c).mpr ⟨bit, List.mem_cons_self, inside⟩), ?_⟩
          simp)
      exact components
  | some bus =>
      simp only [dumpNet, loadNet, loadName_dumpName, created, bind, Except.bind]
      have loop := loadBits models u d refound before id name others bus [] bits [] (rangeBits (some bus)) rfl rfl
        length.symm present (fun b inside => wf.components _ member b inside) notBefore distinct
      exact loop

/-- A whole design. -/
theorem loadDesign_dump (designs : List Design) (found : designs.find? (fun x => x.id == d.id) = some d.bare) :
    loadDesignImplementation u designs (dumpDesignImplementation d) =
      .ok (designs.map (fun x => if x.id = d.id then d.whole else x)) := by
  unfold loadDesignImplementation
  rw [show (dumpDesignImplementation d).id = d.id from rfl, found]
  have start : d.bare = d.upTo [] [] := rfl
  simp only [bind, Except.bind, pure, Except.pure]
  rw [start, show (dumpDesignImplementation d).instances = d.instances.map dumpInstance from rfl,
    loadInstances_dump models u d wf refound]
  simp only
  rw [show (dumpDesignImplementation d).nets = d.nets.map dumpNet from rfl, loadNets_dump models u d wf refound]
  rfl

end design

end Naja.CapnP
