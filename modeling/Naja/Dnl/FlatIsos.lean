import Naja.Dnl.Partition

/-! The isos are exact: they are the nets of the flattened netlist. -/

namespace Naja.Dnl

/-- The flattened netlist joins the pins of the terminals. -/
def JoinedAt (dnl : DNL) (u v : Nat) : Prop :=
  v < dnl.terms.length ∧ Joined dnl.toCircuit (pinOf dnl u) (pinOf dnl v)

/-- The terminals of a flattened net have one iso, which is that of the net; the others are empty shadows. A
net goes without an iso when all that is on it are outputs of a top that passes for a leaf. -/
structure IsosExact (dnl : DNL) (db : IsoDB) : Prop where
  joined : ∀ u < dnl.terms.length, ∀ v iso, db.isoIDs u = some iso → (db.isoIDs v = some iso ↔ JoinedAt dnl u v)
  holds : ∀ u < dnl.terms.length, ∀ iso, db.isoIDs u = some iso → HoldsNet dnl db iso (JoinedAt dnl u)
  shadows : ∀ iso < db.isos.length, (∀ u, db.isoIDs u ≠ some iso) → db.isos[iso]? = some ⟨[], [], .SHADOW⟩
  missing : ∀ u < dnl.terms.length, Attached dnl u → (db.isoIDs u = none ↔
    (dnl.design dnl.top).instances.length ≤ 1 ∧
      ∀ v, JoinedAt dnl u v → v ∈ termsOf dnl 0 ∧ directionOf dnl v = .Output)

section Exact
variable {dnl : DNL}

/-- The nets of the view join what the flattened netlist joins. -/
theorem joinedAt_eq (u : Nat) (bound : u < dnl.terms.length) : JoinedAt dnl u = ConnectedAt dnl u := by
  have lift (pin : Pin) (path : Joined dnl.toCircuit (pinOf dnl u) pin) :
      ∃ v < dnl.terms.length, pinOf dnl v = pin ∧ ConnectedAt dnl u v := by
    induction path with
    | refl => exact ⟨u, bound, rfl, .refl⟩
    | tail _ edge ih =>
        obtain ⟨v, inside, rfl, path⟩ := ih
        obtain ⟨flat, left, right⟩ := edge
        obtain ⟨v', entry, pin, rfl, on, context⟩ := exists_standsAt _ flat left
        obtain ⟨w, entry', rfl, flat, on', context'⟩ := exists_standsAt _ _ right
        obtain rfl := pin_injective v' v (lt_of_standsAt v' entry on) inside pin
        have same := FlatNet.mk.inj flat
        have above := path_injective dnl.toHierarchy dnl.orders dnl.toNetwork dnl.built _ _ context' context same.1
        obtain rfl : entry' = entry := Prod.ext above same.2
        exact ⟨w, lt_of_standsAt w entry' on', rfl, path.tail ⟨entry', on, on'⟩⟩
  funext v
  apply propext
  constructor
  · intro joined
    obtain ⟨w, inside, pin, path⟩ := lift _ joined.2
    rw [← pin_injective w v inside joined.1 pin]
    exact path
  · intro path
    induction path with
    | refl => exact ⟨bound, .refl⟩
    | tail _ edge ih =>
        obtain ⟨entry, left, right⟩ := edge
        have inside := lt_of_standsAt _ entry right
        exact ⟨inside, ih.2.tail ⟨flatOf dnl entry, stands_of_standsAt _ ih.1 entry left,
          stands_of_standsAt _ inside entry right⟩⟩

/-- On a net that has no driver and that the last pass leaves out there are terminals of the top only. -/
theorem top_of_missed (u : Nat) (attached : Attached dnl u)
    (missed : ∀ v, ConnectedAt dnl u v → v ∉ drivers dnl ∧ ¬ Dangling dnl v) (v : Nat)
    (path : ConnectedAt dnl u v) : v ∈ termsOf dnl 0 ∧ (bitTermNet dnl v).isSome = true := by
  have inner (w : Nat) (path : ConnectedAt dnl u w) (entry : Nat × Nat) (on : StandsAt dnl w entry) :
      bitTermNet dnl w = some entry := by
    rcases on with inner | outer
    · exact ((innerNet_iff w entry).mp inner).1
    · exact absurd (by simp [Dangling, outer]) (missed w path).2
  induction path with
  | refl =>
      unfold Attached at attached
      split at attached
      · next top => exact ⟨top, attached⟩
      · exact absurd (by simp [Dangling, attached]) (missed u .refl).2
  | tail path edge ih =>
      obtain ⟨entry, left, right⟩ := edge
      have bit := inner _ path entry left
      have bit' := inner _ (path.tail ⟨entry, left, right⟩) entry right
      obtain ⟨id, design, bitTerm, node, site⟩ := exists_site _ (lt_of_bitTermNet _ entry bit)
      obtain ⟨id', design', bitTerm', node', site'⟩ := exists_site _ (lt_of_bitTermNet _ entry bit')
      have same := ((bitTermNet_iff site' entry).mp bit').1.symm.trans ((bitTermNet_iff site entry).mp bit).1
      refine ⟨(mem_termsOf site' 0).mpr ?_, Option.isSome_iff_exists.mpr ⟨entry, bit'⟩⟩
      exact ((mem_termsOf site 0).mp ih.1).trans same.symm

theorem missed_iff (u : Nat) (attached : Attached dnl u) :
    (∀ v, ConnectedAt dnl u v → v ∉ drivers dnl ∧ ¬ Dangling dnl v) ↔
      (dnl.design dnl.top).instances.length ≤ 1 ∧
        ∀ v, ConnectedAt dnl u v → v ∈ termsOf dnl 0 ∧ directionOf dnl v = .Output := by
  obtain ⟨root, start, object, -⟩ := dnl.built.root
  have model : root.model dnl.toHierarchy = some dnl.top := by
    unfold Node.model
    rw [object, dnl.built.ids 0 root start]
    rfl
  have leaf := isLeaf_iff dnl.toHierarchy dnl.orders dnl.toNetwork dnl.built 0 root dnl.top start model
  have owner (v : Nat) (top : v ∈ termsOf dnl 0) (bound : v < dnl.terms.length) :
      (dnl.terms[v]?.bind fun terminal => dnl.instances[terminal.owner]?) = some root ∧ outerNet dnl v = none := by
    obtain ⟨id, design, bitTerm, node, site⟩ := exists_site v bound
    obtain rfl := (mem_termsOf site 0).mp top
    obtain rfl := Option.some.inj (start.symm.trans site.here)
    rw [site.terminal, Option.bind_some, site.outerNet, object]
    exact ⟨start, rfl⟩
  constructor
  · intro missed
    have top := top_of_missed u attached missed
    constructor
    · obtain ⟨inside, net⟩ := top u .refl
      obtain ⟨entry, bit⟩ := Option.isSome_iff_exists.mp net
      have still := (missed u .refl).2
      unfold Dangling at still
      rw [(owner u inside (lt_of_bitTermNet u entry bit)).1, net] at still
      apply leaf.mp
      by_contra plain
      exact still (by simp [plain])
    · intro v path
      obtain ⟨inside, net⟩ := top v path
      refine ⟨inside, ?_⟩
      by_contra other
      apply (missed v path).1
      exact List.mem_append_right _ (List.mem_filter.mpr ⟨inside, by simp [other, net]⟩)
  · intro given v path
    obtain ⟨inside, output⟩ := given.2 v path
    constructor
    · intro member
      obtain ⟨bound, driver⟩ := role_of_mem_drivers v member
      obtain ⟨id, design, bitTerm, node, site⟩ := exists_site v bound
      rw [site.role, ← (mem_termsOf site 0).mp inside, if_pos rfl, ← site.direction, if_pos output] at driver
      cases driver
    · intro dangling
      obtain ⟨found, outer⟩ := owner v inside dangling.lt
      unfold Dangling at dangling
      rw [found, outer, Option.any_some, leaf.mpr given.1] at dangling
      simp at dangling

end Exact

theorem isosExact (dnl : DNL) (schedule : List Nat → List Nat) (perm : ∀ tasks, (schedule tasks).Perm tasks) :
    ∃ db, buildIsos dnl schedule = some db ∧ IsosExact dnl db := by
  obtain ⟨db, ran, parts, given⟩ := buildIsos_spec dnl schedule perm
  refine ⟨db, ran, ?_⟩
  constructor
  · intro u bound v iso set
    rw [joinedAt_eq u bound]
    exact ⟨parts.apart u v iso set, parts.closed u v iso set⟩
  · intro u bound iso set
    rw [joinedAt_eq u bound]
    exact parts.holds u iso set
  · exact parts.idle
  · intro u bound attached
    rw [joinedAt_eq u bound, ← missed_iff u attached]
    constructor
    · intro none_ v path
      have free := mt (given u).mpr (not_not_intro none_)
      exact ⟨fun member => free ⟨v, path.symm _ _ _, Or.inl member⟩, fun dangling => free ⟨v, path.symm _ _ _, Or.inr dangling⟩⟩
    · intro missed
      by_contra some_
      obtain ⟨v, path, either⟩ := (given u).mp some_
      obtain ⟨driver, dangling⟩ := missed v (path.symm _ _ _)
      exact either.elim driver dangling

/-- The isos of every circuit, whatever the order the tasks of the two rounds are taken in. -/
theorem buildIsos_exact (circuit : Circuit) (before : Orders) (view : View)
    (numbered : process circuit.toHierarchy before = some view) (schedule : List Nat → List Nat)
    (perm : ∀ tasks, (schedule tasks).Perm tasks) :
    ∃ db, buildIsos (.of circuit before view numbered) schedule = some db ∧
      IsosExact (.of circuit before view numbered) db :=
  isosExact _ schedule perm

/-- Two cells that drive one output of the top. -/
def twoDrivers : Circuit where
  netlist := [⟨1, [⟨1, [0]⟩, ⟨1, [0]⟩]⟩, ⟨1, []⟩]
  top := 0
  rank number := 1 - number
  descends := by decide
  complete := by decide
  wirings := [⟨false, [.Output], [⟨.Standard, [(0, 0), (1, 0)], [0]⟩]⟩, ⟨false, [.Output], []⟩]
  bitTermsInside := by decide
  instTermsInside := by decide
  bitTermsOnce := by decide
  instTermsOnce := by decide
  assignLeaf := by decide

theorem twoDrivers_numbered : (process twoDrivers.toHierarchy ⟨fun _ => 0, fun _ _ => 0⟩).isSome = true := by decide

def twoDriversDNL : DNL := .of twoDrivers _ _ (Option.some_get twoDrivers_numbered).symm

theorem buildIsos_twoDrivers : ∃ db, buildIsos twoDriversDNL List.reverse = some db ∧ IsosExact twoDriversDNL db :=
  buildIsos_exact twoDrivers _ _ _ List.reverse List.reverse_perm

end Naja.Dnl
