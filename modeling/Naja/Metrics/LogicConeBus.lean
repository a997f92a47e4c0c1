import Naja.Metrics.LogicConeExtract

/-! The cone of a bus. The cones of the workers are merged one after the other: the nodes
of a key become one, an edge is left out where it would close a cycle, and the bit roots
are put under the bus root. Whatever is left out, a new node keeps the edge it was made with. -/

namespace Naja.Metrics.LogicCone

section Bus
variable (dnl : DNLFull) (direction : Direction) (bits : List Nat)

def BusDepends (key other : NodeKey) : Prop :=
  (key = .BusRoot ∧ ∃ bit ∈ bits, other = .Terminal bit) ∨ Depends dnl direction bits key other

/-- The cones of the starts in `done` are merged. -/
structure Merged (done : List Nat) (data : ConeData) : Prop where
  sound : data.Sound
  root : data.root = 0
  busRoot : data.keyAt 0 = some .BusRoot
  nodes : ∀ i key, data.keyAt i = some key → key = .BusRoot ∨ InCone dnl direction bits key
  kinds : ∀ i key, data.keyAt i = some key → data.kindAt i = some (coneKind dnl done key)
  edges : ∀ i j, data.Next i j → ∃ key other, data.keyAt i = some key ∧ data.keyAt j = some other ∧
    BusDepends dnl direction bits key other
  reachable : ∀ i key, data.keyAt i = some key → Relation.ReflTransGen data.Next 0 i
  hasNodes : ∀ key, InCone dnl direction done key → ∃ i, data.keyAt i = some key
  hasEdges : NoLoop dnl direction bits → ∀ key other, Depends dnl direction done key other →
    ∃ i j, data.keyAt i = some key ∧ data.keyAt j = some other ∧ data.Next i j
  hasBits : ∀ bit ∈ done, ∃ i, data.keyAt i = some (.Terminal bit) ∧ data.Next 0 i

/-- The cone of one worker. -/
structure Worker (own : List Nat) (cone : ConeData) : Prop where
  inv : Inv dnl direction bits own Idle cone
  empty : cone.queue = []
  bitRoots : ∀ bit ∈ own, ∃ i ∈ cone.bitRoots, cone.keyAt i = some (.Terminal bit)
  ofBits : ∀ i ∈ cone.bitRoots, ∃ bit ∈ own, cone.keyAt i = some (.Terminal bit)

variable {dnl direction bits}

/-! ### What several starts reach -/

theorem Reached.mono {front back : List Nat} (within : ∀ start ∈ front, start ∈ back) {key : NodeKey} {terminal : Nat}
    (reached : Reached dnl direction front key terminal) : Reached dnl direction back key terminal := by
  induction reached with
  | start terminal member => exact Reached.start terminal (within terminal member)
  | cross key terminal entered left before net passes arc ih =>
      exact Reached.cross key terminal entered left ih net passes arc

theorem not_reached_nil (key : NodeKey) (terminal : Nat) : ¬ Reached dnl direction [] key terminal := by
  intro reached
  induction reached with
  | start terminal member => nomatch member
  | cross key terminal entered left before net passes arc ih => exact ih

theorem Depends.mono {front back : List Nat} (within : ∀ start ∈ front, start ∈ back) {key other : NodeKey}
    (depends : Depends dnl direction front key other) : Depends dnl direction back key other := by
  obtain ⟨terminal, reached, net⟩ := depends
  exact ⟨terminal, reached.mono within, net⟩

theorem InCone.mono {front back : List Nat} (within : ∀ start ∈ front, start ∈ back) {key : NodeKey}
    (inCone : InCone dnl direction front key) : InCone dnl direction back key := by
  rcases inCone with ⟨start, member, same⟩ | ⟨before, depends⟩
  · exact Or.inl ⟨start, within start member, same⟩
  · exact Or.inr ⟨before, depends.mono within⟩

theorem reached_append (front back : List Nat) (key : NodeKey) (terminal : Nat) :
    Reached dnl direction (front ++ back) key terminal ↔
      Reached dnl direction front key terminal ∨ Reached dnl direction back key terminal := by
  constructor
  · intro reached
    induction reached with
    | start terminal member =>
        rcases List.mem_append.mp member with here | there
        · exact Or.inl (Reached.start terminal here)
        · exact Or.inr (Reached.start terminal there)
    | cross key terminal entered left before net passes arc ih =>
        rcases ih with here | there
        · exact Or.inl (Reached.cross key terminal entered left here net passes arc)
        · exact Or.inr (Reached.cross key terminal entered left there net passes arc)
  · intro either
    rcases either with here | there
    · exact here.mono (fun start member => List.mem_append_left _ member)
    · exact there.mono (fun start member => List.mem_append_right _ member)

theorem depends_append (front back : List Nat) (key other : NodeKey) :
    Depends dnl direction (front ++ back) key other ↔
      Depends dnl direction front key other ∨ Depends dnl direction back key other := by
  simp only [Depends, reached_append, or_and_right, exists_or]

theorem inCone_append (front back : List Nat) (key : NodeKey) :
    InCone dnl direction (front ++ back) key ↔ InCone dnl direction front key ∨ InCone dnl direction back key := by
  simp only [InCone, depends_append, List.mem_append, or_and_right, exists_or]
  exact or_or_or_comm

theorem nodeOf_ne_busRoot (terminal : Nat) : nodeOf dnl terminal ≠ .BusRoot := by
  unfold nodeOf
  split
  · nofun
  · nofun

theorem busDepends_ne_busRoot (key other : NodeKey) (depends : BusDepends dnl direction bits key other) :
    other ≠ .BusRoot := by
  rcases depends with ⟨-, bit, -, rfl⟩ | ⟨terminal, -, entered, -, rfl⟩
  · nofun
  · exact nodeOf_ne_busRoot entered

/-! ### The nodes of a cone -/

/-- What making the nodes of a cone does, `added` being their keys. -/
structure Remapped (dnl : DNLFull) (done own : List Nat) (merged : ConeData) (added : List Node) (state : ConeData × List Nat) : Prop where
  sound : state.1.Sound
  next : state.1.nextOf = merged.nextOf
  root : state.1.root = merged.root
  keeps : ∀ i key, merged.keyAt i = some key → state.1.keyAt i = some key
  only : ∀ i key, state.1.keyAt i = some key → merged.keyAt i = some key ∨
    (merged.keyAt i = none ∧ key ∈ added.map Node.key)
  kinds : ∀ i key, state.1.keyAt i = some key → state.1.kindAt i =
    if key ∈ added.map Node.key then some (coneKind dnl (done ++ own) key) else merged.kindAt i
  places : ∀ a : Nat, (state.2[a]?).bind (fun id => state.1.keyAt id) = (added[a]?).map Node.key
  length : state.2.length = added.length

theorem Remapped.add {done own : List Nat} {merged : ConeData} (old : Merged dnl direction bits done merged)
    (added : List Node) (state : ConeData × List Nat) (so_far : Remapped dnl done own merged added state)
    (node : Node) (notBus : node.key ≠ .BusRoot) (kind : node.kind = coneKind dnl own node.key) :
    Remapped dnl done own merged (added ++ [node])
      ((state.1.getOrCreate node.key node.kind).1, state.2 ++ [(state.1.getOrCreate node.key node.kind).2]) := by
  have created := state.1.getOrCreate_spec node.key node.kind
  generalize state.1.getOrCreate node.key node.kind = made at created
  have mem (key : NodeKey) : key ∈ (added ++ [node]).map Node.key ↔ key ∈ added.map Node.key ∨ key = node.key := by
    rw [List.map_append, List.mem_append, List.map_singleton, List.mem_singleton]
  constructor
  · exact created.sound so_far.sound
  · exact created.next.trans so_far.next
  · exact created.root.trans so_far.root
  · exact fun i key there => created.keeps i key (so_far.keeps i key there)
  · intro i key there
    rcases created.only i key there with before | ⟨rfl, rfl⟩
    · rcases so_far.only i key before with older | ⟨fresh, member⟩
      · exact Or.inl older
      · exact Or.inr ⟨fresh, (mem key).mpr (Or.inl member)⟩
    · cases first : merged.keyAt made.2 with
      | none => exact Or.inr ⟨rfl, (mem node.key).mpr (Or.inr rfl)⟩
      | some other =>
          have is := created.keeps _ _ (so_far.keeps _ _ first)
          rw [created.here] at is
          exact Or.inl is.symm
  · intro i key there
    by_cases here : i = made.2
    · have is : key = node.key := Option.some.inj (there.symm.trans (here ▸ created.here))
      rw [if_pos ((mem key).mpr (Or.inr is)), here, created.kind, is]
      congr 1
      -- a root of the worker is a root; else the kind is the one that the key has already, or the worker's
      have joined : (if coneKind dnl own node.key = .Root then .Root else coneKind dnl done node.key) =
          coneKind dnl (done ++ own) node.key := by
        cases key : node.key with
        | BusRoot => exact absurd key notBus
        | Instance inst => exact if_neg (getNodeKind_ne_root dnl inst)
        | Terminal terminal =>
            simp only [coneKind, List.mem_append]
            by_cases inOwn : terminal ∈ own
            · simp [inOwn]
            · simp [inOwn]
      rw [kind]
      cases before : state.1.keyAt made.2 with
      | some other =>
          have was : other = node.key := Option.some.inj ((created.keeps _ _ before).symm.trans created.here)
          have found := so_far.kinds _ _ before
          rw [was] at found
          split at found
          · rw [found, Option.getD_some]
            split
            · next root => rw [← joined, if_pos root]
            · rfl
          · next absent =>
              rcases so_far.only _ _ before with older | ⟨-, member⟩
              · rw [old.kinds _ _ older, was] at found
                rw [found, Option.getD_some, joined]
              · exact absurd (was ▸ member) absent
      | none =>
          have noKind : state.1.kindAt made.2 = none := by
            rw [← Option.not_isSome_iff_eq_none, state.1.kindAt_isSome, before]
            exact Bool.false_ne_true
          rw [noKind, Option.getD_none, ← joined]
          split
          · rfl
          · next notRoot =>
              cases key : node.key with
              | BusRoot => exact absurd key notBus
              | Instance inst => rfl
              | Terminal terminal =>
                  have outside : terminal ∉ done := by
                    intro member
                    obtain ⟨j, there, -⟩ := old.hasBits terminal member
                    exact (created.fresh before).2 j (key ▸ so_far.keeps j _ there)
                  rw [key] at notRoot
                  simp only [coneKind] at notRoot ⊢
                  rw [if_neg outside]
                  split
                  · next inOwn => exact absurd (if_pos inOwn) notRoot
                  · rfl
    · have before : state.1.keyAt i = some key := by
        rcases created.only i key there with before | ⟨now, -⟩
        · exact before
        · exact absurd now here
      have apart : key ≠ node.key := by
        intro is
        exact here ((created.sound so_far.sound).distinct i made.2 key there (is ▸ created.here))
      rw [created.kinds i here, so_far.kinds i key before]
      simp only [mem, apart, or_false]
  · intro a
    by_cases less : a < state.2.length
    · have inAdded : a < added.length := so_far.length ▸ less
      have place := so_far.places a
      rw [List.getElem?_eq_getElem less, List.getElem?_eq_getElem inAdded] at place
      rw [List.getElem?_append_left less, List.getElem?_append_left inAdded, List.getElem?_eq_getElem less,
        List.getElem?_eq_getElem inAdded]
      exact created.keeps _ _ place
    · by_cases same : a = state.2.length
      · rw [same, List.getElem?_concat_length, so_far.length, List.getElem?_concat_length]
        exact created.here
      · rw [List.getElem?_eq_none (by rw [List.length_append, List.length_singleton]; omega),
          List.getElem?_eq_none (by rw [List.length_append, List.length_singleton, ← so_far.length]; omega)]
        rfl
  · rw [List.length_append, List.length_append, so_far.length, List.length_singleton, List.length_singleton]

theorem remapNodes_spec {done own : List Nat} {merged : ConeData} (old : Merged dnl direction bits done merged)
    (cone : ConeData) (worker : Worker dnl direction bits own cone) :
    Remapped dnl done own merged cone.nodes (remapNodes merged cone) := by
  have each (node : Node) (member : node ∈ cone.nodes) : node.key ≠ .BusRoot ∧ node.kind = coneKind dnl own node.key := by
    obtain ⟨i, inRange, is⟩ := List.getElem_of_mem member
    have key : cone.keyAt i = some node.key := by
      rw [ConeData.keyAt, List.getElem?_eq_getElem inRange, is]
      rfl
    have kind : cone.kindAt i = some node.kind := by
      rw [ConeData.kindAt, List.getElem?_eq_getElem inRange, is]
      rfl
    refine ⟨?_, Option.some.inj (kind.symm.trans (worker.inv.kinds i _ key))⟩
    rcases worker.inv.nodes i _ key with ⟨start, -, same⟩ | ⟨before, terminal, -, entered, -, same⟩
    · rw [same]
      exact NodeKey.noConfusion
    · rw [same]
      exact nodeOf_ne_busRoot entered
  have fold (rest added : List Node) (within : ∀ node ∈ rest, node ∈ cone.nodes) (state : ConeData × List Nat)
      (so_far : Remapped dnl done own merged added state) :
      Remapped dnl done own merged (added ++ rest) (rest.foldl (fun state node =>
        ((state.1.getOrCreate node.key node.kind).1, state.2 ++ [(state.1.getOrCreate node.key node.kind).2])) state) := by
    induction rest generalizing added state with
    | nil => rwa [List.append_nil]
    | cons node rest ih =>
        obtain ⟨notBus, kind⟩ := each node (within node List.mem_cons_self)
        rw [List.append_cons]
        exact ih (added ++ [node]) (fun other member => within other (List.mem_cons_of_mem _ member)) _
          (so_far.add old added state node notBus kind)
  apply fold cone.nodes [] (fun _ member => member) (merged, [])
  constructor
  · exact old.sound
  · rfl
  · rfl
  · exact fun _ _ there => there
  · exact fun _ _ there => Or.inl there
  · exact fun i key there => (if_neg List.not_mem_nil).symm
  · exact fun a => rfl
  · rfl

/-! ### The edges of a cone -/

/-- From a node of a cone on, the bus root plays no part. -/
theorem depends_of_busDepends (key other : NodeKey) (path : Relation.ReflTransGen (BusDepends dnl direction bits) key other)
    (notBus : key ≠ .BusRoot) : Relation.ReflTransGen (Depends dnl direction bits) key other := by
  have both : Relation.ReflTransGen (Depends dnl direction bits) key other ∧ other ≠ .BusRoot := by
    induction path with
    | refl => exact ⟨Relation.ReflTransGen.refl, notBus⟩
    | tail _ edge ih =>
        refine ⟨?_, busDepends_ne_busRoot _ _ edge⟩
        rcases edge with ⟨root, -⟩ | depends
        · exact absurd root ih.2
        · exact ih.1.tail depends
  exact both.1

/-- The data while the edges of a cone are added. -/
structure Linking (dnl : DNLFull) (direction : Direction) (bits : List Nat) (merged created data : ConeData) : Prop where
  sound : data.Sound
  keys : data.keyAt = created.keyAt
  kinds : data.kindAt = created.kindAt
  root : data.root = created.root
  keeps : ∀ i j, merged.Next i j → data.Next i j
  edges : ∀ i j, data.Next i j → ∃ key other, data.keyAt i = some key ∧ data.keyAt j = some other ∧
    BusDepends dnl direction bits key other

theorem Linking.add {merged created data : ConeData} (linking : Linking dnl direction bits merged created data)
    (p c : Nat) (key other : NodeKey) (parent : created.keyAt p = some key) (child : created.keyAt c = some other)
    (depends : BusDepends dnl direction bits key other) :
    Linking dnl direction bits merged created (data.addEdge p c) ∧ (∀ i j, data.Next i j → (data.addEdge p c).Next i j) ∧
      (∀ i j, (data.addEdge p c).Next i j → data.Next i j ∨ (i = p ∧ j = c)) ∧
      ((data.addEdge p c).Next p c ∨ Relation.ReflTransGen data.Next c p) := by
  obtain ⟨sound, keys, kinds, keeps, only, linked, -, -, root, -⟩ :=
    data.addEdge_spec linking.sound p c (by rw [linking.keys, parent]; rfl) (by rw [linking.keys, child]; rfl)
  refine ⟨⟨sound, keys.trans linking.keys, kinds.trans linking.kinds, root.trans linking.root,
    fun i j edge => keeps i j (linking.keeps i j edge), ?_⟩, keeps, only, linked⟩
  intro i j edge
  rw [keys]
  rcases only i j edge with old | ⟨rfl, rfl⟩
  · exact linking.edges i j old
  · exact ⟨key, other, by rw [linking.keys]; exact parent, by rw [linking.keys]; exact child, depends⟩

section Pairs
variable {own : List Nat} {cone merged created : ConeData} {place : Nat → Nat}

/-- The edges of the cone, in the order of their sources. A node that is new has no edge when the one that
it was made with is added, so that this one is never left out. -/
theorem Linking.pairs (worker : Worker dnl direction bits own cone)
    (placed : ∀ a key, cone.keyAt a = some key → created.keyAt (place a) = some key) (pairs : List (Nat × Nat))
    (sorted : pairs.Pairwise (fun left right => left.1 ≤ right.1))
    (within : ∀ pair ∈ pairs, cone.Next pair.1 pair.2) (data : ConeData)
    (linking : Linking dnl direction bits merged created data)
    (blank : ∀ pair ∈ pairs, merged.keyAt (place pair.2) = none → pair.1 < pair.2 → data.nextOf (place pair.2) = []) :
    Linking dnl direction bits merged created
        (pairs.foldl (fun data pair => data.addEdge (place pair.1) (place pair.2)) data) ∧
      (∀ i j, data.Next i j →
        (pairs.foldl (fun data pair => data.addEdge (place pair.1) (place pair.2)) data).Next i j) ∧
      ∀ pair ∈ pairs, (NoLoop dnl direction bits ∨ (merged.keyAt (place pair.2) = none ∧ pair.1 < pair.2)) →
        (pairs.foldl (fun data pair => data.addEdge (place pair.1) (place pair.2)) data).Next
          (place pair.1) (place pair.2) := by
  induction pairs generalizing data with
  | nil => exact ⟨linking, fun _ _ edge => edge, fun pair member => nomatch member⟩
  | cons head rest ih =>
      obtain ⟨a, b⟩ := head
      obtain ⟨first, later⟩ := List.pairwise_cons.mp sorted
      have edge := within (a, b) List.mem_cons_self
      obtain ⟨key, other, atA, atB, depends⟩ := worker.inv.edges a b edge
      obtain ⟨linking', keeps, only, linked⟩ := linking.add (place a) (place b) key other (placed a key atA)
        (placed b other atB) (Or.inr depends)
      have distinct (x y : Nat) (keyX keyY : NodeKey) (atX : cone.keyAt x = some keyX) (atY : cone.keyAt y = some keyY)
          (same : place x = place y) : x = y := by
        have left := placed x keyX atX
        rw [same, placed y keyY atY] at left
        cases left
        exact worker.inv.sound.distinct x y keyX atX atY
      have blank' : ∀ pair ∈ rest, merged.keyAt (place pair.2) = none → pair.1 < pair.2 →
          (data.addEdge (place a) (place b)).nextOf (place pair.2) = [] := by
        intro pair member fresh less
        have empty := blank pair (List.mem_cons_of_mem _ member) fresh less
        have notBefore := first pair member
        apply List.eq_nil_iff_forall_not_mem.mpr
        intro j listed
        rcases only _ j listed with old | ⟨same, -⟩
        · unfold ConeData.Next at old
          rw [empty] at old
          nomatch old
        · obtain ⟨-, target, -, atTarget, -⟩ := worker.inv.edges pair.1 pair.2 (within pair (List.mem_cons_of_mem _ member))
          have equal := distinct pair.2 a target key atTarget atA same
          omega
      obtain ⟨done, grows, all⟩ := ih later (fun pair member => within pair (List.mem_cons_of_mem _ member)) _ linking' blank'
      rw [List.foldl_cons]
      refine ⟨done, fun i j old => grows i j (keeps i j old), ?_⟩
      intro pair member reason
      rcases List.mem_cons.mp member with rfl | inRest
      · apply grows
        rcases linked with there | path
        · exact there
        · exfalso
          rcases reason with noLoop | ⟨fresh, less⟩
          · have keyPath := keys_of_path data _ linking.edges (place b) (place a) other key path
              (by rw [linking.keys]; exact placed b other atB) (by rw [linking.keys]; exact placed a key atA)
            have notBus : other ≠ .BusRoot := busDepends_ne_busRoot key other (Or.inr depends)
            exact noLoop key (Relation.TransGen.head' depends (depends_of_busDepends other key keyPath notBus))
          · have empty := blank (a, b) List.mem_cons_self fresh less
            rcases Relation.ReflTransGen.cases_head path with same | ⟨next, out, -⟩
            · have equal := distinct b a other key atB atA same
              simp only at less
              omega
            · unfold ConeData.Next at out
              rw [empty] at out
              nomatch out
      · exact all pair inRest reason

/-- The bit roots under the bus root: nothing leads back to that, so that no edge is left out. -/
theorem Linking.bitRoots (worker : Worker dnl direction bits own cone)
    (placed : ∀ a key, cone.keyAt a = some key → created.keyAt (place a) = some key)
    (busRoot : created.keyAt 0 = some .BusRoot) (within : ∀ bit ∈ own, bit ∈ bits) (roots : List Nat)
    (ofBits : ∀ i ∈ roots, ∃ bit ∈ own, cone.keyAt i = some (.Terminal bit)) (data : ConeData)
    (linking : Linking dnl direction bits merged created data) :
    Linking dnl direction bits merged created (roots.foldl (fun data root => data.addEdge 0 (place root)) data) ∧
      (∀ i j, data.Next i j → (roots.foldl (fun data root => data.addEdge 0 (place root)) data).Next i j) ∧
      ∀ root ∈ roots, (roots.foldl (fun data root => data.addEdge 0 (place root)) data).Next 0 (place root) := by
  induction roots generalizing data with
  | nil => exact ⟨linking, fun _ _ edge => edge, fun root member => nomatch member⟩
  | cons head rest ih =>
      obtain ⟨bit, inOwn, key⟩ := ofBits head List.mem_cons_self
      obtain ⟨linking', keeps, -, linked⟩ := linking.add 0 (place head) _ _ busRoot (placed head _ key)
        (Or.inl ⟨rfl, bit, within bit inOwn, rfl⟩)
      obtain ⟨done, grows, all⟩ := ih (fun i member => ofBits i (List.mem_cons_of_mem _ member)) _ linking'
      rw [List.foldl_cons]
      refine ⟨done, fun i j old => grows i j (keeps i j old), ?_⟩
      intro root member
      rcases List.mem_cons.mp member with rfl | inRest
      · apply grows
        rcases linked with there | path
        · exact there
        · exfalso
          rcases Relation.ReflTransGen.cases_tail path with same | ⟨before, -, edge⟩
          · have equal := placed root _ key
            rw [← same, busRoot] at equal
            nomatch equal
          · obtain ⟨source, target, -, atTarget, depends⟩ := linking.edges before 0 edge
            rw [linking.keys, busRoot] at atTarget
            cases atTarget
            exact busDepends_ne_busRoot source _ depends rfl
      · exact all root inRest

end Pairs

/-! ### Merging a cone -/

theorem coneKind_append_of_not_mem (done own : List Nat) (key : NodeKey) (outside : ∀ bit ∈ own, key ≠ .Terminal bit) :
    coneKind dnl (done ++ own) key = coneKind dnl done key := by
  cases key with
  | BusRoot => rfl
  | Instance inst => rfl
  | Terminal terminal =>
      have apart : terminal ∉ own := fun member => outside terminal member rfl
      simp [coneKind, apart]

theorem mem_edges (cone : ConeData) (pair : Nat × Nat) :
    pair ∈ (List.range cone.nodes.length).flatMap (fun a => (cone.nextOf a).map (fun b => (a, b))) ↔
      cone.Next pair.1 pair.2 := by
  obtain ⟨a, b⟩ := pair
  simp only [List.mem_flatMap, List.mem_range, List.mem_map]
  constructor
  · intro found
    obtain ⟨source, -, target, edge, same⟩ := found
    cases same
    exact edge
  · intro edge
    refine ⟨a, ?_, b, edge, rfl⟩
    rw [← ConeData.keyAt_isSome]
    by_contra none_
    have empty := cone.nextOf_eq_nil a (Option.not_isSome_iff_eq_none.mp none_)
    unfold ConeData.Next at edge
    rw [empty] at edge
    nomatch edge

theorem edges_sorted (cone : ConeData) :
    ((List.range cone.nodes.length).flatMap (fun a => (cone.nextOf a).map (fun b => (a, b)))).Pairwise
      (fun left right => left.1 ≤ right.1) := by
  refine List.pairwise_flatMap.mpr ⟨?_, ?_⟩
  · intro a member
    exact List.pairwise_map.mpr (List.pairwise_of_forall (fun _ _ => Nat.le_refl a))
  · apply List.pairwise_lt_range.imp
    intro a b less left inLeft right inRight
    obtain ⟨-, -, rfl⟩ := List.mem_map.mp inLeft
    obtain ⟨-, -, rfl⟩ := List.mem_map.mp inRight
    exact Nat.le_of_lt less

theorem Merged.merge {done own : List Nat} {merged : ConeData} (old : Merged dnl direction bits done merged)
    (cone : ConeData) (worker : Worker dnl direction bits own cone) (within : ∀ bit ∈ own, bit ∈ bits) :
    Merged dnl direction bits (done ++ own) (mergeConeData 0 merged cone) := by
  unfold mergeConeData
  by_cases blank : cone.nodes.isEmpty = true
  · rw [if_pos blank]
    have none_ : own = [] := by
      apply List.eq_nil_iff_forall_not_mem.mpr
      intro bit member
      obtain ⟨i, -, there⟩ := worker.bitRoots bit member
      unfold ConeData.keyAt at there
      rw [List.isEmpty_iff.mp blank] at there
      nomatch there
    rw [none_, List.append_nil]
    exact old
  · rw [if_neg blank]
    have remapped := remapNodes_spec old cone worker
    simp only
    generalize remapNodes merged cone = state at remapped
    obtain ⟨created, remap⟩ := state
    simp only
    have placed (a : Nat) (key : NodeKey) (there : cone.keyAt a = some key) :
        created.keyAt ((remap[a]?).getD 0) = some key := by
      have place := remapped.places a
      change (remap[a]?).bind (fun id => created.keyAt id) = cone.keyAt a at place
      rw [there] at place
      obtain ⟨id, at_, key⟩ := Option.bind_eq_some_iff.mp place
      rw [at_]
      exact key
    have inNodes (key : NodeKey) : key ∈ cone.nodes.map Node.key ↔ ∃ a, cone.keyAt a = some key := by
      rw [List.mem_map]
      constructor
      · intro found
        obtain ⟨node, member, same⟩ := found
        obtain ⟨a, inRange, is⟩ := List.getElem_of_mem member
        exact ⟨a, by rw [ConeData.keyAt, List.getElem?_eq_getElem inRange, is, Option.map_some, same]⟩
      · intro found
        obtain ⟨a, there⟩ := found
        obtain ⟨node, at_, same⟩ := Option.map_eq_some_iff.mp there
        exact ⟨node, List.mem_of_getElem? at_, same⟩
    have nextEq : created.Next = merged.Next := by
      funext i j
      exact congrArg (fun next => j ∈ next i) remapped.next
    have begun : Linking dnl direction bits merged created created := by
      refine ⟨remapped.sound, rfl, rfl, rfl, fun i j edge => nextEq ▸ edge, ?_⟩
      intro i j edge
      rw [nextEq] at edge
      obtain ⟨key, other, left, right, depends⟩ := old.edges i j edge
      exact ⟨key, other, remapped.keeps i key left, remapped.keeps j other right, depends⟩
    have folded : (List.range cone.nodes.length).foldl (fun data i =>
        (cone.nextOf i).foldl (fun data next => data.addEdge ((remap[i]?).getD 0) ((remap[next]?).getD 0)) data) created =
        ((List.range cone.nodes.length).flatMap (fun a => (cone.nextOf a).map (fun b => (a, b)))).foldl
          (fun data pair => data.addEdge ((remap[pair.1]?).getD 0) ((remap[pair.2]?).getD 0)) created := by
      rw [List.foldl_flatMap]
      congr 1
      funext data a
      rw [List.foldl_map]
    rw [folded]
    obtain ⟨linking, grows, all⟩ := begun.pairs worker placed _ (edges_sorted cone)
      (fun pair member => (mem_edges cone pair).mp member) created (by
        intro pair member fresh less
        rw [remapped.next]
        exact merged.nextOf_eq_nil _ fresh)
    obtain ⟨done_, grows', allRoots⟩ := linking.bitRoots worker placed (remapped.keeps 0 _ old.busRoot) within
      cone.bitRoots worker.ofBits _
    generalize (((List.range cone.nodes.length).flatMap (fun a => (cone.nextOf a).map (fun b => (a, b)))).foldl
      (fun data pair => data.addEdge ((remap[pair.1]?).getD 0) ((remap[pair.2]?).getD 0)) created) = edges at *
    generalize cone.bitRoots.foldl (fun data root => data.addEdge 0 ((remap[root]?).getD 0)) edges = result at *
    have key_of (i : Nat) (key : NodeKey) (there : created.keyAt i = some key) : result.keyAt i = some key := by
      rw [done_.keys]
      exact there
    -- along the edges that the nodes were made with, every node of the cone is reached
    have coneReached (b : Nat) (key : NodeKey) (there : cone.keyAt b = some key) :
        Relation.ReflTransGen result.Next 0 ((remap[b]?).getD 0) := by
      induction b using Nat.strong_induction_on generalizing key with
      | _ b ih =>
          by_cases before : merged.keyAt ((remap[b]?).getD 0) = none
          · rcases worker.inv.grounded b key there with ⟨bit, member, rfl⟩ | ⟨a, less, edge⟩
            · obtain ⟨root, inRoots, atRoot⟩ := worker.bitRoots bit member
              have same := worker.inv.sound.distinct b root _ there atRoot
              exact Relation.ReflTransGen.single (same ▸ allRoots root inRoots)
            · obtain ⟨source, -, atSource, -, -⟩ := worker.inv.edges a b edge
              have linked := all (a, b) ((mem_edges cone (a, b)).mpr edge) (Or.inr ⟨before, less⟩)
              exact (ih a less source atSource).tail (grows' _ _ linked)
          · obtain ⟨other, known⟩ := Option.ne_none_iff_exists'.mp before
            exact Relation.ReflTransGen.mono done_.keeps _ _ (old.reachable _ other known)
    constructor
    · exact done_.sound
    · exact done_.root.trans (remapped.root.trans old.root)
    · exact key_of 0 _ (remapped.keeps 0 _ old.busRoot)
    · intro i key there
      rw [done_.keys] at there
      rcases remapped.only i key there with before | ⟨-, member⟩
      · exact old.nodes i key before
      · obtain ⟨a, inCone⟩ := (inNodes key).mp member
        exact Or.inr (worker.inv.nodes a key inCone)
    · intro i key there
      rw [done_.keys] at there
      rw [done_.kinds, remapped.kinds i key there]
      split
      · rfl
      · next absent =>
          rcases remapped.only i key there with before | ⟨-, member⟩
          · rw [old.kinds i key before, coneKind_append_of_not_mem]
            intro bit inOwn same
            obtain ⟨root, -, atRoot⟩ := worker.bitRoots bit inOwn
            exact absent ((inNodes key).mpr ⟨root, same ▸ atRoot⟩)
          · exact absurd member absent
    · exact done_.edges
    · intro i key there
      rw [done_.keys] at there
      rcases remapped.only i key there with before | ⟨-, member⟩
      · exact Relation.ReflTransGen.mono done_.keeps _ _ (old.reachable i key before)
      · obtain ⟨a, inCone⟩ := (inNodes key).mp member
        have same := remapped.sound.distinct i _ key there (placed a key inCone)
        exact same ▸ coneReached a key inCone
    · intro key inCone
      rcases (inCone_append done own key).mp inCone with before | now
      · obtain ⟨i, there⟩ := old.hasNodes key before
        exact ⟨i, key_of i key (remapped.keeps i key there)⟩
      · obtain ⟨a, there⟩ := worker.inv.has_nodes worker.empty key now
        exact ⟨_, key_of _ key (placed a key there)⟩
    · intro noLoop key other depends
      rcases (depends_append done own key other).mp depends with before | now
      · obtain ⟨i, j, left, right, edge⟩ := old.hasEdges noLoop key other before
        exact ⟨i, j, key_of i key (remapped.keeps i key left), key_of j other (remapped.keeps j other right),
          done_.keeps i j edge⟩
      · obtain ⟨a, b, left, right, edge⟩ := worker.inv.has_edges worker.empty noLoop key other now
        exact ⟨_, _, key_of _ key (placed a key left), key_of _ other (placed b other right),
          grows' _ _ (all (a, b) ((mem_edges cone (a, b)).mpr edge) (Or.inl noLoop))⟩
    · intro bit member
      rcases List.mem_append.mp member with before | now
      · obtain ⟨i, there, edge⟩ := old.hasBits bit before
        exact ⟨i, key_of i _ (remapped.keeps i _ there), done_.keeps 0 i edge⟩
      · obtain ⟨root, inRoots, atRoot⟩ := worker.bitRoots bit now
        exact ⟨_, key_of _ _ (placed root _ atRoot), allRoots root inRoots⟩

end Bus

end Naja.Metrics.LogicCone
