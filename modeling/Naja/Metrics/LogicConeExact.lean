import Naja.Metrics.LogicConeBus

/-! The cones as a whole. The cone of one start is what nets and arcs reach from it; the cone of a
bus is the union of those of its bits under one more root, however the bits are spread over
the workers and in whatever order the parts are merged. -/

namespace Naja.Metrics.LogicCone

/-- The data are a cone with the given root, nodes and dependencies. The dependencies are the edges
when they close no cycle. -/
structure Exact (dnl : DNLFull) (starts : List Nat) (root : NodeKey) (members : NodeKey → Prop)
    (depends : NodeKey → NodeKey → Prop) (data : ConeData) : Prop where
  root : data.keyAt data.root = some root
  distinct : ∀ i j key, data.keyAt i = some key → data.keyAt j = some key → i = j
  nodes : ∀ key, (∃ i, data.keyAt i = some key) ↔ members key
  kinds : ∀ i key, data.keyAt i = some key → data.kindAt i = some (coneKind dnl starts key)
  converse : ∀ i j, j ∈ data.nextOf i ↔ i ∈ data.prevOf j
  acyclic : ∀ i, ¬ Relation.TransGen data.Next i i
  reachable : ∀ i key, data.keyAt i = some key → Relation.ReflTransGen data.Next data.root i
  leaves_nodup : data.leaves.Nodup
  leaves : ∀ i, i ∈ data.leaves ↔ ∃ kind, data.kindAt i = some kind ∧ isLeaf kind = true
  edges : (∀ key, ¬ Relation.TransGen depends key key) → ∀ key other,
    (∃ i j, data.keyAt i = some key ∧ data.keyAt j = some other ∧ data.Next i j) ↔ depends key other

namespace ConeData

def HasKind (data : ConeData) (key : NodeKey) (kind : NodeKind) : Prop :=
  ∃ i, data.keyAt i = some key ∧ data.kindAt i = some kind

def HasLeaf (data : ConeData) (key : NodeKey) : Prop := ∃ i ∈ data.leaves, data.keyAt i = some key

end ConeData

/-- The nodes, kinds and leaves are those of the cones of the bits, with the bus root; a bit is a root and no
leaf also where another bit reaches it as a port. -/
structure UnionOf (bits : List Nat) (cones : Nat → ConeData) (data : ConeData) : Prop where
  nodes : ∀ key, (∃ i, data.keyAt i = some key) ↔ key = .BusRoot ∨ ∃ bit ∈ bits, ∃ i, (cones bit).keyAt i = some key
  kinds : ∀ key kind, data.HasKind key kind ↔
    (kind = .Root ∧ (key = .BusRoot ∨ ∃ bit ∈ bits, key = .Terminal bit)) ∨
    ((∀ bit ∈ bits, key ≠ .Terminal bit) ∧ ∃ bit ∈ bits, (cones bit).HasKind key kind)
  leaves : ∀ key, data.HasLeaf key ↔
    (∀ bit ∈ bits, key ≠ .Terminal bit) ∧ ∃ bit ∈ bits, (cones bit).HasLeaf key

section Cones
variable (dnl : DNLFull) (direction : Direction)

theorem Sound.listed {data : ConeData} (sound : data.Sound) (i : Nat) :
    i ∈ data.leaves ↔ ∃ kind, data.kindAt i = some kind ∧ isLeaf kind = true :=
  (sound.leaves i).trans (Option.any_eq_true _ _)

/-- The cone of one start. -/
theorem extractSingleBitCone_exact (start fuel : Nat) (suffices_ : enough dnl direction ≤ fuel) :
    ∃ data, extractSingleBitCone dnl direction fuel start = some data ∧
      Exact dnl [start] (.Terminal start) (InCone dnl direction [start]) (Depends dnl direction [start]) data := by
  obtain ⟨data, root, ran, inv, empty, -, here, isRoot, -⟩ :=
    (inv_empty dnl direction [start]).extract rfl start (List.mem_singleton_self start)
      fuel suffices_
  rw [List.nil_append] at inv
  refine ⟨data, by rw [extractSingleBitCone, ran]; rfl, ?_⟩
  constructor
  · rw [isRoot]
    exact here
  · exact inv.sound.distinct
  · intro key
    constructor
    · intro found
      obtain ⟨i, there⟩ := found
      exact inv.nodes i key there
    · exact inv.has_nodes empty key
  · exact inv.kinds
  · exact inv.sound.converse
  · exact inv.sound.acyclic
  · intro i key there
    induction i using Nat.strong_induction_on generalizing key with
    | _ i ih =>
        rcases inv.grounded i key there with ⟨bit, member, rfl⟩ | ⟨before, less, edge⟩
        · rw [List.mem_singleton.mp member] at there
          rw [isRoot, inv.sound.distinct i root _ there here]
        · obtain ⟨source, -, atSource, -, -⟩ := inv.edges before i edge
          exact (ih before less source atSource).tail edge
  · exact inv.sound.leaves_nodup
  · exact Sound.listed inv.sound
  · intro noLoop key other
    constructor
    · intro found
      obtain ⟨i, j, left, right, edge⟩ := found
      obtain ⟨source, target, atSource, atTarget, depends⟩ := inv.edges i j edge
      rw [left] at atSource
      rw [right] at atTarget
      cases atSource
      cases atTarget
      exact depends
    · exact inv.has_edges empty noLoop key other

variable {dnl direction}

theorem extractRange_spec {bits : List Nat} (fuel : Nat) (suffices_ : enough dnl direction ≤ fuel) (own : List Nat)
    (within : ∀ bit ∈ own, bit ∈ bits) :
    ∃ cone, extractRange dnl direction fuel own = some cone ∧ Worker dnl direction bits own cone := by
  have fold (rest before : List Nat) (inBits : ∀ bit ∈ rest, bit ∈ bits) (data : ConeData)
      (worker : Worker dnl direction bits before data) :
      ∃ cone, rest.foldlM (fun data bit => (extract dnl direction fuel data bit).map
          (fun found => { found.1 with bitRoots := found.1.bitRoots ++ [found.2] })) data = some cone ∧
        Worker dnl direction bits (before ++ rest) cone := by
    induction rest generalizing before data with
    | nil => exact ⟨data, rfl, by rwa [List.append_nil]⟩
    | cons bit rest ih =>
        obtain ⟨done, root, ran, inv, empty, grows, here, -, bitRoots⟩ := worker.inv.extract worker.empty bit
          (inBits bit List.mem_cons_self) fuel suffices_
        have next : Worker dnl direction bits (before ++ [bit]) { done with bitRoots := done.bitRoots ++ [root] } := by
          constructor
          · exact ⟨⟨inv.sound.distinct, inv.sound.inRange, inv.sound.converse, inv.sound.acyclic,
              inv.sound.leaves_nodup, inv.sound.leaves⟩, inv.nodes, inv.kinds, inv.edges, inv.queued, inv.grounded,
              inv.starts, inv.arcs⟩
          · exact empty
          · intro other member
            rcases List.mem_append.mp member with earlier | last
            · obtain ⟨i, inRoots, there⟩ := worker.bitRoots other earlier
              exact ⟨i, List.mem_append_left _ (bitRoots ▸ inRoots), grows.keys i _ there⟩
            · rw [List.mem_singleton.mp last]
              exact ⟨root, List.mem_append_right _ (List.mem_singleton_self root), here⟩
          · intro i member
            rcases List.mem_append.mp member with earlier | last
            · obtain ⟨other, inBefore, there⟩ := worker.ofBits i (bitRoots ▸ earlier)
              exact ⟨other, List.mem_append_left _ inBefore, grows.keys i _ there⟩
            · rw [List.mem_singleton.mp last]
              exact ⟨bit, List.mem_append_right _ (List.mem_singleton_self bit), here⟩
        obtain ⟨cone, later, spec⟩ := ih (before ++ [bit]) (fun other member => inBits other (List.mem_cons_of_mem _ member)) _ next
        refine ⟨cone, ?_, by rwa [List.append_cons]⟩
        rw [List.foldlM_cons, ran]
        exact later
  apply fold own [] within .empty
  exact ⟨inv_empty dnl direction bits, rfl, (fun bit member => nomatch member), (fun i member => nomatch member)⟩

theorem extractWorkers_spec {bits : List Nat} (fuel : Nat) (suffices_ : enough dnl direction ≤ fuel)
    (workers : List (List Nat)) (within : ∀ own ∈ workers, ∀ bit ∈ own, bit ∈ bits) :
    ∃ cones, workers.mapM (extractRange dnl direction fuel) = some cones ∧
      List.Forall₂ (Worker dnl direction bits) workers cones := by
  induction workers with
  | nil => exact ⟨[], rfl, List.Forall₂.nil⟩
  | cons own rest ih =>
      obtain ⟨cone, ran, worker⟩ := extractRange_spec fuel suffices_ own (within own List.mem_cons_self)
      obtain ⟨cones, later, all⟩ := ih (fun other member => within other (List.mem_cons_of_mem _ member))
      refine ⟨cone :: cones, ?_, List.Forall₂.cons worker all⟩
      rw [List.mapM_cons, ran, later]
      rfl

theorem mergeCones_spec {bits : List Nat} (workers : List (List Nat)) (cones : List ConeData)
    (all : List.Forall₂ (Worker dnl direction bits) workers cones) (within : ∀ own ∈ workers, ∀ bit ∈ own, bit ∈ bits)
    (done : List Nat) (data : ConeData) (merged : Merged dnl direction bits done data) :
    Merged dnl direction bits (done ++ workers.flatten) (cones.foldl (mergeConeData 0) data) := by
  induction all generalizing done data with
  | nil => rwa [List.flatten_nil, List.append_nil]
  | cons worker _ ih =>
      rw [List.flatten_cons, ← List.append_assoc]
      exact ih (fun own member => within own (List.mem_cons_of_mem _ member)) _ _
        (merged.merge _ worker (within _ List.mem_cons_self))

theorem merged_busRoot (bits : List Nat) :
    Merged dnl direction bits [] { (ConeData.empty.getOrCreate .BusRoot .Root).1 with root := 0 } := by
  have sound := (ConeData.empty.getOrCreate_spec .BusRoot .Root).sound (inv_empty dnl direction []).sound
  have made : (ConeData.empty.getOrCreate .BusRoot .Root).1 = ⟨[⟨.BusRoot, .Root, [], []⟩], 0, [], [], [], []⟩ := rfl
  rw [made] at sound ⊢
  have only (i : Nat) (key : NodeKey) (there : ConeData.keyAt ⟨[⟨.BusRoot, .Root, [], []⟩], 0, [], [], [], []⟩ i = some key) :
      i = 0 ∧ key = .BusRoot := by
    cases i with
    | zero => exact ⟨rfl, (Option.some.inj there).symm⟩
    | succ i => nomatch there
  have noEdge (i j : Nat) : ¬ ConeData.Next ⟨[⟨.BusRoot, .Root, [], []⟩], 0, [], [], [], []⟩ i j := by
    intro edge
    cases i with
    | zero => nomatch edge
    | succ i => nomatch edge
  constructor
  · exact sound
  · rfl
  · rfl
  · exact fun i key there => Or.inl (only i key there).2
  · intro i key there
    obtain ⟨rfl, rfl⟩ := only i key there
    rfl
  · exact fun i j edge => absurd edge (noEdge i j)
  · intro i key there
    rw [(only i key there).1]
  · intro key inCone
    rcases inCone with ⟨start, member, -⟩ | ⟨before, terminal, reached, -⟩
    · nomatch member
    · exact absurd reached (not_reached_nil before terminal)
  · intro noLoop key other depends
    obtain ⟨terminal, reached, -⟩ := depends
    exact absurd reached (not_reached_nil key terminal)
  · exact fun bit member => nomatch member

/-- The cone of a bus. -/
theorem extractBusCone_exact (bits : List Nat) (some_ : bits ≠ []) (workers : List (List Nat))
    (spread : workers.flatten.Perm bits) (fuel : Nat) (suffices_ : enough dnl direction ≤ fuel) :
    ∃ data, extractBusCone dnl direction fuel workers = some data ∧
      Exact dnl bits .BusRoot (fun key => key = .BusRoot ∨ InCone dnl direction bits key)
        (BusDepends dnl direction bits) data := by
  have within (own : List Nat) (member : own ∈ workers) (bit : Nat) (inOwn : bit ∈ own) : bit ∈ bits :=
    spread.mem_iff.mp (List.mem_flatten_of_mem member inOwn)
  obtain ⟨cones, ran, all⟩ := extractWorkers_spec fuel suffices_ workers within
  have merged := mergeCones_spec workers cones all within [] _ (merged_busRoot bits)
  rw [List.nil_append] at merged
  have notEmpty : ¬ workers.flatten.isEmpty = true := by
    intro empty
    rw [List.isEmpty_iff.mp empty] at spread
    exact some_ spread.nil_eq.symm
  refine ⟨cones.foldl (mergeConeData 0) { (ConeData.empty.getOrCreate .BusRoot .Root).1 with root := 0 }, ?_, ?_⟩
  · unfold extractBusCone
    rw [if_neg notEmpty, ran]
    rfl
  · generalize cones.foldl (mergeConeData 0) { (ConeData.empty.getOrCreate .BusRoot .Root).1 with root := 0 } = data
      at merged
    constructor
    · rw [merged.root]
      exact merged.busRoot
    · exact merged.sound.distinct
    · intro key
      constructor
      · intro found
        obtain ⟨i, there⟩ := found
        exact merged.nodes i key there
      · intro member
        rcases member with rfl | inCone
        · exact ⟨0, merged.busRoot⟩
        · exact merged.hasNodes key (inCone.mono (fun bit member => spread.mem_iff.mpr member))
    · intro i key there
      rw [merged.kinds i key there]
      cases key with
      | BusRoot => rfl
      | Instance inst => rfl
      | Terminal terminal => simp only [coneKind, spread.mem_iff]
    · exact merged.sound.converse
    · exact merged.sound.acyclic
    · rw [merged.root]
      exact merged.reachable
    · exact merged.sound.leaves_nodup
    · exact Sound.listed merged.sound
    · intro noLoop key other
      have free : NoLoop dnl direction bits := by
        intro at_ cycle
        exact noLoop at_ (Relation.TransGen.mono (fun _ _ depends => Or.inr depends) _ _ cycle)
      constructor
      · intro found
        obtain ⟨i, j, left, right, edge⟩ := found
        obtain ⟨source, target, atSource, atTarget, depends⟩ := merged.edges i j edge
        rw [left] at atSource
        rw [right] at atTarget
        cases atSource
        cases atTarget
        exact depends
      · intro depends
        rcases depends with ⟨rfl, bit, member, rfl⟩ | depends
        · obtain ⟨i, there, edge⟩ := merged.hasBits bit (spread.mem_iff.mpr member)
          exact ⟨0, i, merged.busRoot, there, edge⟩
        · exact merged.hasEdges free key other (depends.mono (fun bit member => spread.mem_iff.mpr member))

/-! ### A bus and its bits -/

theorem inCone_iff (bits : List Nat) (key : NodeKey) :
    InCone dnl direction bits key ↔ ∃ bit ∈ bits, InCone dnl direction [bit] key := by
  constructor
  · intro inCone
    have one (terminal : Nat) (before : NodeKey) (reached : Reached dnl direction bits before terminal) :
        ∃ bit ∈ bits, Reached dnl direction [bit] before terminal := by
      induction reached with
      | start terminal member => exact ⟨terminal, member, Reached.start terminal (List.mem_singleton_self terminal)⟩
      | cross key terminal entered left _ net passes arc ih =>
          obtain ⟨bit, member, reached⟩ := ih
          exact ⟨bit, member, Reached.cross key terminal entered left reached net passes arc⟩
    rcases inCone with ⟨bit, member, same⟩ | ⟨before, terminal, reached, net⟩
    · exact ⟨bit, member, Or.inl ⟨bit, List.mem_singleton_self bit, same⟩⟩
    · obtain ⟨bit, member, reached⟩ := one terminal before reached
      exact ⟨bit, member, Or.inr ⟨before, terminal, reached, net⟩⟩
  · intro found
    obtain ⟨bit, member, inCone⟩ := found
    exact inCone.mono (fun start inSingle => List.mem_singleton.mp inSingle ▸ member)

section Exact
variable {starts : List Nat} {root : NodeKey} {members : NodeKey → Prop} {depends : NodeKey → NodeKey → Prop}
  {data : ConeData}

theorem Exact.hasKind (exact_ : Exact dnl starts root members depends data) (key : NodeKey) (kind : NodeKind) :
    data.HasKind key kind ↔ members key ∧ kind = coneKind dnl starts key := by
  rw [← exact_.nodes key]
  constructor
  · intro found
    obtain ⟨i, there, is⟩ := found
    exact ⟨⟨i, there⟩, Option.some.inj (is.symm.trans (exact_.kinds i key there))⟩
  · intro found
    obtain ⟨⟨i, there⟩, same⟩ := found
    exact ⟨i, there, same ▸ exact_.kinds i key there⟩

theorem Exact.hasLeaf (exact_ : Exact dnl starts root members depends data) (key : NodeKey) :
    data.HasLeaf key ↔ members key ∧ isLeaf (coneKind dnl starts key) = true := by
  rw [← exact_.nodes key]
  constructor
  · intro found
    obtain ⟨i, listed, there⟩ := found
    obtain ⟨kind, is, leaf⟩ := (exact_.leaves i).mp listed
    rw [exact_.kinds i key there] at is
    cases is
    exact ⟨⟨i, there⟩, leaf⟩
  · intro found
    obtain ⟨⟨i, there⟩, leaf⟩ := found
    exact ⟨i, (exact_.leaves i).mpr ⟨_, exact_.kinds i key there, leaf⟩, there⟩

end Exact

/-- A node that is no bit has the kind that it has for one bit. -/
theorem coneKind_single (bits : List Nat) (bit : Nat) (member : bit ∈ bits) (key : NodeKey)
    (other : ∀ bit ∈ bits, key ≠ .Terminal bit) : coneKind dnl bits key = coneKind dnl [bit] key := by
  cases key with
  | BusRoot => rfl
  | Instance inst => rfl
  | Terminal terminal =>
      have apart : terminal ∉ bits := fun inBits => other terminal inBits rfl
      have single : terminal ∉ [bit] := fun inSingle => apart (List.mem_singleton.mp inSingle ▸ member)
      simp only [coneKind, if_neg apart, if_neg single]

theorem unionOf_exact (bits : List Nat) (data : ConeData) (exact_ : Exact dnl bits .BusRoot
      (fun key => key = .BusRoot ∨ InCone dnl direction bits key) (BusDepends dnl direction bits) data)
    (cones : Nat → ConeData) (each : ∀ bit ∈ bits, Exact dnl [bit] (.Terminal bit) (InCone dnl direction [bit])
      (Depends dnl direction [bit]) (cones bit)) : UnionOf bits cones data := by
  constructor
  · intro key
    rw [exact_.nodes key, inCone_iff]
    apply or_congr_right
    constructor
    · intro found
      obtain ⟨bit, member, inCone⟩ := found
      exact ⟨bit, member, ((each bit member).nodes key).mpr inCone⟩
    · intro found
      obtain ⟨bit, member, there⟩ := found
      exact ⟨bit, member, ((each bit member).nodes key).mp there⟩
  · intro key kind
    rw [exact_.hasKind key kind]
    constructor
    · intro found
      obtain ⟨inside, rfl⟩ := found
      rcases inside with rfl | inCone
      · exact Or.inl ⟨rfl, Or.inl rfl⟩
      · by_cases isBit : ∃ bit ∈ bits, key = .Terminal bit
        · obtain ⟨bit, member, rfl⟩ := isBit
          exact Or.inl ⟨if_pos member, Or.inr ⟨bit, member, rfl⟩⟩
        · have other : ∀ bit ∈ bits, key ≠ .Terminal bit := fun bit member same => isBit ⟨bit, member, same⟩
          obtain ⟨bit, member, single⟩ := (inCone_iff bits key).mp inCone
          exact Or.inr ⟨other, bit, member,
            ((each bit member).hasKind key _).mpr ⟨single, coneKind_single bits bit member key other⟩⟩
    · intro found
      rcases found with ⟨rfl, rfl | ⟨bit, member, rfl⟩⟩ | ⟨other, bit, member, single⟩
      · exact ⟨Or.inl rfl, rfl⟩
      · exact ⟨Or.inr (Or.inl ⟨bit, member, rfl⟩), (if_pos member).symm⟩
      · obtain ⟨inCone, same⟩ := ((each bit member).hasKind key kind).mp single
        exact ⟨Or.inr ((inCone_iff bits key).mpr ⟨bit, member, inCone⟩),
          same.trans (coneKind_single bits bit member key other).symm⟩
  · intro key
    rw [exact_.hasLeaf key]
    constructor
    · intro found
      obtain ⟨inside, leaf⟩ := found
      have other : ∀ bit ∈ bits, key ≠ .Terminal bit := by
        intro bit member same
        rw [same, coneKind, if_pos member] at leaf
        cases leaf
      rcases inside with rfl | inCone
      · cases leaf
      · obtain ⟨bit, member, single⟩ := (inCone_iff bits key).mp inCone
        exact ⟨other, bit, member,
          ((each bit member).hasLeaf key).mpr ⟨single, coneKind_single bits bit member key other ▸ leaf⟩⟩
    · intro found
      obtain ⟨other, bit, member, single⟩ := found
      obtain ⟨inCone, leaf⟩ := ((each bit member).hasLeaf key).mp single
      exact ⟨Or.inr ((inCone_iff bits key).mpr ⟨bit, member, inCone⟩),
        (coneKind_single bits bit member key other).symm ▸ leaf⟩

variable (dnl direction)

/-- The cone of a pin is what it reaches. The cone of a bus is the union of those of its bits, for any spread
of the bits over the workers and any order of merging. -/
theorem logicCone_exact :
    (∀ start, ∃ rounds, ∀ fuel ≥ rounds, ∃ data, extractSingleBitCone dnl direction fuel start = some data ∧
      Exact dnl [start] (.Terminal start) (InCone dnl direction [start]) (Depends dnl direction [start]) data) ∧
    ∀ (bits : List Nat) (workers : List (List Nat)), bits ≠ [] → workers.flatten.Perm bits →
      ∃ rounds, ∀ fuel ≥ rounds, ∃ data, extractBusCone dnl direction fuel workers = some data ∧
        Exact dnl bits .BusRoot (fun key => key = .BusRoot ∨ InCone dnl direction bits key)
          (BusDepends dnl direction bits) data ∧
        ∀ cones : Nat → ConeData, (∀ bit ∈ bits, extractSingleBitCone dnl direction fuel bit = some (cones bit)) →
          UnionOf bits cones data := by
  constructor
  · exact fun start => ⟨enough dnl direction, fun fuel suffices_ =>
      extractSingleBitCone_exact dnl direction start fuel suffices_⟩
  · intro bits workers some_ spread
    refine ⟨enough dnl direction, fun fuel suffices_ => ?_⟩
    obtain ⟨data, ran, exact_⟩ := extractBusCone_exact bits some_ workers spread fuel suffices_
    refine ⟨data, ran, exact_, ?_⟩
    intro cones single
    apply unionOf_exact bits data exact_ cones
    intro bit member
    obtain ⟨cone, found, spec⟩ := extractSingleBitCone_exact dnl direction bit fuel suffices_
    rw [single bit member] at found
    cases found
    exact spec

/-! ### Two bits on one net -/

/-- An input bus of two bits that are on one net. -/
def sharedNet : DNLFull where
  snlBitTerm := fun term => ⟨.SNLBusTermBit 0 term, .Input, [], [], []⟩
  terms := [⟨0, 0, true, some 0, [], []⟩, ⟨0, 1, true, some 0, [], []⟩]
  instances := [⟨some (0, 1), false, false⟩]
  leaves := []
  isos := [⟨[0, 1], []⟩]
  indexes_lt := by
    intro inst member first second indexes
    rw [List.mem_singleton.mp member] at indexes
    cases indexes
    decide
  port_drivers := by decide
  port_readers := by decide

theorem sharedNet_union :
    ∃ rounds, ∀ fuel ≥ rounds, ∃ data, extractBusCone sharedNet .FanIn fuel [[1], [0]] = some data ∧
      Exact sharedNet [0, 1] .BusRoot (fun key => key = .BusRoot ∨ InCone sharedNet .FanIn [0, 1] key)
        (BusDepends sharedNet .FanIn [0, 1]) data ∧
      ∀ cones : Nat → ConeData, (∀ bit ∈ [0, 1], extractSingleBitCone sharedNet .FanIn fuel bit = some (cones bit)) →
        UnionOf [0, 1] cones data :=
  (logicCone_exact sharedNet .FanIn).2 [0, 1] [[1], [0]] (by decide) (by decide)

/-- The second bit is a leaf of the cone of the first one, and no leaf of the cone of the bus. -/
theorem leaves_not_union :
    ¬ ∀ (dnl : DNLFull) (direction : Direction) (bits : List Nat) (workers : List (List Nat)) (fuel : Nat)
        (data : ConeData) (cones : Nat → ConeData), workers.flatten.Perm bits →
        extractBusCone dnl direction fuel workers = some data →
        (∀ bit ∈ bits, extractSingleBitCone dnl direction fuel bit = some (cones bit)) →
        ∀ key, data.HasLeaf key ↔ ∃ bit ∈ bits, (cones bit).HasLeaf key := by
  intro claim
  have bus : extractBusCone sharedNet .FanIn 5 [[0, 1]] = some
      ⟨[⟨.BusRoot, .Root, [1, 2], []⟩, ⟨.Terminal 0, .Root, [2], [0]⟩, ⟨.Terminal 1, .Root, [], [1, 0]⟩],
        0, [], [], [], []⟩ := by decide
  have first : extractSingleBitCone sharedNet .FanIn 5 0 = some
      ⟨[⟨.Terminal 0, .Root, [1], []⟩, ⟨.Terminal 1, .Ports, [], [0]⟩], 0, [1], [], [], []⟩ := by decide
  have second : extractSingleBitCone sharedNet .FanIn 5 1 = some
      ⟨[⟨.Terminal 1, .Root, [1], []⟩, ⟨.Terminal 0, .Ports, [], [0]⟩], 0, [1], [], [], []⟩ := by decide
  have leaf := (claim sharedNet .FanIn [0, 1] [[0, 1]] 5 _ (fun bit => if bit = 0
      then ⟨[⟨.Terminal 0, .Root, [1], []⟩, ⟨.Terminal 1, .Ports, [], [0]⟩], 0, [1], [], [], []⟩
      else ⟨[⟨.Terminal 1, .Root, [1], []⟩, ⟨.Terminal 0, .Ports, [], [0]⟩], 0, [1], [], [], []⟩)
    (List.Perm.refl [0, 1]) bus (by
      intro bit member
      rcases List.mem_cons.mp member with rfl | member
      · exact first
      · rw [List.mem_singleton.mp member]
        exact second) (.Terminal 1)).mpr ⟨0, List.mem_cons_self, 1, List.mem_cons_self, rfl⟩
  obtain ⟨i, member, -⟩ := leaf
  nomatch member

end Cones

end Naja.Metrics.LogicCone
