import Naja.Metrics.LogicConeData

/-! What is reached from the starts by nets and arcs in turn, and the invariant of the
extraction: the nodes and edges made so far are among those, and every terminal that was
reached has been dealt with or is in the queue. -/

namespace Naja.Metrics.LogicCone
open Worklist (remaining)

section Reached
variable (dnl : DNLFull) (direction : Direction)

/-- The node of a terminal: the port itself, or the instance. -/
def nodeOf (terminal : Nat) : NodeKey :=
  if dnl.isTopPort terminal then .Terminal terminal
  else .Instance (dnl.getDNLTerminalFromID terminal).instanceID

/-- The terminal is one of a cell that is neither sequential nor unmodelled. -/
def Passes (terminal : Nat) : Prop :=
  dnl.isTopPort terminal = false ∧ getNodeKind dnl (dnl.getDNLTerminalFromID terminal).instanceID = .Internal

/-- A terminal from which the next net is followed, and the node it belongs to. -/
inductive Reached (starts : List Nat) : NodeKey → Nat → Prop
  | start (terminal : Nat) (member : terminal ∈ starts) : Reached starts (.Terminal terminal) terminal
  | cross (key : NodeKey) (terminal entered left : Nat) (before : Reached starts key terminal)
      (net : entered ∈ terminals dnl direction terminal) (passes : Passes dnl entered)
      (arc : left ∈ crossed dnl direction entered) :
      Reached starts (.Instance (dnl.getDNLTerminalFromID entered).instanceID) left

/-- A net leads from one node to the other. -/
def Depends (starts : List Nat) (key other : NodeKey) : Prop :=
  ∃ terminal, Reached dnl direction starts key terminal ∧
    ∃ entered ∈ terminals dnl direction terminal, other = nodeOf dnl entered

def InCone (starts : List Nat) (key : NodeKey) : Prop :=
  (∃ start ∈ starts, key = .Terminal start) ∨ ∃ before, Depends dnl direction starts before key

def coneKind (starts : List Nat) : NodeKey → NodeKind
  | .BusRoot => .Root
  | .Instance inst => getNodeKind dnl inst
  | .Terminal terminal => if terminal ∈ starts then .Root else .Ports

theorem getNodeKind_ne_root (inst : Nat) : getNodeKind dnl inst ≠ .Root := by
  unfold getNodeKind
  split
  · split
    · decide
    · split
      · decide
      · decide
  · decide

theorem port_driver (terminal port : Nat) (member : port ∈ dnl.getDrivers terminal) (top : dnl.isTopPort port = true) :
    (dnl.getSnlBitTerm port).direction ≠ .Output := by
  unfold DNLFull.getDrivers at member
  cases found : dnl.getIso terminal with
  | none =>
      rw [found] at member
      nomatch member
  | some iso =>
      rw [found] at member
      obtain ⟨there, at_, allowed⟩ := (Option.any_eq_true _ _).mp
        (dnl.port_drivers iso (dnl.getIso_mem terminal iso found) port member)
      unfold DNLFull.isTopPort DNLFull.getDNLTerminalFromID at top
      unfold DNLFull.getSnlBitTerm DNLFull.getDNLTerminalFromID
      rw [at_, Option.getD_some] at top ⊢
      simpa [top] using allowed

theorem port_reader (terminal port : Nat) (member : port ∈ dnl.getReaders terminal) (top : dnl.isTopPort port = true) :
    (dnl.getSnlBitTerm port).direction = .Output := by
  unfold DNLFull.getReaders at member
  cases found : dnl.getIso terminal with
  | none =>
      rw [found] at member
      nomatch member
  | some iso =>
      rw [found] at member
      obtain ⟨there, at_, allowed⟩ := (Option.any_eq_true _ _).mp
        (dnl.port_readers iso (dnl.getIso_mem terminal iso found) port member)
      unfold DNLFull.isTopPort DNLFull.getDNLTerminalFromID at top
      unfold DNLFull.getSnlBitTerm DNLFull.getDNLTerminalFromID
      rw [at_, Option.getD_some] at top ⊢
      simpa [top] using allowed

/-- Under the top the second pass over an iso finds no port. -/
theorem localBoundary_nil (terminal : Nat) :
    (localBoundaryTerminals dnl direction terminal).filter (isBoundaryPortForDirection dnl direction) = [] := by
  apply List.filter_eq_nil_iff.mpr
  intro port member boundary
  obtain ⟨top, same⟩ := Bool.and_eq_true_iff.mp boundary
  have same := beq_iff_eq.mp same
  cases direction with
  | FanIn =>
      have output := port_reader dnl terminal port member top
      rw [same] at output
      nomatch output
  | FanOut => exact port_driver dnl terminal port member top same

end Reached

/-! ### The invariant -/

/-- Nothing is taken away. -/
structure Grows (data data' : ConeData) : Prop where
  keys : ∀ i key, data.keyAt i = some key → data'.keyAt i = some key
  edges : ∀ i j, data.Next i j → data'.Next i j
  expandedTerms : ∀ terminal ∈ data.expandedTerms, terminal ∈ data'.expandedTerms

theorem Grows.refl (data : ConeData) : Grows data data := ⟨fun _ _ h => h, fun _ _ h => h, fun _ h => h⟩

theorem Grows.trans {first second third : ConeData} (front : Grows first second) (back : Grows second third) :
    Grows first third :=
  ⟨fun i key h => back.keys i key (front.keys i key h), fun i j h => back.edges i j (front.edges i j h),
    fun terminal h => back.expandedTerms terminal (front.expandedTerms terminal h)⟩

section Invariant
variable (dnl : DNLFull) (direction : Direction) (bits : List Nat)

def NoLoop : Prop := ∀ key, ¬ Relation.TransGen (Depends dnl direction bits) key key

/-- The node of a terminal on the net is there, with the edge to it unless there are loops,
and it is gone through where that is possible. -/
def Settled (data : ConeData) (key : NodeKey) (entered : Nat) : Prop :=
  (∃ j, data.keyAt j = some (nodeOf dnl entered)) ∧
  (NoLoop dnl direction bits → ∃ i j, data.keyAt i = some key ∧ data.keyAt j = some (nodeOf dnl entered) ∧ data.Next i j) ∧
  (Passes dnl entered → entered ∈ data.expandedTerms)

/-- A terminal is being dealt with, is in the queue, or has been dealt with. -/
def Covered (todo : NodeKey → Nat → Prop) (data : ConeData) (key : NodeKey) (terminal : Nat) : Prop :=
  todo key terminal ∨ (∃ p, data.keyAt p = some key ∧ (p, terminal) ∈ data.queue) ∨
    ∀ entered ∈ terminals dnl direction terminal, Settled dnl direction bits data key entered

/-- `started` are the starts whose extraction has begun, out of all `bits`. -/
structure Inv (started : List Nat) (todo : NodeKey → Nat → Prop) (data : ConeData) : Prop where
  sound : data.Sound
  nodes : ∀ i key, data.keyAt i = some key → InCone dnl direction bits key
  kinds : ∀ i key, data.keyAt i = some key → data.kindAt i = some (coneKind dnl started key)
  edges : ∀ i j, data.Next i j → ∃ key other, data.keyAt i = some key ∧ data.keyAt j = some other ∧
    Depends dnl direction bits key other
  queued : ∀ p terminal, (p, terminal) ∈ data.queue →
    ∃ key, data.keyAt p = some key ∧ Reached dnl direction bits key terminal
  grounded : ∀ j key, data.keyAt j = some key →
    (∃ start ∈ started, key = .Terminal start) ∨ ∃ i < j, data.Next i j
  starts : ∀ start ∈ started, (∃ i, data.keyAt i = some (.Terminal start)) ∧
    Covered dnl direction bits todo data (.Terminal start) start
  arcs : ∀ entered ∈ data.expandedTerms, Passes dnl entered → ∀ left ∈ crossed dnl direction entered,
    Covered dnl direction bits todo data (.Instance (dnl.getDNLTerminalFromID entered).instanceID) left

variable {dnl direction bits}

theorem Settled.mono {data data' : ConeData} {key : NodeKey} {entered : Nat} (grows : Grows data data')
    (settled : Settled dnl direction bits data key entered) : Settled dnl direction bits data' key entered := by
  obtain ⟨⟨j, there⟩, edge, expanded⟩ := settled
  refine ⟨⟨j, grows.keys j _ there⟩, ?_, fun passes => grows.expandedTerms entered (expanded passes)⟩
  intro noLoop
  obtain ⟨i, j, left, right, next⟩ := edge noLoop
  exact ⟨i, j, grows.keys i _ left, grows.keys j _ right, grows.edges i j next⟩

theorem Covered.mono {todo : NodeKey → Nat → Prop} {data data' : ConeData} {key : NodeKey} {terminal : Nat}
    (grows : Grows data data') (queue : ∀ entry ∈ data.queue, entry ∈ data'.queue)
    (covered : Covered dnl direction bits todo data key terminal) :
    Covered dnl direction bits todo data' key terminal := by
  rcases covered with now | ⟨p, there, later⟩ | done
  · exact Or.inl now
  · exact Or.inr (Or.inl ⟨p, grows.keys p key there, queue _ later⟩)
  · exact Or.inr (Or.inr (fun entered member => (done entered member).mono grows))

/-- A path between nodes is a path between their keys. -/
theorem keys_of_path (data : ConeData) (R : NodeKey → NodeKey → Prop) (edges : ∀ i j, data.Next i j →
      ∃ key other, data.keyAt i = some key ∧ data.keyAt j = some other ∧ R key other) (i j : Nat) (key other : NodeKey)
    (path : Relation.ReflTransGen data.Next i j) (left : data.keyAt i = some key) (right : data.keyAt j = some other) :
    Relation.ReflTransGen R key other := by
  induction path using Relation.ReflTransGen.head_induction_on generalizing key with
  | refl => exact Option.some.inj (left.symm.trans right) ▸ Relation.ReflTransGen.refl
  | head edge path ih =>
      obtain ⟨source, target, atSource, atTarget, depends⟩ := edges _ _ edge
      rw [left] at atSource
      cases atSource
      exact Relation.ReflTransGen.head depends (ih target atTarget)

/-- A node and the edge to it. -/
theorem Inv.link {started : List Nat} {todo : NodeKey → Nat → Prop} {data : ConeData}
    (inv : Inv dnl direction bits started todo data) (p : Nat) (key other : NodeKey) (kind : NodeKind)
    (parent : data.keyAt p = some key) (depends : Depends dnl direction bits key other)
    (same : (∀ i, data.keyAt i ≠ some other) → kind = coneKind dnl started other) (notRoot : kind ≠ .Root)
    (made : ConeData × Nat) (eq : data.getOrCreate other kind = made) :
    Inv dnl direction bits started todo (made.1.addEdge p made.2) ∧ Grows data (made.1.addEdge p made.2) ∧
      (made.1.addEdge p made.2).keyAt made.2 = some other ∧
      (NoLoop dnl direction bits → (made.1.addEdge p made.2).Next p made.2) ∧
      (made.1.addEdge p made.2).queue = data.queue ∧ (made.1.addEdge p made.2).expandedTerms = data.expandedTerms ∧
      (made.1.addEdge p made.2).root = data.root ∧ (made.1.addEdge p made.2).bitRoots = data.bitRoots := by
  have created := data.getOrCreate_spec other kind
  rw [eq] at created
  have relation : made.1.Next = data.Next := by
    funext i j
    exact congrArg (fun next => j ∈ next i) created.next
  have parent' := created.keeps p key parent
  obtain ⟨sound, keys, kinds, keeps, only, linked, expanded, queue, root, bitRoots⟩ :=
    made.1.addEdge_spec (created.sound inv.sound) p made.2 (by rw [parent']; rfl) (by rw [created.here]; rfl)
  rw [relation] at keeps only linked
  have grows : Grows data (made.1.addEdge p made.2) :=
    ⟨fun i found there => keys ▸ created.keeps i found there, keeps,
      fun terminal member => by rw [expanded, created.expandedTerms]; exact member⟩
  have covers {entry : NodeKey} {terminal : Nat} (covered : Covered dnl direction bits todo data entry terminal) :
      Covered dnl direction bits todo (made.1.addEdge p made.2) entry terminal :=
    covered.mono grows (fun found member => by rw [queue, created.queue]; exact member)
  refine ⟨?_, grows, by rw [keys]; exact created.here, ?_, queue.trans created.queue,
    expanded.trans created.expandedTerms, root.trans created.root, bitRoots.trans created.bitRoots⟩
  · constructor
    · exact sound
    · intro i found there
      rw [keys] at there
      rcases created.only i found there with old | ⟨-, rfl⟩
      · exact inv.nodes i found old
      · exact Or.inr ⟨key, depends⟩
    · intro i found there
      rw [keys] at there
      rw [kinds]
      by_cases here : i = made.2
      · have is : found = other := Option.some.inj (there.symm.trans (here ▸ created.here))
        rw [here, is, created.kind, if_neg notRoot]
        cases before : data.keyAt made.2 with
        | none =>
            have noKind : data.kindAt made.2 = none := by
              rw [← Option.not_isSome_iff_eq_none, data.kindAt_isSome, before]
              nofun
            rw [noKind, Option.getD_none, same (created.fresh before).2]
        | some already =>
            have was : already = other := Option.some.inj ((created.keeps _ _ before).symm.trans created.here)
            rw [inv.kinds _ _ before, Option.getD_some, was]
      · rw [created.kinds i here]
        rcases created.only i found there with old | ⟨now, -⟩
        · exact inv.kinds i found old
        · exact absurd now here
    · intro i j edge
      rw [keys]
      rcases only i j edge with old | ⟨rfl, rfl⟩
      · obtain ⟨source, target, left, right, dep⟩ := inv.edges i j old
        exact ⟨source, target, created.keeps i _ left, created.keeps j _ right, dep⟩
      · exact ⟨key, other, parent', created.here, depends⟩
    · intro q terminal member
      rw [queue, created.queue] at member
      obtain ⟨found, there, reached⟩ := inv.queued q terminal member
      exact ⟨found, grows.keys q found there, reached⟩
    · intro j found there
      rw [keys] at there
      cases before : data.keyAt j with
      | some already =>
          have was : already = found := Option.some.inj ((created.keeps _ _ before).symm.trans there)
          rcases inv.grounded j already before with start | ⟨i, less, edge⟩
          · exact Or.inl (was ▸ start)
          · exact Or.inr ⟨i, less, keeps i j edge⟩
      | none =>
          rcases created.only j found there with old | ⟨here, -⟩
          · rw [before] at old
            nomatch old
          · rw [here] at before
            have below : p < made.2 := by
              rw [(created.fresh before).1]
              exact (data.keyAt_isSome p).mp (by rw [parent]; rfl)
            -- nothing leads on from a node that is new, so that its first edge closes no cycle
            rcases linked with edge | path
            · exact Or.inr ⟨p, here ▸ below, here ▸ edge⟩
            · rcases Relation.ReflTransGen.cases_head path with equal | ⟨next, edge, -⟩
              · omega
              · unfold ConeData.Next at edge
                rw [data.nextOf_eq_nil made.2 before] at edge
                nomatch edge
    · intro start member
      obtain ⟨⟨i, there⟩, covered⟩ := inv.starts start member
      exact ⟨⟨i, grows.keys i _ there⟩, covers covered⟩
    · intro entered member passes left arc
      rw [expanded, created.expandedTerms] at member
      exact covers (inv.arcs entered member passes left arc)
  · intro noLoop
    rcases linked with edge | path
    · exact edge
    · exfalso
      rcases Relation.ReflTransGen.cases_head path with equal | ⟨next, edge, rest⟩
      · have known := created.here
        rw [equal, parent'] at known
        cases known
        exact noLoop key (Relation.TransGen.single depends)
      · obtain ⟨source, target, atSource, -, -⟩ := inv.edges _ _ edge
        have is : source = other := Option.some.inj ((created.keeps _ _ atSource).symm.trans created.here)
        have back := keys_of_path data _ inv.edges made.2 p other key path (is ▸ atSource) parent
        exact noLoop key (Relation.TransGen.head' depends back)

/-! ### One terminal -/

/-- The terminals that a net can lead to. -/
def netTerminals (dnl : DNLFull) : List Nat := dnl.isos.flatMap (fun iso => iso.drivers ++ iso.readers)

theorem mem_netTerminals (terminal entered : Nat) (member : entered ∈ terminals dnl direction terminal) :
    entered ∈ netTerminals dnl := by
  unfold terminals DNLFull.getDrivers DNLFull.getReaders at member
  cases found : dnl.getIso terminal with
  | none => cases direction <;> (rw [found] at member; simp at member)
  | some iso =>
      refine List.mem_flatMap.mpr ⟨iso, dnl.getIso_mem terminal iso found, ?_⟩
      cases direction with
      | FanIn =>
          rw [found] at member
          exact List.mem_append_left _ member
      | FanOut =>
          rw [found] at member
          exact List.mem_append_right _ member

/-- What the queue and the terminals not yet gone through can still cost. -/
def measure (dnl : DNLFull) (direction : Direction) (data : ConeData) : Nat :=
  data.queue.length + remaining (fun terminal => (crossed dnl direction terminal).length) (netTerminals dnl)
    data.expandedTerms

/-- What adding a terminal does to the data. -/
structure Added (dnl : DNLFull) (direction : Direction) (bits started : List Nat) (todo : NodeKey → Nat → Prop)
    (data data' : ConeData) : Prop where
  inv : Inv dnl direction bits started todo data'
  grows : Grows data data'
  queue : ∀ entry ∈ data.queue, entry ∈ data'.queue
  measure : measure dnl direction data' ≤ measure dnl direction data
  root : data'.root = data.root
  bitRoots : data'.bitRoots = data.bitRoots

theorem Inv.addTerminal {started : List Nat} {todo : NodeKey → Nat → Prop} {data : ConeData}
    (inv : Inv dnl direction bits started todo data) (p : Nat) (key : NodeKey) (terminal entered : Nat)
    (parent : data.keyAt p = some key) (reached : Reached dnl direction bits key terminal)
    (net : entered ∈ terminals dnl direction terminal) :
    Added dnl direction bits started todo data (addTerminal dnl direction p data entered) ∧
      Settled dnl direction bits (addTerminal dnl direction p data entered) key entered := by
  have depends : Depends dnl direction bits key (nodeOf dnl entered) := ⟨terminal, reached, entered, net, rfl⟩
  unfold LogicCone.addTerminal
  by_cases top : dnl.isTopPort entered = true
  · rw [if_pos top]
    have node : nodeOf dnl entered = .Terminal entered := if_pos top
    rw [node] at depends
    have kind : (∀ i, data.keyAt i ≠ some (.Terminal entered)) → NodeKind.Ports = coneKind dnl started (.Terminal entered) := by
      intro absent
      have other : entered ∉ started := by
        intro member
        obtain ⟨⟨i, there⟩, -⟩ := inv.starts entered member
        exact absent i there
      exact (if_neg other).symm
    obtain ⟨linked, grows, here, edge, queue, expanded, root, bitRoots⟩ :=
      inv.link p key _ .Ports parent depends kind (by decide) _ rfl
    refine ⟨⟨linked, grows, fun entry member => by rw [queue]; exact member, ?_, root, bitRoots⟩, ?_, ?_, ?_⟩
    · unfold measure
      rw [queue, expanded]
    · rw [node]
      exact ⟨_, here⟩
    · intro noLoop
      rw [node]
      exact ⟨p, _, grows.keys p key parent, here, edge noLoop⟩
    · exact fun passes => absurd (top.symm.trans passes.1) (by decide)
  · rw [if_neg top]
    have node : nodeOf dnl entered = .Instance (dnl.getDNLTerminalFromID entered).instanceID := if_neg top
    rw [node] at depends
    obtain ⟨linked, grows, here, edge, queue, expanded, root, bitRoots⟩ :=
      inv.link p key _ (getNodeKind dnl (dnl.getDNLTerminalFromID entered).instanceID) parent depends
        (fun _ => rfl) (getNodeKind_ne_root dnl _) _ rfl
    simp only
    generalize made : data.getOrCreate (.Instance (dnl.getDNLTerminalFromID entered).instanceID)
      (getNodeKind dnl (dnl.getDNLTerminalFromID entered).instanceID) = created at linked grows here edge queue expanded root bitRoots ⊢
    obtain ⟨added, childID⟩ := created
    simp only at linked grows here edge queue expanded root bitRoots ⊢
    have settledEdge : NoLoop dnl direction bits → ∃ i j, (added.addEdge p childID).keyAt i = some key ∧
        (added.addEdge p childID).keyAt j = some (nodeOf dnl entered) ∧ (added.addEdge p childID).Next i j :=
      fun noLoop => ⟨p, childID, grows.keys p key parent, node ▸ here, edge noLoop⟩
    have unchanged : Added dnl direction bits started todo data (added.addEdge p childID) := by
      refine ⟨linked, grows, fun entry member => by rw [queue]; exact member, ?_, root, bitRoots⟩
      unfold measure
      rw [queue, expanded]
    unfold expandThroughInstance
    by_cases internal : getNodeKind dnl (dnl.getDNLTerminalFromID entered).instanceID = .Internal
    · rw [if_neg (not_not_intro internal)]
      by_cases known : entered ∈ (added.addEdge p childID).expandedTerms
      · rw [if_pos known]
        exact ⟨unchanged, ⟨childID, node ▸ here⟩, settledEdge, fun _ => known⟩
      · rw [if_neg known]
        have passes : Passes dnl entered := ⟨Bool.eq_false_iff.mpr top, internal⟩
        have grows' : Grows (added.addEdge p childID) { added.addEdge p childID with
            expandedTerms := entered :: (added.addEdge p childID).expandedTerms
            queue := (added.addEdge p childID).queue ++
              (crossed dnl direction entered).map (fun next => (childID, next)) } :=
          ⟨fun _ _ there => there, fun _ _ next => next, fun other member => List.mem_cons_of_mem entered member⟩
        refine ⟨⟨?_, grows.trans grows', ?_, ?_, root, bitRoots⟩, ⟨childID, node ▸ here⟩, settledEdge,
          fun _ => List.mem_cons_self⟩
        · constructor
          · exact ⟨linked.sound.distinct, linked.sound.inRange, linked.sound.converse, linked.sound.acyclic,
              linked.sound.leaves_nodup, linked.sound.leaves⟩
          · exact linked.nodes
          · exact linked.kinds
          · exact linked.edges
          · intro q other member
            rcases List.mem_append.mp member with old | new
            · exact linked.queued q other old
            · obtain ⟨left, arc, same⟩ := List.mem_map.mp new
              cases same
              exact ⟨_, here, Reached.cross key terminal entered other reached net passes arc⟩
          · exact linked.grounded
          · intro start member
            obtain ⟨there, covered⟩ := linked.starts start member
            exact ⟨there, covered.mono grows' (fun entry inQueue => List.mem_append_left _ inQueue)⟩
          · intro other member otherPasses left arc
            rcases List.mem_cons.mp member with rfl | old
            · exact Or.inr (Or.inl ⟨childID, here, List.mem_append_right _ (List.mem_map_of_mem arc)⟩)
            · exact (linked.arcs other old otherPasses left arc).mono grows'
                (fun entry inQueue => List.mem_append_left _ inQueue)
        · intro entry member
          exact List.mem_append_left _ (queue ▸ member)
        · have spent := Worklist.remaining_cons (fun terminal => (crossed dnl direction terminal).length)
            (netTerminals dnl) (added.addEdge p childID).expandedTerms entered (mem_netTerminals terminal entered net) known
          unfold measure
          simp only [List.length_append, List.length_map]
          rw [queue]
          rw [expanded] at spent ⊢
          omega
    · rw [if_pos internal]
      exact ⟨unchanged, ⟨childID, node ▸ here⟩, settledEdge, fun passes => absurd passes.2 internal⟩

theorem Added.refl {started : List Nat} {todo : NodeKey → Nat → Prop} {data : ConeData}
    (inv : Inv dnl direction bits started todo data) : Added dnl direction bits started todo data data :=
  ⟨inv, Grows.refl data, fun _ member => member, Nat.le_refl _, rfl, rfl⟩

theorem Added.trans {started : List Nat} {todo : NodeKey → Nat → Prop} {first second third : ConeData}
    (front : Added dnl direction bits started todo first second)
    (back : Added dnl direction bits started todo second third) : Added dnl direction bits started todo first third :=
  ⟨back.inv, front.grows.trans back.grows, fun entry member => back.queue entry (front.queue entry member),
    Nat.le_trans back.measure front.measure, back.root.trans front.root, back.bitRoots.trans front.bitRoots⟩

theorem Inv.addTerminals {started : List Nat} {todo : NodeKey → Nat → Prop} (p : Nat) (key : NodeKey) (terminal : Nat)
    (reached : Reached dnl direction bits key terminal) (net : List Nat)
    (within : ∀ entered ∈ net, entered ∈ terminals dnl direction terminal) (data : ConeData)
    (inv : Inv dnl direction bits started todo data) (parent : data.keyAt p = some key) :
    Added dnl direction bits started todo data (net.foldl (LogicCone.addTerminal dnl direction p) data) ∧
      ∀ entered ∈ net, Settled dnl direction bits (net.foldl (LogicCone.addTerminal dnl direction p) data) key entered := by
  induction net generalizing data with
  | nil => exact ⟨Added.refl inv, fun entered member => nomatch member⟩
  | cons head rest ih =>
      obtain ⟨first, settled⟩ := inv.addTerminal p key terminal head parent reached (within head List.mem_cons_self)
      obtain ⟨later, all⟩ := ih (fun entered member => within entered (List.mem_cons_of_mem _ member)) _ first.inv
        (first.grows.keys p key parent)
      refine ⟨first.trans later, ?_⟩
      intro entered member
      rcases List.mem_cons.mp member with rfl | inRest
      · exact settled.mono later.grows
      · exact all entered inRest

/-! ### One start -/

/-- Nothing is being dealt with. -/
def Idle : NodeKey → Nat → Prop := fun _ _ => False

theorem Inv.step {started : List Nat} {data data' : ConeData} (inv : Inv dnl direction bits started Idle data)
    (stepped : step dnl direction data = some data') :
    Inv dnl direction bits started Idle data' ∧ measure dnl direction data' < measure dnl direction data ∧
      Grows data data' ∧ data'.root = data.root ∧ data'.bitRoots = data.bitRoots := by
  unfold LogicCone.step at stepped
  split at stepped
  · cases stepped
  · next p terminal rest queue =>
      cases stepped
      obtain ⟨key, parent, reached⟩ := inv.queued p terminal (queue ▸ List.mem_cons_self)
      have taken : Grows data { data with queue := rest } := ⟨fun _ _ h => h, fun _ _ h => h, fun _ h => h⟩
      -- the entry that is taken is no longer in the queue, and not dealt with yet
      have covers {entry : NodeKey} {other : Nat} (covered : Covered dnl direction bits Idle data entry other) :
          Covered dnl direction bits (fun k t => k = key ∧ t = terminal) { data with queue := rest } entry other := by
        rcases covered with now | ⟨q, there, member⟩ | done
        · exact now.elim
        · rw [queue] at member
          rcases List.mem_cons.mp member with same | inRest
          · cases same
            exact Or.inl ⟨Option.some.inj (there.symm.trans parent), rfl⟩
          · exact Or.inr (Or.inl ⟨q, there, inRest⟩)
        · exact Or.inr (Or.inr (fun entered member => (done entered member).mono taken))
      have begun : Inv dnl direction bits started (fun k t => k = key ∧ t = terminal) { data with queue := rest } := by
        constructor
        · exact ⟨inv.sound.distinct, inv.sound.inRange, inv.sound.converse, inv.sound.acyclic, inv.sound.leaves_nodup,
            inv.sound.leaves⟩
        · exact inv.nodes
        · exact inv.kinds
        · exact inv.edges
        · exact fun q other member => inv.queued q other (queue ▸ List.mem_cons_of_mem _ member)
        · exact inv.grounded
        · exact fun start member => ⟨(inv.starts start member).1, covers (inv.starts start member).2⟩
        · exact fun entered member passes left arc => covers (inv.arcs entered member passes left arc)
      unfold extractIso
      rw [localBoundary_nil, List.foldl_nil]
      obtain ⟨added, settled⟩ := Inv.addTerminals p key terminal reached (terminals dnl direction terminal)
        (fun _ member => member) _ begun parent
      have ends {entry : NodeKey} {other : Nat} {data' : ConeData}
          (all : ∀ entered ∈ terminals dnl direction terminal, Settled dnl direction bits data' key entered)
          (covered : Covered dnl direction bits (fun k t => k = key ∧ t = terminal) data' entry other) :
          Covered dnl direction bits Idle data' entry other := by
        rcases covered with ⟨rfl, rfl⟩ | later | done
        · exact Or.inr (Or.inr all)
        · exact Or.inr (Or.inl later)
        · exact Or.inr (Or.inr done)
      refine ⟨?_, ?_, taken.trans added.grows, added.root, added.bitRoots⟩
      · have inv' := added.inv
        exact ⟨inv'.sound, inv'.nodes, inv'.kinds, inv'.edges, inv'.queued, inv'.grounded,
          fun start member => ⟨(inv'.starts start member).1, ends settled (inv'.starts start member).2⟩,
          fun entered member passes left arc => ends settled (inv'.arcs entered member passes left arc)⟩
      · apply Nat.lt_of_le_of_lt added.measure
        unfold measure
        rw [queue, List.length_cons]
        exact Nat.add_lt_add_right (Nat.lt_succ_self _) _

/-- The rounds that are enough for one start, whatever has been extracted before. -/
def enough (dnl : DNLFull) (direction : Direction) : Nat :=
  remaining (fun terminal => (crossed dnl direction terminal).length) (netTerminals dnl) [] + 2

theorem remaining_le (dnl : DNLFull) (direction : Direction) (done : List Nat) :
    remaining (fun terminal => (crossed dnl direction terminal).length) (netTerminals dnl) done ≤
      remaining (fun terminal => (crossed dnl direction terminal).length) (netTerminals dnl) [] := by
  induction done with
  | nil => exact Nat.le_refl _
  | cons head rest ih => exact Nat.le_trans (Worklist.remaining_cons_le _ _ rest head) ih

theorem coneKind_append (started : List Nat) (start : Nat) (key : NodeKey) (other : key ≠ .Terminal start) :
    coneKind dnl (started ++ [start]) key = coneKind dnl started key := by
  cases key with
  | BusRoot => rfl
  | Instance inst => rfl
  | Terminal terminal =>
      have apart : terminal ≠ start := fun same => other (same ▸ rfl)
      simp [coneKind, apart]

/-- The root of the next start. -/
theorem Inv.begin {started : List Nat} {data : ConeData} (inv : Inv dnl direction bits started Idle data)
    (empty : data.queue = []) (start : Nat) (member : start ∈ bits) (made : ConeData × Nat)
    (eq : data.getOrCreate (.Terminal start) .Root = made) :
    Inv dnl direction bits (started ++ [start]) Idle { made.1 with root := made.2, queue := [(made.2, start)] } ∧
      Grows data { made.1 with root := made.2, queue := [(made.2, start)] } := by
  have created := data.getOrCreate_spec (.Terminal start) .Root
  rw [eq] at created
  have sound := created.sound inv.sound
  have relation : made.1.Next = data.Next := by
    funext i j
    exact congrArg (fun next => j ∈ next i) created.next
  have grows : Grows data { made.1 with root := made.2, queue := [(made.2, start)] } :=
    ⟨created.keeps, fun i j edge => by change made.1.Next i j; rw [relation]; exact edge,
      fun terminal old => by change terminal ∈ made.1.expandedTerms; rw [created.expandedTerms]; exact old⟩
  have covers {entry : NodeKey} {other : Nat} (covered : Covered dnl direction bits Idle data entry other) :
      Covered dnl direction bits Idle { made.1 with root := made.2, queue := [(made.2, start)] } entry other := by
    apply covered.mono grows
    intro found inQueue
    rw [empty] at inQueue
    nomatch inQueue
  refine ⟨?_, grows⟩
  constructor
  · exact ⟨sound.distinct, sound.inRange, sound.converse, sound.acyclic, sound.leaves_nodup, sound.leaves⟩
  · intro i key there
    rcases created.only i key there with old | ⟨-, rfl⟩
    · exact inv.nodes i key old
    · exact Or.inl ⟨start, member, rfl⟩
  · intro i key there
    change made.1.kindAt i = _
    by_cases here : i = made.2
    · have is : key = .Terminal start := Option.some.inj (there.symm.trans (here ▸ created.here))
      rw [here, created.kind, is, if_pos rfl]
      simp [coneKind]
    · have old : data.keyAt i = some key := by
        rcases created.only i key there with old | ⟨now, -⟩
        · exact old
        · exact absurd now here
      have apart : key ≠ .Terminal start := by
        intro is
        exact here (sound.distinct i made.2 key there (is ▸ created.here))
      rw [created.kinds i here, inv.kinds i key old, coneKind_append started start key apart]
  · intro i j edge
    change made.1.Next i j at edge
    rw [relation] at edge
    obtain ⟨source, target, left, right, depends⟩ := inv.edges i j edge
    exact ⟨source, target, created.keeps i _ left, created.keeps j _ right, depends⟩
  · intro p terminal inQueue
    cases List.mem_singleton.mp inQueue
    exact ⟨_, created.here, Reached.start start member⟩
  · intro j key there
    rcases created.only j key there with old | ⟨-, rfl⟩
    · rcases inv.grounded j key old with ⟨root, earlier, is⟩ | ⟨i, less, edge⟩
      · exact Or.inl ⟨root, List.mem_append_left _ earlier, is⟩
      · exact Or.inr ⟨i, less, grows.edges i j edge⟩
    · exact Or.inl ⟨start, List.mem_append_right _ (List.mem_singleton_self start), rfl⟩
  · intro other inStarted
    rcases List.mem_append.mp inStarted with earlier | last
    · obtain ⟨⟨i, there⟩, covered⟩ := inv.starts other earlier
      exact ⟨⟨i, created.keeps i _ there⟩, covers covered⟩
    · rw [List.mem_singleton.mp last]
      exact ⟨⟨made.2, created.here⟩, Or.inr (Or.inl ⟨made.2, created.here, List.mem_singleton_self _⟩)⟩
  · intro entered expanded passes left arc
    change entered ∈ made.1.expandedTerms at expanded
    rw [created.expandedTerms] at expanded
    exact covers (inv.arcs entered expanded passes left arc)

/-- Extracting one more start into the data. -/
theorem Inv.extract {started : List Nat} {data : ConeData} (inv : Inv dnl direction bits started Idle data)
    (empty : data.queue = []) (start : Nat) (member : start ∈ bits) (fuel : Nat) (suffices_ : enough dnl direction ≤ fuel) :
    ∃ done root, extract dnl direction fuel data start = some (done, root) ∧
      Inv dnl direction bits (started ++ [start]) Idle done ∧ done.queue = [] ∧ Grows data done ∧
      done.keyAt root = some (.Terminal start) ∧ done.root = root ∧ done.bitRoots = data.bitRoots := by
  have created := data.getOrCreate_spec (.Terminal start) .Root
  unfold LogicCone.extract
  generalize eq : data.getOrCreate (.Terminal start) .Root = made at created
  obtain ⟨begun, grows⟩ := inv.begin empty start member made eq
  obtain ⟨done, ran, kept, ended⟩ := Worklist.whileSome_ends (LogicCone.step dnl direction)
    (fun now => Inv dnl direction bits (started ++ [start]) Idle now ∧ Grows data now ∧
      now.keyAt made.2 = some (.Terminal start) ∧ now.root = made.2 ∧ now.bitRoots = data.bitRoots)
    (measure dnl direction) (by
      intro now next old stepped
      obtain ⟨inv', less, grows', root, bitRoots⟩ := old.1.step stepped
      exact ⟨⟨inv', old.2.1.trans grows', grows'.keys _ _ old.2.2.1, root.trans old.2.2.2.1,
        bitRoots.trans old.2.2.2.2⟩, less⟩)
    fuel { made.1 with root := made.2, queue := [(made.2, start)] }
    ⟨begun, grows, created.here, rfl, created.bitRoots⟩ (by
      have most := remaining_le dnl direction made.1.expandedTerms
      unfold measure
      unfold enough at suffices_
      simp only [List.length_singleton]
      omega)
  refine ⟨done, made.2, ?_, kept.1, ?_, kept.2.1, kept.2.2.1, kept.2.2.2.1, kept.2.2.2.2⟩
  · simp only
    rw [ran]
    rfl
  · unfold LogicCone.step at ended
    split at ended
    · next empty => exact empty
    · nomatch ended

/-! ### What has been extracted -/

/-- When the queue is empty, all that the starts reach has been dealt with. -/
theorem Inv.complete {started : List Nat} {data : ConeData} (inv : Inv dnl direction bits started Idle data)
    (empty : data.queue = []) (key : NodeKey) (terminal : Nat) (reached : Reached dnl direction started key terminal) :
    (∃ i, data.keyAt i = some key) ∧
      ∀ entered ∈ terminals dnl direction terminal, Settled dnl direction bits data key entered := by
  have settled {entry : NodeKey} {other : Nat} (covered : Covered dnl direction bits Idle data entry other) :
      ∀ entered ∈ terminals dnl direction other, Settled dnl direction bits data entry entered := by
    rcases covered with now | ⟨p, -, inQueue⟩ | done
    · exact now.elim
    · rw [empty] at inQueue
      nomatch inQueue
    · exact done
  induction reached with
  | start terminal member =>
      obtain ⟨there, covered⟩ := inv.starts terminal member
      exact ⟨there, settled covered⟩
  | cross key terminal entered left before net passes arc ih =>
      obtain ⟨⟨j, there⟩, -, expanded⟩ := ih.2 entered net
      have node : nodeOf dnl entered = .Instance (dnl.getDNLTerminalFromID entered).instanceID := by
        unfold nodeOf
        rw [passes.1]
        rfl
      exact ⟨⟨j, node ▸ there⟩, settled (inv.arcs entered (expanded passes) passes left arc)⟩

theorem Inv.has_nodes {started : List Nat} {data : ConeData} (inv : Inv dnl direction bits started Idle data)
    (empty : data.queue = []) (key : NodeKey) (inCone : InCone dnl direction started key) :
    ∃ i, data.keyAt i = some key := by
  rcases inCone with ⟨start, member, rfl⟩ | ⟨before, terminal, reached, entered, net, rfl⟩
  · exact (inv.starts start member).1
  · exact ((inv.complete empty before terminal reached).2 entered net).1

theorem Inv.has_edges {started : List Nat} {data : ConeData} (inv : Inv dnl direction bits started Idle data)
    (empty : data.queue = []) (noLoop : NoLoop dnl direction bits) (key other : NodeKey)
    (depends : Depends dnl direction started key other) :
    ∃ i j, data.keyAt i = some key ∧ data.keyAt j = some other ∧ data.Next i j := by
  obtain ⟨terminal, reached, entered, net, rfl⟩ := depends
  exact ((inv.complete empty key terminal reached).2 entered net).2.1 noLoop

theorem inv_empty (dnl : DNLFull) (direction : Direction) (bits : List Nat) :
    Inv dnl direction bits [] Idle .empty := by
  constructor
  · constructor
    · intro i j key there
      cases there
    · intro i j edge
      cases edge
    · intro i j
      constructor <;> intro edge <;> cases edge
    · intro i cycle
      obtain ⟨next, edge, -⟩ := Relation.TransGen.head'_iff.mp cycle
      cases edge
    · exact List.nodup_nil
    · exact fun i => iff_of_false List.not_mem_nil (by simp [ConeData.kindAt, ConeData.empty])
  · intro i key there
    cases there
  · intro i key there
    cases there
  · intro i j edge
    cases edge
  · exact fun p terminal member => absurd member List.not_mem_nil
  · intro j key there
    cases there
  · exact fun start member => absurd member List.not_mem_nil
  · exact fun entered member => absurd member List.not_mem_nil

end Invariant

end Naja.Metrics.LogicCone
