import Naja.TGraph.Graph

/-! What every sequence of calls keeps true of a timing graph: slots and free
lists agree, adjacency lists hold exactly the live edges of their node, and every
live edge has live ends and masks of the current clock count. -/

namespace Naja.TGraph
open Naja.Arena

/-- `lists n` holds exactly the edges whose end is `n`, each once. -/
def Adjacent (lists : Nat → List Nat) (ends : Nat → Option Nat) : Prop :=
  ∀ n, (lists n).Nodup ∧ ∀ e, e ∈ lists n ↔ ends e = some n

theorem Adjacent.insert (lists lists' : Nat → List Nat) (ends ends' : Nat → Option Nat)
    (adjacent : Adjacent lists ends) (e n : Nat) (fresh : ends e = none)
    (added : ∀ m, lists' m = if m = n then lists m ++ [e] else lists m)
    (linked : ∀ e', ends' e' = if e' = e then some n else ends e') : Adjacent lists' ends' := by
  intro m
  obtain ⟨nodup, members⟩ := adjacent m
  have absent : e ∉ lists m := by
    rw [members e, fresh]
    nofun
  rw [added m]
  by_cases here : m = n
  · rw [if_pos here]
    refine ⟨?_, ?_⟩
    · rw [← List.concat_eq_append]
      exact nodup.concat absent
    · intro e'
      rw [List.mem_append, List.mem_singleton, members e', linked e', here]
      by_cases same : e' = e
      · simp [same]
      · simp [same]
  · rw [if_neg here]
    refine ⟨nodup, ?_⟩
    intro e'
    rw [members e', linked e']
    by_cases same : e' = e
    · rw [if_pos same, same, fresh, Option.some.injEq]
      exact iff_of_false nofun (Ne.symm here)
    · rw [if_neg same]

private theorem set_perm_eraseIdx (xs : List Nat) (i x : Nat) (inside : i < xs.length) :
    (xs.set i x).Perm (xs.eraseIdx i ++ [x]) := by
  induction xs generalizing i with
  | nil => contradiction
  | cons head rest ih =>
      cases i with
      | zero => exact (List.perm_append_singleton x rest).symm
      | succ i => exact (ih i (Nat.lt_of_succ_lt_succ inside)).cons head

/-- Swap-removal is removal up to order. -/
theorem eraseEdgeId_perm (edges : List Nat) (edge : Nat) : (eraseEdgeId edges edge).Perm (edges.erase edge) := by
  unfold eraseEdgeId
  rw [List.erase_eq_eraseIdx]
  cases found : edges.idxOf? edge with
  | none => exact List.Perm.refl edges
  | some i =>
      change ((edges.set i (edges.getLast?.getD edge)).dropLast).Perm (edges.eraseIdx i)
      have inside : i < edges.length := by
        obtain ⟨inside, -⟩ := List.findIdx?_eq_some_iff_getElem.mp found
        exact inside
      rcases List.eq_nil_or_concat edges with rfl | ⟨front, last, rfl⟩
      · contradiction
      · rw [List.concat_eq_append] at inside ⊢
        rw [List.getLast?_concat, Option.getD_some]
        by_cases low : i < front.length
        · rw [List.set_append_left i last low, List.dropLast_concat, List.eraseIdx_append_of_lt_length low]
          exact set_perm_eraseIdx front i last low
        · have ends : i = front.length := by
            rw [List.length_append, List.length_singleton] at inside
            omega
          rw [List.set_append_right i last (Nat.le_of_not_lt low),
            List.eraseIdx_append_of_length_le (Nat.le_of_not_lt low), ends, Nat.sub_self]
          simp

theorem Adjacent.erase (lists lists' : Nat → List Nat) (ends ends' : Nat → Option Nat)
    (adjacent : Adjacent lists ends) (e n : Nat) (there : ends e = some n)
    (removed : ∀ m, lists' m = if m = n then eraseEdgeId (lists m) e else lists m)
    (unlinked : ∀ e', ends' e' = if e' = e then none else ends e') : Adjacent lists' ends' := by
  intro m
  obtain ⟨nodup, members⟩ := adjacent m
  rw [removed m]
  by_cases here : m = n
  · rw [if_pos here]
    have perm := eraseEdgeId_perm (lists m) e
    refine ⟨perm.nodup_iff.mpr (nodup.erase e), ?_⟩
    intro e'
    rw [perm.mem_iff, nodup.mem_erase_iff, members e', unlinked e']
    by_cases same : e' = e
    · simp [same]
    · simp [same]
  · rw [if_neg here]
    refine ⟨nodup, ?_⟩
    intro e'
    rw [members e', unlinked e']
    by_cases same : e' = e
    · rw [if_pos same, same, there, Option.some.injEq]
      exact iff_of_false (Ne.symm here) nofun
    · rw [if_neg same]

/-- The list of a node without edges may be emptied. -/
theorem Adjacent.clear (lists lists' : Nat → List Nat) (ends : Nat → Option Nat) (adjacent : Adjacent lists ends)
    (n : Nat) (unused : ∀ e, ends e ≠ some n) (cleared : ∀ m, lists' m = if m = n then [] else lists m) :
    Adjacent lists' ends := by
  intro m
  rw [cleared m]
  by_cases here : m = n
  · rw [if_pos here, here]
    exact ⟨List.nodup_nil, fun e => iff_of_false List.not_mem_nil (unused e)⟩
  · rw [if_neg here]
    exact adjacent m

namespace Graph
variable {NodeProxy EdgeProxy : Type} (g : Graph NodeProxy EdgeProxy)

/-- A list of the node slot, whether it is alive or not. -/
def listOf (field : Node NodeProxy → List Nat) (n : Nat) : List Nat := (g.nodes.slots[n]?).elim [] field

def sourceOf (e : Nat) : Option Nat := (g.getEdge e).map Edge.source

def targetOf (e : Nat) : Option Nat := (g.getEdge e).map Edge.target

def captureSourceOf (e : Nat) : Option Nat := (g.getCaptureEdge e).map CaptureEdge.source

def captureTargetOf (e : Nat) : Option Nat := (g.getCaptureEdge e).map CaptureEdge.target

/-- The storage invariant, less the masks. -/
structure Linked : Prop where
  nodes : g.nodes.Sound Node.alive
  edges : g.edges.Sound Edge.alive
  captureEdges : g.captureEdges.Sound CaptureEdge.alive
  outEdges : Adjacent (g.listOf Node.outEdges) g.sourceOf
  inEdges : Adjacent (g.listOf Node.inEdges) g.targetOf
  captureOutEdges : Adjacent (g.listOf Node.captureOutEdges) g.captureSourceOf
  captureInEdges : Adjacent (g.listOf Node.captureInEdges) g.captureTargetOf
  ends : ∀ e n, g.sourceOf e = some n ∨ g.targetOf e = some n ∨ g.captureSourceOf e = some n ∨
    g.captureTargetOf e = some n → g.isNodeValid n

def MasksSized : Prop :=
  ∀ e edge, g.getEdge e = some edge → edge.fromClocks.length = g.clocks.length ∧
    edge.toClocks.length = g.clocks.length

section modifyNode
variable (n : Nat) (f : Node NodeProxy → Node NodeProxy) (kept : ∀ x, (f x).alive = x.alive)
include kept

theorem isNodeValid_modifyNode (m : Nat) : (g.modifyNode n f).isNodeValid m = g.isNodeValid m := by
  unfold isNodeValid getNode modifyNode
  rw [Slots.find_modify Node.alive g.nodes n m f kept]
  split
  · rw [Option.isSome_map]
  · rfl

omit kept in
/-- A change of a valid node acts on its lists, one by one. -/
theorem listOf_modifyNode (valid : g.isNodeValid n) (field : Node NodeProxy → List Nat)
    (change : List Nat → List Nat) (acts : ∀ x, field (f x) = change (field x)) (m : Nat) :
    (g.modifyNode n f).listOf field m = if m = n then change (g.listOf field m) else g.listOf field m := by
  unfold listOf modifyNode
  rw [Slots.getElem?_modify]
  by_cases hit : m = n
  · obtain ⟨x, place, -⟩ := (Slots.find_isSome Node.alive g.nodes n).mp valid
    rw [if_pos hit, if_pos hit, hit, place]
    exact acts x
  · rw [if_neg hit, if_neg hit]

omit kept in
theorem listOf_modifyNode_frame (field : Node NodeProxy → List Nat) (same : ∀ x, field (f x) = field x) :
    (g.modifyNode n f).listOf field = g.listOf field := by
  funext m
  unfold listOf modifyNode
  rw [Slots.getElem?_modify]
  by_cases hit : m = n
  · rw [if_pos hit]
    cases g.nodes.slots[m]? with
    | none => rfl
    | some x => exact same x
  · rw [if_neg hit]

end modifyNode

theorem linked_empty : (empty : Graph NodeProxy EdgeProxy).Linked where
  nodes := Slots.sound_empty _
  edges := Slots.sound_empty _
  captureEdges := Slots.sound_empty _
  outEdges _ := ⟨List.nodup_nil, fun _ => iff_of_false List.not_mem_nil nofun⟩
  inEdges _ := ⟨List.nodup_nil, fun _ => iff_of_false List.not_mem_nil nofun⟩
  captureOutEdges _ := ⟨List.nodup_nil, fun _ => iff_of_false List.not_mem_nil nofun⟩
  captureInEdges _ := ⟨List.nodup_nil, fun _ => iff_of_false List.not_mem_nil nofun⟩
  ends _ _ found := by
    rcases found with found | found | found | found <;> nomatch found

/-- What creating a node does. -/
structure NodeCreated (proxy : Option NodeProxy) (id : Nat) (g' : Graph NodeProxy EdgeProxy) : Prop where
  edges : g'.edges = g.edges
  captureEdges : g'.captureEdges = g.captureEdges
  clocks : g'.clocks = g.clocks
  fresh : g.isNodeValid id = false
  nodes : ∀ m, g'.getNode m = if m = id then some (Node.create proxy m) else g.getNode m
  slots : ∀ m, g'.nodes.slots[m]? = if m = id then some (Node.create proxy m) else g.nodes.slots[m]?
  sound : g'.nodes.Sound Node.alive

theorem nodeCreated_createNode (linked : g.Linked) (proxy : Option NodeProxy) :
    g.NodeCreated proxy (g.createNode proxy).1 (g.createNode proxy).2 where
  edges := rfl
  captureEdges := rfl
  clocks := rfl
  fresh := by
    have absent := Slots.find_allocated Node.alive (Node.create proxy) (Node.reset proxy) g.nodes
      (fun _ _ => rfl) linked.nodes
    exact congrArg Option.isSome absent
  nodes := Slots.find_allocate Node.alive (Node.create proxy) (Node.reset proxy) g.nodes
    (fun _ _ => rfl) linked.nodes (fun _ => rfl)
  slots := Slots.getElem?_allocate Node.alive (Node.create proxy) (Node.reset proxy) g.nodes
    (fun _ _ => rfl) linked.nodes
  sound := Slots.sound_allocate Node.alive (Node.create proxy) (Node.reset proxy) g.nodes
    (fun _ _ => rfl) linked.nodes (fun _ => rfl)

/-- A graph with the same edges keeps the ends of the edges. -/
theorem ends_eq (g' : Graph NodeProxy EdgeProxy) (edges : g'.edges = g.edges)
    (captureEdges : g'.captureEdges = g.captureEdges) :
    g'.sourceOf = g.sourceOf ∧ g'.targetOf = g.targetOf ∧ g'.captureSourceOf = g.captureSourceOf ∧
      g'.captureTargetOf = g.captureTargetOf := by
  unfold sourceOf targetOf captureSourceOf captureTargetOf getEdge getCaptureEdge
  rw [edges, captureEdges]
  exact ⟨rfl, rfl, rfl, rfl⟩

/-- A node without edges may take a new slot, or leave it, with empty lists. -/
theorem linked_of_cleared (linked : g.Linked) (g' : Graph NodeProxy EdgeProxy) (n : Nat)
    (sound : g'.nodes.Sound Node.alive) (edges : g'.edges = g.edges)
    (captureEdges : g'.captureEdges = g.captureEdges)
    (lists : ∀ field : Node NodeProxy → List Nat,
      (field = Node.outEdges ∨ field = Node.inEdges ∨ field = Node.captureOutEdges ∨
        field = Node.captureInEdges) → ∀ m, g'.listOf field m = if m = n then [] else g.listOf field m)
    (unused : ∀ e, g.sourceOf e ≠ some n ∧ g.targetOf e ≠ some n ∧ g.captureSourceOf e ≠ some n ∧
      g.captureTargetOf e ≠ some n)
    (valid : ∀ m, m ≠ n → g.isNodeValid m → g'.isNodeValid m) : g'.Linked := by
  obtain ⟨sources, targets, captureSources, captureTargets⟩ := g.ends_eq g' edges captureEdges
  refine ⟨sound, edges ▸ linked.edges, captureEdges ▸ linked.captureEdges, ?_, ?_, ?_, ?_, ?_⟩
  · rw [sources]
    exact linked.outEdges.clear _ _ _ n (fun e => (unused e).1) (lists _ (Or.inl rfl))
  · rw [targets]
    exact linked.inEdges.clear _ _ _ n (fun e => (unused e).2.1) (lists _ (Or.inr (Or.inl rfl)))
  · rw [captureSources]
    exact linked.captureOutEdges.clear _ _ _ n (fun e => (unused e).2.2.1)
      (lists _ (Or.inr (Or.inr (Or.inl rfl))))
  · rw [captureTargets]
    exact linked.captureInEdges.clear _ _ _ n (fun e => (unused e).2.2.2)
      (lists _ (Or.inr (Or.inr (Or.inr rfl))))
  · intro e m found
    rw [sources, targets, captureSources, captureTargets] at found
    refine valid m ?_ (linked.ends e m found)
    rintro rfl
    obtain ⟨first, second, third, fourth⟩ := unused e
    rcases found with found | found | found | found
    · exact first found
    · exact second found
    · exact third found
    · exact fourth found

/-- No live edge has an end at a node that is not valid. -/
theorem unused_of_invalid (linked : g.Linked) (n : Nat) (invalid : g.isNodeValid n = false) (e : Nat) :
    g.sourceOf e ≠ some n ∧ g.targetOf e ≠ some n ∧ g.captureSourceOf e ≠ some n ∧
      g.captureTargetOf e ≠ some n := by
  have never (found : g.sourceOf e = some n ∨ g.targetOf e = some n ∨ g.captureSourceOf e = some n ∨
      g.captureTargetOf e = some n) : False := by
    have valid := linked.ends e n found
    rw [invalid] at valid
    contradiction
  exact ⟨fun found => never (Or.inl found), fun found => never (Or.inr (Or.inl found)),
    fun found => never (Or.inr (Or.inr (Or.inl found))), fun found => never (Or.inr (Or.inr (Or.inr found)))⟩

theorem linked_createNode (linked : g.Linked) (proxy : Option NodeProxy) : (g.createNode proxy).2.Linked := by
  have created := g.nodeCreated_createNode linked proxy
  refine g.linked_of_cleared linked _ (g.createNode proxy).1 created.sound created.edges created.captureEdges
    ?_ (g.unused_of_invalid linked _ created.fresh) ?_
  · intro field which m
    unfold listOf
    rw [created.slots m]
    split
    · rcases which with rfl | rfl | rfl | rfl <;> rfl
    · rfl
  · intro m other valid
    unfold isNodeValid
    rw [created.nodes m, if_neg other]
    exact valid

section relink
variable (s t : Nat) (atSource atTarget : Node NodeProxy → Node NodeProxy)
  (keptSource : ∀ x, (atSource x).alive = x.alive) (keptTarget : ∀ x, (atTarget x).alive = x.alive)
include keptSource keptTarget

theorem isNodeValid_relink (m : Nat) :
    ((g.modifyNode s atSource).modifyNode t atTarget).isNodeValid m = g.isNodeValid m := by
  rw [isNodeValid_modifyNode _ t atTarget keptTarget, isNodeValid_modifyNode _ s atSource keptSource]

theorem sound_relink (sound : g.nodes.Sound Node.alive) :
    ((g.modifyNode s atSource).modifyNode t atTarget).nodes.Sound Node.alive :=
  Slots.sound_modify Node.alive _ (Slots.sound_modify Node.alive g.nodes sound s atSource keptSource) t
    atTarget keptTarget

omit keptTarget in
/-- A change at both ends of an edge changes one list at each. -/
theorem listOf_relink (validSource : g.isNodeValid s) (validTarget : g.isNodeValid t)
    (sourceField targetField : Node NodeProxy → List Nat) (sourceChange targetChange : List Nat → List Nat)
    (sourceActs : ∀ x, sourceField (atSource x) = sourceChange (sourceField x))
    (sourceFrame : ∀ x, sourceField (atTarget x) = sourceField x)
    (targetActs : ∀ x, targetField (atTarget x) = targetChange (targetField x))
    (targetFrame : ∀ x, targetField (atSource x) = targetField x) (m : Nat) :
    ((g.modifyNode s atSource).modifyNode t atTarget).listOf sourceField m =
        (if m = s then sourceChange (g.listOf sourceField m) else g.listOf sourceField m) ∧
      ((g.modifyNode s atSource).modifyNode t atTarget).listOf targetField m =
        if m = t then targetChange (g.listOf targetField m) else g.listOf targetField m := by
  constructor
  · rw [listOf_modifyNode_frame _ t atTarget sourceField sourceFrame]
    exact g.listOf_modifyNode s atSource validSource sourceField sourceChange sourceActs m
  · have valid : (g.modifyNode s atSource).isNodeValid t := by
      rw [isNodeValid_modifyNode _ s atSource keptSource]
      exact validTarget
    rw [listOf_modifyNode _ t atTarget valid targetField targetChange targetActs,
      listOf_modifyNode_frame _ s atSource targetField targetFrame]

omit keptSource keptTarget in
theorem listOf_relink_frame (field : Node NodeProxy → List Nat) (sourceFrame : ∀ x, field (atSource x) = field x)
    (targetFrame : ∀ x, field (atTarget x) = field x) :
    ((g.modifyNode s atSource).modifyNode t atTarget).listOf field = g.listOf field := by
  rw [listOf_modifyNode_frame _ t atTarget field targetFrame, listOf_modifyNode_frame _ s atSource field sourceFrame]

end relink

/-- What creating an edge does. -/
theorem createEdge_eq (linked : g.Linked) (source target : Nat) (proxy : Option EdgeProxy)
    (validSource : g.isNodeValid source) (validTarget : g.isNodeValid target) :
    ∃ id edges, g.createEdge source target proxy = (some id,
        (modifyNode { g with edges := edges } source (Node.addOutEdge id)).modifyNode target (Node.addInEdge id)) ∧
      g.getEdge id = none ∧ edges.Sound Edge.alive ∧
      ∀ e, edges.find Edge.alive e =
        if e = id then some ((Edge.create source target proxy e).resizeClockMasks g.clocks.length)
        else g.getEdge e := by
  have same (id : Nat) (e : Edge EdgeProxy) : Edge.reset source target proxy id e =
    Edge.create source target proxy id := rfl
  have born (id : Nat) : (Edge.create source target proxy id).alive := rfl
  unfold createEdge
  rw [if_neg (by simp [validSource, validTarget])]
  obtain ⟨id, made⟩ : ∃ id, (g.edges.allocate (Edge.create source target proxy)
    (Edge.reset source target proxy)).1 = id := ⟨_, rfl⟩
  obtain ⟨edges, made'⟩ : ∃ edges, (g.edges.allocate (Edge.create source target proxy)
    (Edge.reset source target proxy)).2 = edges := ⟨_, rfl⟩
  have found := Slots.find_allocate Edge.alive _ _ g.edges same linked.edges born
  have sound := Slots.sound_allocate Edge.alive _ _ g.edges same linked.edges born
  have fresh := Slots.find_allocated Edge.alive _ _ g.edges same linked.edges
  rw [made'] at found sound
  rw [made] at found fresh
  refine ⟨id, edges.modify id (Edge.resizeClockMasks g.clocks.length), ?_, fresh,
    Slots.sound_modify Edge.alive edges sound id (Edge.resizeClockMasks g.clocks.length) (fun _ => rfl), ?_⟩
  · rw [← made, ← made']
  · intro e
    rw [Slots.find_modify Edge.alive edges id e (Edge.resizeClockMasks g.clocks.length) (fun _ => rfl), found e]
    by_cases new : e = id
    · rw [if_pos new, if_pos new, if_pos new]
      rfl
    · rw [if_neg new, if_neg new, if_neg new]
      rfl

theorem createEdge_invalid (source target : Nat) (proxy : Option EdgeProxy)
    (invalid : ¬ (g.isNodeValid source ∧ g.isNodeValid target)) :
    g.createEdge source target proxy = (none, g) := by
  unfold createEdge
  rw [if_pos (by simpa [imp_iff_not_or] using invalid)]

theorem linked_createEdge (linked : g.Linked) (source target : Nat) (proxy : Option EdgeProxy) :
    (g.createEdge source target proxy).2.Linked := by
  by_cases valid : g.isNodeValid source ∧ g.isNodeValid target
  · obtain ⟨validSource, validTarget⟩ := valid
    obtain ⟨id, edges, made, fresh, sound, found⟩ :=
      g.createEdge_eq linked source target proxy validSource validTarget
    rw [congrArg Prod.snd made]
    have sources (e : Nat) : ((edges.find Edge.alive e).map Edge.source) =
        if e = id then some source else g.sourceOf e := by
      rw [found e]
      split <;> rfl
    have targets (e : Nat) : ((edges.find Edge.alive e).map Edge.target) =
        if e = id then some target else g.targetOf e := by
      rw [found e]
      split <;> rfl
    have lists := listOf_relink { g with edges := edges } source target (Node.addOutEdge id) (Node.addInEdge id)
      (fun _ => rfl) validSource validTarget Node.outEdges Node.inEdges (· ++ [id]) (· ++ [id])
      (fun _ => rfl) (fun _ => rfl) (fun _ => rfl) (fun _ => rfl)
    have frame := listOf_relink_frame { g with edges := edges } source target (Node.addOutEdge id)
      (Node.addInEdge id)
    have valid := isNodeValid_relink { g with edges := edges } source target (Node.addOutEdge id)
      (Node.addInEdge id) (fun _ => rfl) (fun _ => rfl)
    refine ⟨sound_relink { g with edges := edges } _ _ _ _ (fun _ => rfl) (fun _ => rfl) linked.nodes, sound,
      linked.captureEdges, ?_, ?_, ?_, ?_, ?_⟩
    · exact linked.outEdges.insert _ _ _ _ id source (by rw [sourceOf, fresh]; rfl) (fun m => (lists m).1) sources
    · exact linked.inEdges.insert _ _ _ _ id target (by rw [targetOf, fresh]; rfl) (fun m => (lists m).2) targets
    · rw [frame Node.captureOutEdges (fun _ => rfl) (fun _ => rfl)]
      exact linked.captureOutEdges
    · rw [frame Node.captureInEdges (fun _ => rfl) (fun _ => rfl)]
      exact linked.captureInEdges
    · intro e n reached
      refine (valid n).trans ?_
      rcases reached with reached | reached | reached | reached
      · have ends := (sources e).symm.trans reached
        split at ends
        · exact Option.some.inj ends ▸ validSource
        · exact linked.ends e n (Or.inl ends)
      · have ends := (targets e).symm.trans reached
        split at ends
        · exact Option.some.inj ends ▸ validTarget
        · exact linked.ends e n (Or.inr (Or.inl ends))
      · exact linked.ends e n (Or.inr (Or.inr (Or.inl reached)))
      · exact linked.ends e n (Or.inr (Or.inr (Or.inr reached)))
  · rw [g.createEdge_invalid source target proxy valid]
    exact linked

/-- What creating a capture edge does. -/
theorem createCaptureEdge_eq (linked : g.Linked) (source target : Nat) (validSource : g.isNodeValid source)
    (validTarget : g.isNodeValid target) :
    ∃ id captureEdges, g.createCaptureEdge source target = (some id,
        (modifyNode { g with captureEdges := captureEdges } source (Node.addCaptureOutEdge id)).modifyNode target
          (Node.addCaptureInEdge id)) ∧
      g.getCaptureEdge id = none ∧ captureEdges.Sound CaptureEdge.alive ∧
      ∀ e, captureEdges.find CaptureEdge.alive e =
        if e = id then some (CaptureEdge.create source target e) else g.getCaptureEdge e := by
  have same (id : Nat) (e : CaptureEdge) : CaptureEdge.reset source target id e =
    CaptureEdge.create source target id := rfl
  have born (id : Nat) : (CaptureEdge.create source target id).alive := rfl
  unfold createCaptureEdge
  rw [if_neg (by simp [validSource, validTarget])]
  exact ⟨_, _, rfl, Slots.find_allocated CaptureEdge.alive _ _ g.captureEdges same linked.captureEdges,
    Slots.sound_allocate CaptureEdge.alive _ _ g.captureEdges same linked.captureEdges born,
    Slots.find_allocate CaptureEdge.alive _ _ g.captureEdges same linked.captureEdges born⟩

theorem createCaptureEdge_invalid (source target : Nat)
    (invalid : ¬ (g.isNodeValid source ∧ g.isNodeValid target)) :
    g.createCaptureEdge source target = (none, g) := by
  unfold createCaptureEdge
  rw [if_pos (by simpa [imp_iff_not_or] using invalid)]

theorem linked_createCaptureEdge (linked : g.Linked) (source target : Nat) :
    (g.createCaptureEdge source target).2.Linked := by
  by_cases valid : g.isNodeValid source ∧ g.isNodeValid target
  · obtain ⟨validSource, validTarget⟩ := valid
    obtain ⟨id, captureEdges, made, fresh, sound, found⟩ :=
      g.createCaptureEdge_eq linked source target validSource validTarget
    rw [congrArg Prod.snd made]
    have sources (e : Nat) : ((captureEdges.find CaptureEdge.alive e).map CaptureEdge.source) =
        if e = id then some source else g.captureSourceOf e := by
      rw [found e]
      split <;> rfl
    have targets (e : Nat) : ((captureEdges.find CaptureEdge.alive e).map CaptureEdge.target) =
        if e = id then some target else g.captureTargetOf e := by
      rw [found e]
      split <;> rfl
    have lists := listOf_relink { g with captureEdges := captureEdges } source target
      (Node.addCaptureOutEdge id) (Node.addCaptureInEdge id) (fun _ => rfl) validSource validTarget
      Node.captureOutEdges Node.captureInEdges (· ++ [id]) (· ++ [id])
      (fun _ => rfl) (fun _ => rfl) (fun _ => rfl) (fun _ => rfl)
    have frame := listOf_relink_frame { g with captureEdges := captureEdges } source target
      (Node.addCaptureOutEdge id) (Node.addCaptureInEdge id)
    have valid := isNodeValid_relink { g with captureEdges := captureEdges } source target
      (Node.addCaptureOutEdge id) (Node.addCaptureInEdge id) (fun _ => rfl) (fun _ => rfl)
    refine ⟨sound_relink { g with captureEdges := captureEdges } _ _ _ _ (fun _ => rfl) (fun _ => rfl)
      linked.nodes, linked.edges, sound, ?_, ?_, ?_, ?_, ?_⟩
    · rw [frame Node.outEdges (fun _ => rfl) (fun _ => rfl)]
      exact linked.outEdges
    · rw [frame Node.inEdges (fun _ => rfl) (fun _ => rfl)]
      exact linked.inEdges
    · exact linked.captureOutEdges.insert _ _ _ _ id source (by rw [captureSourceOf, fresh]; rfl)
        (fun m => (lists m).1) sources
    · exact linked.captureInEdges.insert _ _ _ _ id target (by rw [captureTargetOf, fresh]; rfl)
        (fun m => (lists m).2) targets
    · intro e n reached
      refine (valid n).trans ?_
      rcases reached with reached | reached | reached | reached
      · exact linked.ends e n (Or.inl reached)
      · exact linked.ends e n (Or.inr (Or.inl reached))
      · have ends := (sources e).symm.trans reached
        split at ends
        · exact Option.some.inj ends ▸ validSource
        · exact linked.ends e n (Or.inr (Or.inr (Or.inl ends)))
      · have ends := (targets e).symm.trans reached
        split at ends
        · exact Option.some.inj ends ▸ validTarget
        · exact linked.ends e n (Or.inr (Or.inr (Or.inr ends)))
  · rw [g.createCaptureEdge_invalid source target valid]
    exact linked

/-- What removing edges leaves: the graph without them. -/
structure Without (edges captureEdges : List Nat) (g' : Graph NodeProxy EdgeProxy) : Prop where
  linked : g'.Linked
  getEdge : ∀ e, g'.getEdge e = if e ∈ edges then none else g.getEdge e
  getCaptureEdge : ∀ e, g'.getCaptureEdge e = if e ∈ captureEdges then none else g.getCaptureEdge e
  isNodeValid : ∀ n, g'.isNodeValid n = g.isNodeValid n
  clocks : g'.clocks = g.clocks

theorem without_nothing (linked : g.Linked) : g.Without [] [] g :=
  ⟨linked, fun _ => (if_neg List.not_mem_nil).symm, fun _ => (if_neg List.not_mem_nil).symm, fun _ => rfl, rfl⟩

theorem Without.append (edges edges' captureEdges captureEdges' : List Nat) (g' g'' : Graph NodeProxy EdgeProxy)
    (first : g.Without edges captureEdges g') (second : g'.Without edges' captureEdges' g'') :
    g.Without (edges ++ edges') (captureEdges ++ captureEdges') g'' := by
  refine ⟨second.linked, ?_, ?_, fun n => (second.isNodeValid n).trans (first.isNodeValid n),
    second.clocks.trans first.clocks⟩
  · intro e
    rw [second.getEdge e, first.getEdge e]
    by_cases later : e ∈ edges'
    · rw [if_pos later, if_pos (List.mem_append_right _ later)]
    · by_cases earlier : e ∈ edges
      · rw [if_neg later, if_pos earlier, if_pos (List.mem_append_left _ earlier)]
      · rw [if_neg later, if_neg earlier, if_neg (by simp [later, earlier])]
  · intro e
    rw [second.getCaptureEdge e, first.getCaptureEdge e]
    by_cases later : e ∈ captureEdges'
    · rw [if_pos later, if_pos (List.mem_append_right _ later)]
    · by_cases earlier : e ∈ captureEdges
      · rw [if_neg later, if_pos earlier, if_pos (List.mem_append_left _ earlier)]
      · rw [if_neg later, if_neg earlier, if_neg (by simp [later, earlier])]

theorem removeEdge_eq (linked : g.Linked) (edge : Nat) (found : Edge EdgeProxy)
    (there : g.getEdge edge = some found) :
    g.isNodeValid found.source ∧ g.isNodeValid found.target ∧
      g.removeEdge edge = (true, { (g.modifyNode found.source (Node.removeOutEdge edge)).modifyNode found.target
        (Node.removeInEdge edge) with edges := g.edges.release Edge.deactivate edge }) := by
  have validSource : g.isNodeValid found.source :=
    linked.ends edge found.source (Or.inl (by rw [sourceOf, there]; rfl))
  have validTarget : g.isNodeValid found.target :=
    linked.ends edge found.target (Or.inr (Or.inl (by rw [targetOf, there]; rfl)))
  refine ⟨validSource, validTarget, ?_⟩
  unfold removeEdge
  rw [there]
  simp only
  have stillValid : (g.modifyNode found.source (Node.removeOutEdge edge)).isNodeValid found.target :=
    (g.isNodeValid_modifyNode found.source (Node.removeOutEdge edge) (fun _ => rfl) found.target).trans validTarget
  rw [if_pos validSource, if_pos stillValid]
  rfl

theorem removeEdge_invalid (edge : Nat) (absent : g.getEdge edge = none) : g.removeEdge edge = (false, g) := by
  unfold removeEdge
  rw [absent]

theorem without_removeEdge (linked : g.Linked) (edge : Nat) : g.Without [edge] [] (g.removeEdge edge).2 := by
  cases there : g.getEdge edge with
  | none =>
      rw [g.removeEdge_invalid edge there]
      refine ⟨linked, ?_, (g.without_nothing linked).getCaptureEdge, fun _ => rfl, rfl⟩
      intro e
      split
      · next same => rw [List.mem_singleton.mp same, there]
      · rfl
  | some found =>
      obtain ⟨validSource, validTarget, same⟩ := g.removeEdge_eq linked edge found there
      have edges (e : Nat) : (g.edges.release Edge.deactivate edge).find Edge.alive e =
          if e = edge then none else g.getEdge e :=
        Slots.find_release Edge.alive Edge.deactivate g.edges edge found (fun _ => rfl) there e
      have sources (e : Nat) : ((g.edges.release Edge.deactivate edge).find Edge.alive e).map Edge.source =
          if e = edge then none else g.sourceOf e := by
        rw [edges e]
        split <;> rfl
      have targets (e : Nat) : ((g.edges.release Edge.deactivate edge).find Edge.alive e).map Edge.target =
          if e = edge then none else g.targetOf e := by
        rw [edges e]
        split <;> rfl
      have lists := g.listOf_relink found.source found.target (Node.removeOutEdge edge)
        (Node.removeInEdge edge) (fun _ => rfl) validSource validTarget Node.outEdges Node.inEdges
        (eraseEdgeId · edge) (eraseEdgeId · edge) (fun _ => rfl) (fun _ => rfl) (fun _ => rfl) (fun _ => rfl)
      have frame := g.listOf_relink_frame found.source found.target (Node.removeOutEdge edge)
        (Node.removeInEdge edge)
      have valid := g.isNodeValid_relink found.source found.target (Node.removeOutEdge edge)
        (Node.removeInEdge edge) (fun _ => rfl) (fun _ => rfl)
      rw [congrArg Prod.snd same]
      refine ⟨⟨g.sound_relink _ _ _ _ (fun _ => rfl) (fun _ => rfl) linked.nodes,
        Slots.sound_release Edge.alive Edge.deactivate g.edges edge found (fun _ => rfl) there linked.edges,
        linked.captureEdges, ?_, ?_, ?_, ?_, ?_⟩, ?_, (g.without_nothing linked).getCaptureEdge, valid, rfl⟩
      · exact linked.outEdges.erase _ _ _ _ edge found.source (by rw [sourceOf, there]; rfl)
          (fun m => (lists m).1) sources
      · exact linked.inEdges.erase _ _ _ _ edge found.target (by rw [targetOf, there]; rfl)
          (fun m => (lists m).2) targets
      · exact (frame Node.captureOutEdges (fun _ => rfl) (fun _ => rfl)).symm ▸ linked.captureOutEdges
      · exact (frame Node.captureInEdges (fun _ => rfl) (fun _ => rfl)).symm ▸ linked.captureInEdges
      · intro e n reached
        refine (valid n).trans (linked.ends e n ?_)
        rcases reached with reached | reached | reached
        · have ends := (sources e).symm.trans reached
          split at ends
          · contradiction
          · exact Or.inl ends
        · have ends := (targets e).symm.trans reached
          split at ends
          · contradiction
          · exact Or.inr (Or.inl ends)
        · exact Or.inr (Or.inr reached)
      · intro e
        simp only [List.mem_singleton]
        exact edges e

theorem removeCaptureEdge_invalid (edge : Nat) (absent : g.getCaptureEdge edge = none) :
    g.removeCaptureEdge edge = (false, g) := by
  unfold removeCaptureEdge
  rw [absent]

theorem without_removeCaptureEdge (linked : g.Linked) (edge : Nat) :
    g.Without [] [edge] (g.removeCaptureEdge edge).2 := by
  cases there : g.getCaptureEdge edge with
  | none =>
      rw [g.removeCaptureEdge_invalid edge there]
      refine ⟨linked, (g.without_nothing linked).getEdge, ?_, fun _ => rfl, rfl⟩
      intro e
      split
      · next same => rw [List.mem_singleton.mp same, there]
      · rfl
  | some found =>
      have validSource : g.isNodeValid found.source :=
        linked.ends edge found.source (Or.inr (Or.inr (Or.inl (by rw [captureSourceOf, there]; rfl))))
      have validTarget : g.isNodeValid found.target :=
        linked.ends edge found.target (Or.inr (Or.inr (Or.inr (by rw [captureTargetOf, there]; rfl))))
      have same : (g.removeCaptureEdge edge).2 = { (g.modifyNode found.source
          (Node.removeCaptureOutEdge edge)).modifyNode found.target (Node.removeCaptureInEdge edge) with
            captureEdges := g.captureEdges.release CaptureEdge.deactivate edge } := by
        unfold removeCaptureEdge
        rw [there]
        rfl
      have edges (e : Nat) : (g.captureEdges.release CaptureEdge.deactivate edge).find CaptureEdge.alive e =
          if e = edge then none else g.getCaptureEdge e :=
        Slots.find_release CaptureEdge.alive CaptureEdge.deactivate g.captureEdges edge found
          (fun _ => rfl) there e
      have sources (e : Nat) :
          ((g.captureEdges.release CaptureEdge.deactivate edge).find CaptureEdge.alive e).map CaptureEdge.source =
            if e = edge then none else g.captureSourceOf e := by
        rw [edges e]
        split <;> rfl
      have targets (e : Nat) :
          ((g.captureEdges.release CaptureEdge.deactivate edge).find CaptureEdge.alive e).map CaptureEdge.target =
            if e = edge then none else g.captureTargetOf e := by
        rw [edges e]
        split <;> rfl
      have lists := g.listOf_relink found.source found.target (Node.removeCaptureOutEdge edge)
        (Node.removeCaptureInEdge edge) (fun _ => rfl) validSource validTarget Node.captureOutEdges
        Node.captureInEdges (eraseEdgeId · edge) (eraseEdgeId · edge) (fun _ => rfl) (fun _ => rfl)
        (fun _ => rfl) (fun _ => rfl)
      have frame := g.listOf_relink_frame found.source found.target (Node.removeCaptureOutEdge edge)
        (Node.removeCaptureInEdge edge)
      have valid := g.isNodeValid_relink found.source found.target (Node.removeCaptureOutEdge edge)
        (Node.removeCaptureInEdge edge) (fun _ => rfl) (fun _ => rfl)
      rw [same]
      refine ⟨⟨g.sound_relink _ _ _ _ (fun _ => rfl) (fun _ => rfl) linked.nodes, linked.edges,
        Slots.sound_release CaptureEdge.alive CaptureEdge.deactivate g.captureEdges edge found (fun _ => rfl)
          there linked.captureEdges, ?_, ?_, ?_, ?_, ?_⟩, (g.without_nothing linked).getEdge, ?_, valid, rfl⟩
      · exact (frame Node.outEdges (fun _ => rfl) (fun _ => rfl)).symm ▸ linked.outEdges
      · exact (frame Node.inEdges (fun _ => rfl) (fun _ => rfl)).symm ▸ linked.inEdges
      · exact linked.captureOutEdges.erase _ _ _ _ edge found.source (by rw [captureSourceOf, there]; rfl)
          (fun m => (lists m).1) sources
      · exact linked.captureInEdges.erase _ _ _ _ edge found.target (by rw [captureTargetOf, there]; rfl)
          (fun m => (lists m).2) targets
      · intro e n reached
        refine (valid n).trans (linked.ends e n ?_)
        rcases reached with reached | reached | reached | reached
        · exact Or.inl reached
        · exact Or.inr (Or.inl reached)
        · have ends := (sources e).symm.trans reached
          split at ends
          · contradiction
          · exact Or.inr (Or.inr (Or.inl ends))
        · have ends := (targets e).symm.trans reached
          split at ends
          · contradiction
          · exact Or.inr (Or.inr (Or.inr ends))
      · intro e
        simp only [List.mem_singleton]
        exact edges e

theorem without_foldl_removeEdge (linked : g.Linked) (edges : List Nat) :
    g.Without edges [] (edges.foldl (fun g edge => (g.removeEdge edge).2) g) := by
  induction edges generalizing g with
  | nil => exact g.without_nothing linked
  | cons edge rest ih =>
      have first := g.without_removeEdge linked edge
      exact first.append _ _ _ _ _ _ _ (ih _ first.linked)

theorem without_foldl_removeCaptureEdge (linked : g.Linked) (edges : List Nat) :
    g.Without [] edges (edges.foldl (fun g edge => (g.removeCaptureEdge edge).2) g) := by
  induction edges generalizing g with
  | nil => exact g.without_nothing linked
  | cons edge rest ih =>
      have first := g.without_removeCaptureEdge linked edge
      exact first.append _ _ _ _ _ _ _ (ih _ first.linked)

theorem removeNode_invalid (node : Nat) (absent : g.getNode node = none) : g.removeNode node = (false, g) := by
  unfold removeNode
  rw [absent]

/-- What removing a node leaves of the edges, before its slot is given up. -/
theorem removeNode_eq (linked : g.Linked) (node : Nat) (found : Node NodeProxy)
    (there : g.getNode node = some found) :
    ∃ bare, g.Without (found.outEdges ++ found.inEdges) (found.captureOutEdges ++ found.captureInEdges) bare ∧
      g.removeNode node = (true, { bare with nodes := bare.nodes.release Node.deactivate node }) := by
  have first := g.without_foldl_removeCaptureEdge linked found.captureOutEdges
  have second := without_foldl_removeCaptureEdge _ first.linked found.captureInEdges
  have third := without_foldl_removeEdge _ second.linked found.outEdges
  have fourth := without_foldl_removeEdge _ third.linked found.inEdges
  have captures := first.append _ _ _ _ _ _ _ second
  have edges := third.append _ _ _ _ _ _ _ fourth
  have whole := captures.append _ _ _ _ _ _ _ edges
  simp only [List.nil_append, List.append_nil] at whole
  refine ⟨_, whole, ?_⟩
  unfold removeNode
  rw [there]

/-- The edges on the lists of a node are all the edges at it. -/
theorem unused_after_removal (linked : g.Linked) (node : Nat) (found : Node NodeProxy)
    (there : g.getNode node = some found) (bare : Graph NodeProxy EdgeProxy)
    (without : g.Without (found.outEdges ++ found.inEdges) (found.captureOutEdges ++ found.captureInEdges) bare)
    (e : Nat) : bare.sourceOf e ≠ some node ∧ bare.targetOf e ≠ some node ∧ bare.captureSourceOf e ≠ some node ∧
      bare.captureTargetOf e ≠ some node := by
  obtain ⟨place, -⟩ := (Slots.find_eq_some Node.alive g.nodes node found).mp there
  have listed (field : Node NodeProxy → List Nat) : g.listOf field node = field found := by
    unfold listOf
    rw [place]
    rfl
  refine ⟨?_, ?_, ?_, ?_⟩
  · intro reached
    unfold sourceOf at reached
    rw [without.getEdge e] at reached
    split at reached
    · contradiction
    · next other =>
        have member := ((linked.outEdges node).2 e).mpr reached
        rw [listed] at member
        exact other (List.mem_append_left _ member)
  · intro reached
    unfold targetOf at reached
    rw [without.getEdge e] at reached
    split at reached
    · contradiction
    · next other =>
        have member := ((linked.inEdges node).2 e).mpr reached
        rw [listed] at member
        exact other (List.mem_append_right _ member)
  · intro reached
    unfold captureSourceOf at reached
    rw [without.getCaptureEdge e] at reached
    split at reached
    · contradiction
    · next other =>
        have member := ((linked.captureOutEdges node).2 e).mpr reached
        rw [listed] at member
        exact other (List.mem_append_left _ member)
  · intro reached
    unfold captureTargetOf at reached
    rw [without.getCaptureEdge e] at reached
    split at reached
    · contradiction
    · next other =>
        have member := ((linked.captureInEdges node).2 e).mpr reached
        rw [listed] at member
        exact other (List.mem_append_right _ member)

theorem linked_removeNode (linked : g.Linked) (node : Nat) : (g.removeNode node).2.Linked := by
  cases there : g.getNode node with
  | none =>
      rw [g.removeNode_invalid node there]
      exact linked
  | some found =>
      obtain ⟨bare, without, same⟩ := g.removeNode_eq linked node found there
      obtain ⟨found', there'⟩ : ∃ found', bare.getNode node = some found' := by
        refine Option.isSome_iff_exists.mp ((without.isNodeValid node).trans ?_)
        unfold isNodeValid
        rw [there]
        rfl
      obtain ⟨place, -⟩ := (Slots.find_eq_some Node.alive bare.nodes node found').mp there'
      rw [congrArg Prod.snd same]
      refine bare.linked_of_cleared without.linked _ node
        (Slots.sound_release Node.alive Node.deactivate bare.nodes node found' (fun _ => rfl) there'
          without.linked.nodes) rfl rfl ?_ (g.unused_after_removal linked node found there bare without) ?_
      · intro field which m
        unfold listOf Slots.release
        rw [Slots.modified]
        by_cases hit : m = node
        · rw [if_pos hit, if_pos hit, hit, place]
          rcases which with rfl | rfl | rfl | rfl <;> rfl
        · rw [if_neg hit, if_neg hit]
      · intro m other valid
        have kept := Slots.find_release Node.alive Node.deactivate bare.nodes node found' (fun _ => rfl) there' m
        unfold isNodeValid getNode
        rw [kept, if_neg other]
        exact valid

/-- Graphs that differ in the labels of nodes and edges only. -/
structure Relabelled (g' : Graph NodeProxy EdgeProxy) : Prop where
  nodes : g'.nodes.Sound Node.alive
  edges : g'.edges.Sound Edge.alive
  captureEdges : g'.captureEdges = g.captureEdges
  valid : ∀ n, g'.isNodeValid n = g.isNodeValid n
  lists : ∀ field : Node NodeProxy → List Nat,
    (field = Node.outEdges ∨ field = Node.inEdges ∨ field = Node.captureOutEdges ∨
      field = Node.captureInEdges) → g'.listOf field = g.listOf field
  sources : ∀ e, g'.sourceOf e = g.sourceOf e
  targets : ∀ e, g'.targetOf e = g.targetOf e

theorem linked_of_relabelled (linked : g.Linked) (g' : Graph NodeProxy EdgeProxy) (relabelled : g.Relabelled g') :
    g'.Linked := by
  have sources : g'.sourceOf = g.sourceOf := funext relabelled.sources
  have targets : g'.targetOf = g.targetOf := funext relabelled.targets
  have captureSources : g'.captureSourceOf = g.captureSourceOf := by
    funext e
    unfold captureSourceOf Graph.getCaptureEdge
    rw [relabelled.captureEdges]
  have captureTargets : g'.captureTargetOf = g.captureTargetOf := by
    funext e
    unfold captureTargetOf Graph.getCaptureEdge
    rw [relabelled.captureEdges]
  refine ⟨relabelled.nodes, relabelled.edges, relabelled.captureEdges ▸ linked.captureEdges, ?_, ?_, ?_, ?_, ?_⟩
  · rw [sources, relabelled.lists _ (Or.inl rfl)]
    exact linked.outEdges
  · rw [targets, relabelled.lists _ (Or.inr (Or.inl rfl))]
    exact linked.inEdges
  · rw [captureSources, relabelled.lists _ (Or.inr (Or.inr (Or.inl rfl)))]
    exact linked.captureOutEdges
  · rw [captureTargets, relabelled.lists _ (Or.inr (Or.inr (Or.inr rfl)))]
    exact linked.captureInEdges
  · intro e n found
    rw [sources, targets, captureSources, captureTargets] at found
    rw [relabelled.valid n]
    exact linked.ends e n found

theorem relabelled_modifyNode (linked : g.Linked) (node : Nat) (f : Node NodeProxy → Node NodeProxy)
    (alive : ∀ x, (f x).alive = x.alive) (inEdges : ∀ x, (f x).inEdges = x.inEdges)
    (outEdges : ∀ x, (f x).outEdges = x.outEdges) (captureIn : ∀ x, (f x).captureInEdges = x.captureInEdges)
    (captureOut : ∀ x, (f x).captureOutEdges = x.captureOutEdges) : g.Relabelled (g.modifyNode node f) where
  nodes := Slots.sound_modify Node.alive g.nodes linked.nodes node f alive
  edges := linked.edges
  captureEdges := rfl
  valid := g.isNodeValid_modifyNode node f alive
  lists field which := by
    refine g.listOf_modifyNode_frame node f field ?_
    rcases which with rfl | rfl | rfl | rfl
    · exact outEdges
    · exact inEdges
    · exact captureOut
    · exact captureIn
  sources _ := rfl
  targets _ := rfl

theorem relabelled_modifyEdge (linked : g.Linked) (edge : Nat) (f : Edge EdgeProxy → Edge EdgeProxy)
    (alive : ∀ x, (f x).alive = x.alive) (source : ∀ x, (f x).source = x.source)
    (target : ∀ x, (f x).target = x.target) : g.Relabelled (g.modifyEdge edge f) := by
  have found (e : Nat) : (g.modifyEdge edge f).getEdge e =
      if e = edge then (g.getEdge e).map f else g.getEdge e :=
    Slots.find_modify Edge.alive g.edges edge e f alive
  refine ⟨linked.nodes, Slots.sound_modify Edge.alive g.edges linked.edges edge f alive, rfl, fun _ => rfl,
    fun _ _ => rfl, ?_, ?_⟩
  · intro e
    unfold sourceOf
    rw [found e]
    split
    · cases g.getEdge e with
      | none => rfl
      | some x => exact congrArg some (source x)
    · rfl
  · intro e
    unfold targetOf
    rw [found e]
    split
    · cases g.getEdge e with
      | none => rfl
      | some x => exact congrArg some (target x)
    · rfl

theorem createClock_invalid (name : String) (node : Nat) (invalid : ¬ g.isNodeValid node) :
    g.createClock name node = .error "TGraph::createClock: node is not a valid node" := by
  unfold createClock
  rw [if_pos invalid]

/-- Every live edge is changed, and no dead one. -/
def mapEdges (f : Edge EdgeProxy → Edge EdgeProxy) : Graph NodeProxy EdgeProxy :=
  { g with edges := { g.edges with slots := g.edges.slots.map (fun e => if e.alive then f e else e) } }

section mapEdges
variable (f : Edge EdgeProxy → Edge EdgeProxy) (alive : ∀ x, (f x).alive = x.alive)
include alive

theorem getEdge_mapEdges (e : Nat) : (g.mapEdges f).getEdge e = (g.getEdge e).map f := by
  unfold mapEdges getEdge Slots.find
  rw [List.getElem?_map]
  cases g.edges.slots[e]? with
  | none => rfl
  | some x =>
      by_cases living : x.alive
      · simp [Option.filter, living, alive]
      · simp [Option.filter, living]

theorem relabelled_mapEdges (linked : g.Linked) (source : ∀ x, (f x).source = x.source)
    (target : ∀ x, (f x).target = x.target) : g.Relabelled (g.mapEdges f) := by
  have kept (e : Edge EdgeProxy) : (if e.alive then f e else e).alive = e.alive := by
    split
    · exact alive e
    · rfl
  refine ⟨linked.nodes, ⟨?_, linked.edges.nodup, ?_⟩, rfl, fun _ => rfl, fun _ _ => rfl, ?_, ?_⟩
  · refine linked.edges.live.trans ?_
    unfold mapEdges
    rw [List.countP_map]
    refine List.countP_congr ?_
    intro x _
    rw [Function.comp_apply, kept]
  · intro id
    refine (linked.edges.free id).trans ?_
    simp only [mapEdges, List.getElem?_map]
    cases g.edges.slots[id]? with
    | none => simp
    | some x => simp [kept]
  · intro e
    unfold sourceOf
    rw [g.getEdge_mapEdges f alive e, Option.map_map]
    exact congrArg (fun read => Option.map read (g.getEdge e)) (funext source)
  · intro e
    unfold targetOf
    rw [g.getEdge_mapEdges f alive e, Option.map_map]
    exact congrArg (fun read => Option.map read (g.getEdge e)) (funext target)

end mapEdges

/-- What registering a clock does: every live edge gets masks of the new size. -/
theorem createClock_eq (linked : g.Linked) (name : String) (node : Nat) (valid : g.isNodeValid node) :
    ∃ g', g.createClock name node = .ok (g.clocks.length, g') ∧ g.Relabelled g' ∧
      g'.clocks = g.clocks ++ [⟨g.clocks.length, name, node⟩] ∧
      ∀ e, g'.getEdge e = (g.getEdge e).map (Edge.resizeClockMasks (g.clocks.length + 1)) := by
  let resize : Edge EdgeProxy → Edge EdgeProxy := Edge.resizeClockMasks (g.clocks.length + 1)
  have mapped := g.relabelled_mapEdges resize (fun _ => rfl) linked (fun _ => rfl) (fun _ => rfl)
  refine ⟨{ g.mapEdges resize with clocks := g.clocks ++ [⟨g.clocks.length, name, node⟩] }, ?_, ?_, rfl,
    g.getEdge_mapEdges resize (fun _ => rfl)⟩
  · unfold createClock
    rw [if_neg (not_not_intro valid)]
    simp only [List.length_append, List.length_singleton]
    rfl
  · exact ⟨mapped.nodes, mapped.edges, mapped.captureEdges, mapped.valid, mapped.lists, mapped.sources, mapped.targets⟩

theorem linked_apply (linked : g.Linked) (call : Call NodeProxy EdgeProxy) : (g.apply call).Linked := by
  cases call with
  | createNode proxy => exact g.linked_createNode linked proxy
  | createEdge source target proxy => exact g.linked_createEdge linked source target proxy
  | createCaptureEdge source target => exact g.linked_createCaptureEdge linked source target
  | removeEdge edge => exact (g.without_removeEdge linked edge).linked
  | removeCaptureEdge edge => exact (g.without_removeCaptureEdge linked edge).linked
  | removeNode node => exact g.linked_removeNode linked node
  | createClock name node =>
      by_cases valid : g.isNodeValid node
      · obtain ⟨g', made, relabelled, -⟩ := g.createClock_eq linked name node valid
        simp only [apply, made]
        exact g.linked_of_relabelled linked g' relabelled
      · simp only [apply, g.createClock_invalid name node valid]
        exact linked
  | setCellKind node kind =>
      simp only [apply]
      split
      · exact g.linked_of_relabelled linked _ (g.relabelled_modifyNode linked node _ (fun _ => rfl)
          (fun _ => rfl) (fun _ => rfl) (fun _ => rfl) (fun _ => rfl))
      · exact linked
  | setPinRole node role =>
      simp only [apply]
      split
      · exact g.linked_of_relabelled linked _ (g.relabelled_modifyNode linked node _ (fun _ => rfl)
          (fun _ => rfl) (fun _ => rfl) (fun _ => rfl) (fun _ => rfl))
      · exact linked
  | setDisabled edge disabled =>
      simp only [apply]
      split
      · exact g.linked_of_relabelled linked _ (g.relabelled_modifyEdge linked edge _ (fun _ => rfl)
          (fun _ => rfl) (fun _ => rfl))
      · exact linked
  | addFromClock edge clock =>
      simp only [apply]
      split
      · exact g.linked_of_relabelled linked _ (g.relabelled_modifyEdge linked edge _ (fun _ => rfl)
          (fun _ => rfl) (fun _ => rfl))
      · exact linked
  | addToClock edge clock =>
      simp only [apply]
      split
      · exact g.linked_of_relabelled linked _ (g.relabelled_modifyEdge linked edge _ (fun _ => rfl)
          (fun _ => rfl) (fun _ => rfl))
      · exact linked

@[simp] theorem length_resizeMask (count : Nat) (mask : ClockMask) : (resizeMask count mask).length = count := by
  rw [resizeMask, List.length_append, List.length_take, List.length_replicate]
  omega

/-- Fewer edges, and edges relabelled without touching the size of a mask. -/
theorem masksSized_of_edges (sized : g.MasksSized) (g' : Graph NodeProxy EdgeProxy) (clocks : g'.clocks = g.clocks)
    (edges : ∀ e edge, g'.getEdge e = some edge → ∃ old, g.getEdge e = some old ∧
      edge.fromClocks.length = old.fromClocks.length ∧ edge.toClocks.length = old.toClocks.length) :
    g'.MasksSized := by
  intro e edge found
  obtain ⟨old, there, fromSize, toSize⟩ := edges e edge found
  obtain ⟨fromClocks, toClocks⟩ := sized e old there
  rw [fromSize, toSize, clocks]
  exact ⟨fromClocks, toClocks⟩

theorem Without.masksSized (sized : g.MasksSized) (edges captureEdges : List Nat)
    (g' : Graph NodeProxy EdgeProxy) (without : g.Without edges captureEdges g') : g'.MasksSized := by
  refine g.masksSized_of_edges sized g' without.clocks ?_
  intro e edge found
  rw [without.getEdge e] at found
  split at found
  · contradiction
  · exact ⟨edge, found, rfl, rfl⟩

theorem masksSized_modifyEdge (sized : g.MasksSized) (edge : Nat) (f : Edge EdgeProxy → Edge EdgeProxy)
    (alive : ∀ x, (f x).alive = x.alive) (fromClocks : ∀ x, (f x).fromClocks.length = x.fromClocks.length)
    (toClocks : ∀ x, (f x).toClocks.length = x.toClocks.length) : (g.modifyEdge edge f).MasksSized := by
  refine g.masksSized_of_edges sized _ rfl ?_
  intro e changed found
  have looked : (g.modifyEdge edge f).getEdge e = if e = edge then (g.getEdge e).map f else g.getEdge e :=
    Slots.find_modify Edge.alive g.edges edge e f alive
  rw [looked] at found
  split at found
  · obtain ⟨old, there, rfl⟩ := Option.map_eq_some_iff.mp found
    exact ⟨old, there, fromClocks old, toClocks old⟩
  · exact ⟨changed, found, rfl, rfl⟩

theorem masksSized_apply (linked : g.Linked) (sized : g.MasksSized) (call : Call NodeProxy EdgeProxy) :
    (g.apply call).MasksSized := by
  cases call with
  | createNode proxy => exact sized
  | createEdge source target proxy =>
      by_cases valid : g.isNodeValid source ∧ g.isNodeValid target
      · obtain ⟨id, edges, made, -, -, found⟩ := g.createEdge_eq linked source target proxy valid.1 valid.2
        intro e edge there
        rw [apply, congrArg Prod.snd made] at there
        have looked := (found e).symm.trans there
        rw [apply, congrArg Prod.snd made]
        split at looked
        · obtain rfl := Option.some.inj looked
          exact ⟨length_resizeMask _ _, length_resizeMask _ _⟩
        · exact sized e edge looked
      · rw [apply, g.createEdge_invalid source target proxy valid]
        exact sized
  | createCaptureEdge source target =>
      by_cases valid : g.isNodeValid source ∧ g.isNodeValid target
      · obtain ⟨id, captureEdges, made, -⟩ := g.createCaptureEdge_eq linked source target valid.1 valid.2
        rw [apply, congrArg Prod.snd made]
        exact sized
      · rw [apply, g.createCaptureEdge_invalid source target valid]
        exact sized
  | removeEdge edge => exact (g.without_removeEdge linked edge).masksSized g sized _ _ _
  | removeCaptureEdge edge => exact (g.without_removeCaptureEdge linked edge).masksSized g sized _ _ _
  | removeNode node =>
      cases there : g.getNode node with
      | none =>
          rw [apply, g.removeNode_invalid node there]
          exact sized
      | some found =>
          obtain ⟨bare, without, same⟩ := g.removeNode_eq linked node found there
          rw [apply, congrArg Prod.snd same]
          exact without.masksSized g sized _ _ bare
  | createClock name node =>
      by_cases valid : g.isNodeValid node
      · obtain ⟨g', made, -, clocks, edges⟩ := g.createClock_eq linked name node valid
        simp only [apply, made]
        intro e edge found
        rw [edges e] at found
        obtain ⟨old, -, rfl⟩ := Option.map_eq_some_iff.mp found
        rw [clocks, List.length_append, List.length_singleton]
        exact ⟨length_resizeMask _ _, length_resizeMask _ _⟩
      · simp only [apply, g.createClock_invalid name node valid]
        exact sized
  | setCellKind node kind =>
      simp only [apply]
      split
      · exact sized
      · exact sized
  | setPinRole node role =>
      simp only [apply]
      split
      · exact sized
      · exact sized
  | setDisabled edge disabled =>
      simp only [apply]
      split
      · exact g.masksSized_modifyEdge sized edge _ (fun _ => rfl) (fun _ => rfl) (fun _ => rfl)
      · exact sized
  | addFromClock edge clock =>
      simp only [apply]
      split
      · exact g.masksSized_modifyEdge sized edge _ (fun _ => rfl) (fun _ => List.length_set) (fun _ => rfl)
      · exact sized
  | addToClock edge clock =>
      simp only [apply]
      split
      · exact g.masksSized_modifyEdge sized edge _ (fun _ => rfl) (fun _ => rfl) (fun _ => List.length_set)
      · exact sized

end Graph

/-- The call names a node or an edge that is not there. -/
def Call.Invalid {NodeProxy EdgeProxy : Type} (g : Graph NodeProxy EdgeProxy) : Call NodeProxy EdgeProxy → Prop
  | .createNode _ => False
  | .createEdge source target _ => ¬ (g.isNodeValid source ∧ g.isNodeValid target)
  | .createCaptureEdge source target => ¬ (g.isNodeValid source ∧ g.isNodeValid target)
  | .removeEdge edge => ¬ g.isEdgeValid edge
  | .removeCaptureEdge edge => ¬ g.isCaptureEdgeValid edge
  | .removeNode node => ¬ g.isNodeValid node
  | .createClock _ node => ¬ g.isNodeValid node
  | .setCellKind node _ => ¬ g.isNodeValid node
  | .setPinRole node _ => ¬ g.isNodeValid node
  | .setDisabled edge _ => ¬ g.isEdgeValid edge
  | .addFromClock edge _ => ¬ g.isEdgeValid edge
  | .addToClock edge _ => ¬ g.isEdgeValid edge

namespace Graph
variable {NodeProxy EdgeProxy : Type} (g : Graph NodeProxy EdgeProxy)

theorem apply_invalid (call : Call NodeProxy EdgeProxy) (invalid : call.Invalid g) : g.apply call = g := by
  cases call with
  | createNode proxy => contradiction
  | createEdge source target proxy => rw [apply, g.createEdge_invalid source target proxy invalid]
  | createCaptureEdge source target => rw [apply, g.createCaptureEdge_invalid source target invalid]
  | removeEdge edge => rw [apply, g.removeEdge_invalid edge (Option.not_isSome_iff_eq_none.mp invalid)]
  | removeCaptureEdge edge =>
      rw [apply, g.removeCaptureEdge_invalid edge (Option.not_isSome_iff_eq_none.mp invalid)]
  | removeNode node => rw [apply, g.removeNode_invalid node (Option.not_isSome_iff_eq_none.mp invalid)]
  | createClock name node => simp only [apply, g.createClock_invalid name node invalid]
  | setCellKind node kind => exact if_neg invalid
  | setPinRole node role => exact if_neg invalid
  | setDisabled edge disabled => exact if_neg invalid
  | addFromClock edge clock => exact if_neg invalid
  | addToClock edge clock => exact if_neg invalid

/-- What a sequence of calls keeps, from any sound graph on. -/
theorem sound_foldl_apply (calls : List (Call NodeProxy EdgeProxy)) (linked : g.Linked) (sized : g.MasksSized) :
    (calls.foldl apply g).Linked ∧ (calls.foldl apply g).MasksSized := by
  induction calls generalizing g with
  | nil => exact ⟨linked, sized⟩
  | cons call rest ih =>
      exact ih (g.apply call) (g.linked_apply linked call) (g.masksSized_apply linked sized call)

theorem linked_build (calls : List (Call NodeProxy EdgeProxy)) : (build calls).Linked ∧ (build calls).MasksSized :=
  sound_foldl_apply empty calls linked_empty nofun

/-- Every graph that calls build is sound: counts and free lists match the slots, adjacency lists
hold exactly the live edges, live edges have live ends and masks of the current size, a created edge
starts with clear masks whatever its slot held, and an invalid call changes nothing. -/
theorem build_keeps_storage (calls : List (Call NodeProxy EdgeProxy)) :
    ((build calls).Linked ∧ (build calls).MasksSized) ∧
      (∀ source target proxy id, ((build calls).createEdge source target proxy).1 = some id →
        ∃ edge, ((build calls).createEdge source target proxy).2.getEdge id = some edge ∧
          edge.source = source ∧ edge.target = target ∧ edge.disabled = false ∧
          edge.fromClocks = List.replicate (build calls).clocks.length false ∧
          edge.toClocks = List.replicate (build calls).clocks.length false) ∧
      ∀ call : Call NodeProxy EdgeProxy, call.Invalid (build calls) → (build calls).apply call = build calls := by
  refine ⟨linked_build calls, ?_, fun call invalid => (build calls).apply_invalid call invalid⟩
  intro source target proxy id made
  by_cases valid : (build calls).isNodeValid source ∧ (build calls).isNodeValid target
  · obtain ⟨id', edges, same, -, -, found⟩ := (build calls).createEdge_eq (linked_build calls).1 source target
      proxy valid.1 valid.2
    rw [congrArg Prod.fst same] at made
    obtain rfl := Option.some.inj made
    rw [congrArg Prod.snd same]
    refine ⟨_, (found id').trans (if_pos rfl), rfl, rfl, rfl, ?_, ?_⟩
    · simp [Edge.resizeClockMasks, Edge.create, resizeMask]
    · simp [Edge.resizeClockMasks, Edge.create, resizeMask]
  · rw [congrArg Prod.fst ((build calls).createEdge_invalid source target proxy valid)] at made
    contradiction

end Graph

end Naja.TGraph
