import Naja.TGraph.Forward

/-! The backward pass. It meets the targets of a node's enabled edges before the
node itself, so the capture mask it reads at a node is final: the clocks of the
capture edges that the node leads to without passing a flop data output. -/

namespace Naja.TGraph
open Naja.Arena Naja.Worklist

variable {NodeProxy EdgeProxy : Type}

namespace Graph
variable (g : Graph NodeProxy EdgeProxy)

def isFlopDataOutput (n : Nat) : Bool := (g.getNode n).any Node.isFlopDataOutput

/-- A path of enabled edges on which no node, ends included, is a flop data output. -/
def OpenPath (a b : Nat) : Prop :=
  g.isFlopDataOutput a = false ∧ Relation.ReflTransGen (fun x y => g.Step x y ∧ g.isFlopDataOutput y = false) a b

/-- A live capture edge ends at the node, and the clock reaches its source. -/
def Captured (c n : Nat) : Prop :=
  ∃ k edge, g.getCaptureEdge k = some edge ∧ edge.target = n ∧ g.ClockReaches c edge.source

/-- The node leads to the target of a capture edge whose source the clock reaches. -/
def CaptureReached (c n : Nat) : Prop :=
  ∃ k edge, g.getCaptureEdge k = some edge ∧ g.OpenPath n edge.target ∧ g.ClockReaches c edge.source

theorem captureReached_iff (c n : Nat) :
    g.CaptureReached c n ↔ g.isFlopDataOutput n = false ∧ (g.Captured c n ∨
      ∃ e edge, g.enabledEdge e = some edge ∧ edge.source = n ∧ g.CaptureReached c edge.target) := by
  constructor
  · rintro ⟨k, capture, there, ⟨opened, path⟩, reaches⟩
    refine ⟨opened, ?_⟩
    rcases Relation.ReflTransGen.cases_head path with same | ⟨next, ⟨⟨e, edge, enabled, source, target⟩, after⟩, rest⟩
    · exact Or.inl ⟨k, capture, there, same.symm, reaches⟩
    · refine Or.inr ⟨e, edge, enabled, source, k, capture, there, ⟨?_, ?_⟩, reaches⟩
      · rw [target]
        exact after
      · rw [target]
        exact rest
  · rintro ⟨opened, ⟨k, capture, there, rfl, reaches⟩ | ⟨e, edge, enabled, rfl, k, capture, there, ⟨after, rest⟩, reaches⟩⟩
    · exact ⟨k, capture, there, ⟨opened, Relation.ReflTransGen.refl⟩, reaches⟩
    · exact ⟨k, capture, there, ⟨opened, rest.head ⟨⟨e, edge, enabled, rfl, rfl⟩, after⟩⟩, reaches⟩

/-- Every live edge has its launch mask and a clear capture mask. -/
structure Launches : Prop where
  linked : g.Linked
  enabled : ∀ e edge, g.enabledEdge e = some edge → edge.fromClocks.length = g.clocks.length ∧
    ∀ c, edge.fromClocks.Has c ↔ g.ClockReaches c edge.source
  clear : ∀ e edge, g.getEdge e = some edge → edge.toClocks = List.replicate g.clocks.length false

end Graph

section atClock
variable (g : Graph NodeProxy EdgeProxy) (launches : g.Launches)
include launches

private theorem collect_spec (es : List Nat) (mask : ClockMask) (size : mask.length = g.clocks.length) :
    let collected := es.foldl (fun mask eid =>
      match g.enabledEdge eid with
      | none => mask
      | some incoming => maskOr mask incoming.fromClocks) mask
    collected.length = g.clocks.length ∧ ∀ c, collected.Has c ↔ mask.Has c ∨
      ∃ e ∈ es, ∃ edge, g.enabledEdge e = some edge ∧ g.ClockReaches c edge.source := by
  induction es generalizing mask with
  | nil => exact ⟨size, fun c => by simp⟩
  | cons eid rest ih =>
      rw [List.foldl_cons]
      cases enabled : g.enabledEdge eid with
      | none =>
          obtain ⟨length, members⟩ := ih mask size
          refine ⟨length, ?_⟩
          intro c
          rw [members c]
          simp [enabled]
      | some incoming =>
          obtain ⟨fits, from_⟩ := launches.enabled eid incoming enabled
          obtain ⟨length, members⟩ := ih (maskOr mask incoming.fromClocks)
            (by rw [length_maskOr _ _ (size.trans fits.symm)]; exact size)
          refine ⟨length, ?_⟩
          intro c
          rw [members c, has_maskOr _ _ (size.trans fits.symm), from_ c, or_assoc]
          simp [enabled]

/-- What reaches the source of a capture edge is read off its in-edges. -/
theorem atClock_spec (n : Nat) : (atClock g n).length = g.clocks.length ∧
    ∀ c, (atClock g n).Has c ↔ g.ClockReaches c n := by
  obtain ⟨size, seeds⟩ := seedMasks_spec g n
  obtain ⟨length, members⟩ := collect_spec g launches (g.getInEdges n) (seedMasks g n) size
  refine ⟨length, ?_⟩
  intro c
  refine (members c).trans ?_
  rw [seeds c, g.clockReaches_iff c n]
  refine or_congr_right ?_
  constructor
  · rintro ⟨e, member, edge, enabled, reaches⟩
    exact ⟨e, edge, enabled, (mem_getInEdges_of_enabled g launches.linked e edge enabled n).mp member, reaches⟩
  · rintro ⟨e, edge, enabled, target, reaches⟩
    exact ⟨e, (mem_getInEdges_of_enabled g launches.linked e edge enabled n).mpr target, edge, enabled, reaches⟩

private theorem captures_spec (captures : List CaptureEdge) (masks : Masks)
    (sizes : ∀ n, (masks n).length = g.clocks.length) (n : Nat) :
    let collected := captures.foldl
      (fun masks edge => masks.set edge.target (maskOr (masks edge.target) (atClock g edge.source))) masks
    (collected n).length = g.clocks.length ∧ ∀ c, (collected n).Has c ↔ (masks n).Has c ∨
      ∃ edge ∈ captures, edge.target = n ∧ g.ClockReaches c edge.source := by
  induction captures generalizing masks with
  | nil => exact ⟨sizes n, fun c => by simp⟩
  | cons capture rest ih =>
      obtain ⟨fits, clocks⟩ := atClock_spec g launches capture.source
      have same : (masks capture.target).length = (atClock g capture.source).length := (sizes _).trans fits.symm
      obtain ⟨length, members⟩ := ih (masks.set capture.target (maskOr (masks capture.target) (atClock g capture.source)))
        (fun m => by
          by_cases hit : m = capture.target
          · rw [hit, Masks.set_self, length_maskOr _ _ same]
            exact sizes _
          · rw [Masks.set_of_ne _ _ _ _ hit]
            exact sizes m)
      refine ⟨length, ?_⟩
      intro c
      refine (members c).trans ?_
      by_cases hit : n = capture.target
      · rw [hit, Masks.set_self, has_maskOr _ _ same, clocks c, or_assoc]
        simp
      · rw [Masks.set_of_ne _ _ _ _ hit]
        simp [Ne.symm hit]

theorem captureMasks_spec (n : Nat) : (captureMasks g n).length = g.clocks.length ∧
    ∀ c, (captureMasks g n).Has c ↔ g.Captured c n := by
  obtain ⟨length, members⟩ := captures_spec g launches (g.captureEdges.slots.filter CaptureEdge.alive)
    (fun _ => List.replicate g.clocks.length false) (fun _ => List.length_replicate) n
  refine ⟨length, ?_⟩
  intro c
  refine (members c).trans ?_
  constructor
  · rintro (none | ⟨edge, member, target, reaches⟩)
    · exact absurd none (has_empty _ c)
    · obtain ⟨stored, alive⟩ := List.mem_filter.mp member
      obtain ⟨k, place⟩ := List.mem_iff_getElem?.mp stored
      exact ⟨k, edge, (g.captureEdges.find_eq_some _ k edge).mpr ⟨place, alive⟩, target, reaches⟩
  · rintro ⟨k, edge, there, target, reaches⟩
    obtain ⟨place, alive⟩ := (g.captureEdges.find_eq_some _ k edge).mp there
    exact Or.inr ⟨edge, List.mem_filter.mpr ⟨List.mem_of_getElem? place, alive⟩, target, reaches⟩

end atClock

/-- The state of the backward pass after the edges that are `seen`. -/
structure Back (g : Graph NodeProxy EdgeProxy) (seen : Nat → Prop) (state : Graph NodeProxy EdgeProxy × Masks) :
    Prop where
  kept : Graph.Kept g state.1
  edges : ∀ e edge, g.getEdge e = some edge → ∃ mask : ClockMask,
    state.1.getEdge e = some (edge.setToClocks mask) ∧ mask.length = g.clocks.length ∧
      ∀ c, mask.Has c ↔ edge.disabled = false ∧ seen e ∧ g.CaptureReached c edge.target
  absent : ∀ e, g.getEdge e = none → state.1.getEdge e = none
  sizes : ∀ n, (state.2 n).length = g.clocks.length
  capture : ∀ n c, (state.2 n).Has c ↔ g.Captured c n ∨
    ∃ e edge, g.enabledEdge e = some edge ∧ edge.source = n ∧ seen e ∧ g.CaptureReached c edge.target

section backward
variable (g : Graph NodeProxy EdgeProxy)

theorem Back.initial (launches : g.Launches) : Back g (fun _ => False) (g, captureMasks g) where
  kept := ⟨launches.linked, rfl, rfl, rfl⟩
  edges e edge there := by
    refine ⟨edge.toClocks, there, ?_, ?_⟩
    · rw [launches.clear e edge there, List.length_replicate]
    · intro c
      rw [launches.clear e edge there]
      exact iff_of_false (has_empty _ c) (fun marked => marked.2.1)
  absent _ none := none
  sizes n := (captureMasks_spec g launches n).1
  capture n c := by
    refine ((captureMasks_spec g launches n).2 c).trans ?_
    simp

/-- Only edges that lead to a capture count, so the seen edges may be named in another way. -/
theorem Back.congr (seen seen' : Nat → Prop) (state : Graph NodeProxy EdgeProxy × Masks) (back : Back g seen state)
    (same : ∀ e edge, g.enabledEdge e = some edge → ∀ c, g.CaptureReached c edge.target → (seen e ↔ seen' e)) :
    Back g seen' state where
  kept := back.kept
  edges e edge there := by
    obtain ⟨mask, now, length, members⟩ := back.edges e edge there
    refine ⟨mask, now, length, ?_⟩
    intro c
    refine (members c).trans (and_congr_right ?_)
    intro on
    refine and_congr_left ?_
    intro reached
    exact same e edge ((g.enabledEdge_eq_some e edge).mpr ⟨there, on⟩) c reached
  absent := back.absent
  sizes := back.sizes
  capture n c := by
    refine (back.capture n c).trans (or_congr_right ?_)
    constructor
    · rintro ⟨e, edge, enabled, source, old, reached⟩
      exact ⟨e, edge, enabled, source, (same e edge enabled c reached).mp old, reached⟩
    · rintro ⟨e, edge, enabled, source, new, reached⟩
      exact ⟨e, edge, enabled, source, (same e edge enabled c reached).mpr new, reached⟩

/-- An edge of the state is enabled when it was so before the pass. -/
theorem Back.enabledEdge (seen : Nat → Prop) (state : Graph NodeProxy EdgeProxy × Masks) (back : Back g seen state)
    (e : Nat) : (g.enabledEdge e = none ∧ state.1.enabledEdge e = none) ∨
      ∃ edge mask, g.enabledEdge e = some edge ∧ state.1.getEdge e = some (edge.setToClocks mask) ∧
        state.1.enabledEdge e = some (edge.setToClocks mask) := by
  cases there : g.getEdge e with
  | none =>
      refine Or.inl ⟨?_, ?_⟩
      · simp [Graph.enabledEdge, there]
      · simp [Graph.enabledEdge, back.absent e there]
  | some edge =>
      obtain ⟨mask, now, -, -⟩ := back.edges e edge there
      by_cases off : edge.disabled
      · refine Or.inl ⟨?_, ?_⟩
        · simp [Graph.enabledEdge, there, Option.filter, off]
        · simp [Graph.enabledEdge, now, Option.filter, off, Edge.setToClocks]
      · refine Or.inr ⟨edge, mask, ?_, now, ?_⟩
        · simp [Graph.enabledEdge, there, Option.filter, off]
        · simp [Graph.enabledEdge, now, Option.filter, off, Edge.setToClocks]

/-- One in-edge of a node whose capture mask is final. -/
theorem Back.edge (seen : Nat → Prop) (state : Graph NodeProxy EdgeProxy × Masks) (back : Back g seen state)
    (n eid : Nat) (target : g.targetOf eid = some n)
    (final : ∀ c, (state.2 n).Has c ↔ g.CaptureReached c n) :
    Back g (fun e => seen e ∨ e = eid) (match state.1.enabledEdge eid with
      | none => state
      | some edge => (state.1.modifyEdge eid (Edge.setToClocks (state.2 n)),
          state.2.set edge.source (maskOr (state.2 edge.source) (state.2 n)))) := by
  rcases back.enabledEdge g seen state eid with ⟨off, offNow⟩ | ⟨edge, mask, enabled, now, enabledNow⟩
  · rw [offNow]
    refine back.congr g seen _ state ?_
    intro e edge enabled _ _
    refine ⟨Or.inl, ?_⟩
    rintro (old | rfl)
    · exact old
    · rw [enabled] at off
      contradiction
  · rw [enabledNow]
    obtain ⟨there, on⟩ := (g.enabledEdge_eq_some eid edge).mp enabled
    have targetIs : edge.target = n := by
      rw [Graph.targetOf, there] at target
      exact Option.some.inj target
    have same : (state.2 edge.source).length = (state.2 n).length := (back.sizes _).trans (back.sizes n).symm
    refine ⟨?_, ?_, ?_, ?_, ?_⟩
    · exact back.kept.modifyEdge g state.1 eid (Edge.setToClocks (state.2 n)) (fun _ => rfl) (fun _ => rfl) (fun _ => rfl)
    · intro e other placed
      have found := state.1.getEdge_modifyEdge eid (Edge.setToClocks (state.2 n)) (fun _ => rfl) e
      by_cases hit : e = eid
      · rw [hit] at placed
        obtain rfl := Option.some.inj (there.symm.trans placed)
        refine ⟨state.2 n, ?_, back.sizes n, ?_⟩
        · refine found.trans ?_
          rw [if_pos hit, hit, now]
          rfl
        · intro c
          rw [final c, targetIs]
          simp [on, hit]
      · obtain ⟨mask', now', length, members⟩ := back.edges e other placed
        refine ⟨mask', ?_, length, ?_⟩
        · refine found.trans ?_
          rw [if_neg hit]
          exact now'
        · intro c
          rw [members c]
          simp [hit]
    · intro e none
      refine (state.1.getEdge_modifyEdge eid (Edge.setToClocks (state.2 n)) (fun _ => rfl) e).trans ?_
      rw [back.absent e none]
      simp
    · intro m
      by_cases hit : m = edge.source
      · refine Eq.trans ?_ (back.sizes edge.source)
        rw [hit]
        exact (congrArg List.length (Masks.set_self _ _ _)).trans (length_maskOr _ _ same)
      · exact (congrArg List.length (Masks.set_of_ne _ _ _ _ hit)).trans (back.sizes m)
    · intro m c
      by_cases hit : m = edge.source
      · have value : (state.2.set edge.source (maskOr (state.2 edge.source) (state.2 n))) m =
            maskOr (state.2 edge.source) (state.2 n) := if_pos hit
        refine (iff_of_eq (congrArg (fun mask => ClockMask.Has mask c) value)).trans ?_
        rw [has_maskOr _ _ same, final c, back.capture edge.source c, or_assoc, hit]
        refine or_congr_right ?_
        constructor
        · rintro (⟨e, other, enabled', source, old, reached⟩ | reached)
          · exact ⟨e, other, enabled', source, Or.inl old, reached⟩
          · exact ⟨eid, edge, enabled, rfl, Or.inr rfl, targetIs ▸ reached⟩
        · rintro ⟨e, other, enabled', source, old | rfl, reached⟩
          · exact Or.inl ⟨e, other, enabled', source, old, reached⟩
          · obtain rfl := Option.some.inj (enabled.symm.trans enabled')
            exact Or.inr (targetIs ▸ reached)
      · have value : (state.2.set edge.source (maskOr (state.2 edge.source) (state.2 n))) m = state.2 m :=
          if_neg hit
        refine (iff_of_eq (congrArg (fun mask => ClockMask.Has mask c) value)).trans ?_
        rw [back.capture m c]
        refine or_congr_right ?_
        constructor
        · rintro ⟨e, other, enabled', source, old, reached⟩
          exact ⟨e, other, enabled', source, Or.inl old, reached⟩
        · rintro ⟨e, other, enabled', source, old | rfl, reached⟩
          · exact ⟨e, other, enabled', source, old, reached⟩
          · obtain rfl := Option.some.inj (enabled.symm.trans enabled')
            exact absurd source.symm hit

/-- All in-edges of a node whose out-edges are seen. -/
theorem Back.inEdges (seen : Nat → Prop) (state : Graph NodeProxy EdgeProxy × Masks) (back : Back g seen state)
    (n : Nat) (opened : g.isFlopDataOutput n = false)
    (ready : ∀ e edge, g.enabledEdge e = some edge → edge.source = n → seen e) (es : List Nat)
    (listed : ∀ e ∈ es, g.targetOf e = some n) :
    Back g (fun e => seen e ∨ e ∈ es) (es.foldl (fun (g, capture) eid =>
      match g.enabledEdge eid with
      | none => (g, capture)
      | some edge =>
          (g.modifyEdge eid (Edge.setToClocks (capture n)),
            capture.set edge.source (maskOr (capture edge.source) (capture n)))) state) := by
  induction es generalizing seen state with
  | nil =>
      refine back.congr g seen _ state ?_
      intro e _ _ _ _
      simp
  | cons eid rest ih =>
      have final (c : Nat) : (state.2 n).Has c ↔ g.CaptureReached c n := by
        rw [back.capture n c, g.captureReached_iff c n, and_iff_right opened]
        refine or_congr_right ?_
        constructor
        · rintro ⟨e, edge, enabled, source, -, reached⟩
          exact ⟨e, edge, enabled, source, reached⟩
        · rintro ⟨e, edge, enabled, source, reached⟩
          exact ⟨e, edge, enabled, source, ready e edge enabled source, reached⟩
      have first := back.edge g seen state n eid (listed eid List.mem_cons_self) final
      have later := ih _ _ first (fun e edge enabled source => Or.inl (ready e edge enabled source))
        (fun e member => listed e (List.mem_cons_of_mem _ member))
      refine later.congr g _ _ _ ?_
      intro e _ _ _ _
      rw [List.mem_cons, or_assoc]

theorem isFlopDataOutput_of_kept (g' : Graph NodeProxy EdgeProxy) (kept : Graph.Kept g g') (n : Nat) :
    g'.isFlopDataOutput n = g.isFlopDataOutput n := by
  unfold Graph.isFlopDataOutput Graph.getNode
  rw [kept.nodes]

theorem getInEdges_of_kept (g' : Graph NodeProxy EdgeProxy) (kept : Graph.Kept g g') (n : Nat) :
    g'.getInEdges n = g.getInEdges n := by
  unfold Graph.getInEdges Graph.getNode
  rw [kept.nodes]

/-- The edges whose target is one of the processed nodes. -/
def TargetIn (g : Graph NodeProxy EdgeProxy) (done : List Nat) (e : Nat) : Prop := ∃ n ∈ done, g.targetOf e = some n

theorem targetIn_iff (done : List Nat) (e : Nat) (edge : Edge EdgeProxy) (enabled : g.enabledEdge e = some edge) :
    TargetIn g done e ↔ edge.target ∈ done := by
  have target : g.targetOf e = some edge.target := by
    rw [Graph.targetOf, ((g.enabledEdge_eq_some e edge).mp enabled).1]
    rfl
  unfold TargetIn
  rw [target]
  simp

/-- One node of the backward pass. -/
theorem Back.node (linked : g.Linked) (done : List Nat) (state : Graph NodeProxy EdgeProxy × Masks)
    (back : Back g (TargetIn g done) state) (n : Nat)
    (ready : ∀ e edge, g.enabledEdge e = some edge → edge.source = n → edge.target ∈ done) :
    Back g (TargetIn g (done ++ [n])) (propagateBack state n) := by
  unfold propagateBack
  have skip := isFlopDataOutput_of_kept g state.1 back.kept n
  unfold Graph.isFlopDataOutput at skip
  rw [skip]
  cases stops : (g.getNode n).any Node.isFlopDataOutput with
  | true =>
      -- no capture is reached through the node, so its in-edges do not count
      refine back.congr g _ _ _ ?_
      intro e edge enabled c reached
      rw [targetIn_iff g done e edge enabled, targetIn_iff g (done ++ [n]) e edge enabled]
      have opened := ((g.captureReached_iff c edge.target).mp reached).1
      have other : edge.target ≠ n := by
        intro same
        rw [same, Graph.isFlopDataOutput, stops] at opened
        contradiction
      simp [other]
  | false =>
      rw [getInEdges_of_kept g state.1 back.kept n]
      have seen (e : Nat) (edge : Edge EdgeProxy) (enabled : g.enabledEdge e = some edge) (source : edge.source = n) :
          TargetIn g done e := (targetIn_iff g done e edge enabled).mpr (ready e edge enabled source)
      have all := back.inEdges g _ state n stops seen (g.getInEdges n)
        (fun e member => (g.mem_getInEdges linked n e).mp member)
      refine all.congr g _ _ _ ?_
      intro e edge enabled _ _
      rw [targetIn_iff g done e edge enabled, targetIn_iff g (done ++ [n]) e edge enabled,
        mem_getInEdges_of_enabled g linked e edge enabled n, List.mem_append, List.mem_singleton]

/-- The whole pass, over an order that has the sources of enabled edges before their targets. -/
theorem Back.nodes (linked : g.Linked) (done todo : List Nat) (state : Graph NodeProxy EdgeProxy × Masks)
    (back : Back g (TargetIn g done) state)
    (ready : ∀ front n later, todo = front ++ n :: later → ∀ e edge, g.enabledEdge e = some edge →
      edge.source = n → edge.target ∈ done ++ front) :
    Back g (TargetIn g (done ++ todo)) (todo.foldl propagateBack state) := by
  induction todo generalizing done state with
  | nil =>
      rw [List.append_nil]
      exact back
  | cons n rest ih =>
      have here (e : Nat) (edge : Edge EdgeProxy) (enabled : g.enabledEdge e = some edge) (source : edge.source = n) :
          edge.target ∈ done := by
        have found := ready [] n rest rfl e edge enabled source
        rwa [List.append_nil] at found
      have first := back.node g linked done state n here
      have later := ih (done ++ [n]) _ first (fun front m after split e edge enabled source => by
        have found := ready (n :: front) m after (by rw [split]; rfl) e edge enabled source
        rwa [List.append_assoc, List.singleton_append])
      rwa [List.append_assoc, List.singleton_append] at later

/-- What the backward pass does: the capture mask of an enabled edge holds the clocks captured
beyond its target. -/
theorem propagateBackward_spec (launches : g.Launches) (order : List Nat)
    (members : ∀ n, n ∈ order ↔ g.isNodeValid n)
    (sorted : ∀ i m, order[i]? = some m → ∀ e edge, g.enabledEdge e = some edge → edge.target = m →
      edge.source ∈ order.take i) (nodup : order.Nodup) :
    Graph.Kept g (propagateBackward g order) ∧
      ∀ e, (g.getEdge e = none → (propagateBackward g order).getEdge e = none) ∧
        ∀ edge, g.getEdge e = some edge → ∃ mask : ClockMask,
          (propagateBackward g order).getEdge e = some (edge.setToClocks mask) ∧ mask.length = g.clocks.length ∧
            ∀ c, mask.Has c ↔ edge.disabled = false ∧ g.CaptureReached c edge.target := by
  have start : Back g (TargetIn g []) (g, captureMasks g) :=
    (Back.initial g launches).congr g _ _ _ (fun e _ _ _ _ => by simp [TargetIn])
  have whole := start.nodes g launches.linked [] order.reverse _ (by
    intro front n later split e edge enabled source
    rw [List.nil_append]
    have whole : order = later.reverse ++ n :: front.reverse := by
      rw [← List.reverse_reverse order, split]
      simp
    have valid := (g.ends_of_enabled launches.linked e edge enabled).2
    obtain ⟨i, place⟩ := List.mem_iff_getElem?.mp ((members edge.target).mpr valid)
    have before := sorted i edge.target place e edge enabled rfl
    rw [source] at before
    -- the target comes after the place of n, which is the length of what is left
    by_contra absent
    obtain ⟨j, small, here⟩ := List.getElem_of_mem before
    rw [List.length_take] at small
    rw [List.getElem_take] at here
    have nAt : order[later.length]? = some n := by
      rw [whole, List.getElem?_append_right (by simp)]
      simp
    have position : j = later.length := by
      obtain ⟨inside, same⟩ := List.getElem?_eq_some_iff.mp nAt
      exact (List.Nodup.getElem_inj_iff nodup).mp (here.trans same.symm)
    have inside : edge.target ∈ front.reverse := by
      have shifted : order[i]? = front.reverse[i - later.length - 1]? := by
        rw [whole, List.getElem?_append_right (by simp; omega), List.length_reverse, List.getElem?_cons,
          if_neg (by omega)]
      rw [place] at shifted
      exact List.mem_of_getElem? shifted.symm
    exact absent (List.mem_reverse.mp inside))
  rw [List.nil_append] at whole
  refine ⟨whole.kept, fun e => ⟨whole.absent e, ?_⟩⟩
  intro edge there
  obtain ⟨mask, now, length, clocks⟩ := whole.edges e edge there
  refine ⟨mask, now, length, ?_⟩
  intro c
  refine (clocks c).trans (and_congr_right ?_)
  intro on
  refine and_iff_right ?_
  have enabled := (g.enabledEdge_eq_some e edge).mpr ⟨there, on⟩
  rw [targetIn_iff g _ e edge enabled, List.mem_reverse, members]
  exact (g.ends_of_enabled launches.linked e edge enabled).2

end backward

end Naja.TGraph
