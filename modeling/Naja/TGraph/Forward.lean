import Naja.TGraph.LoopBreaker
import Mathlib.Logic.Relation

/-! The forward pass. Without a cycle of enabled edges Kahn's algorithm meets every
live node once, after the sources of its enabled in-edges, and the mask it resolves
for a node holds the clocks that reach it. -/

namespace Naja.TGraph
open Naja.Arena Naja.Worklist

variable {NodeProxy EdgeProxy : Type}

/-- The clock is in the mask. -/
def ClockMask.Has (mask : ClockMask) (c : Nat) : Prop := mask.getD c false = true

theorem has_maskOr (left right : ClockMask) (same : left.length = right.length) (c : Nat) :
    (maskOr left right).Has c ↔ left.Has c ∨ right.Has c := by
  unfold ClockMask.Has maskOr
  simp only [List.getD_eq_getElem?_getD, List.getElem?_zipWith]
  by_cases inside : c < left.length
  · rw [List.getElem?_eq_getElem inside, List.getElem?_eq_getElem (same ▸ inside)]
    simp
  · rw [List.getElem?_eq_none (by omega), List.getElem?_eq_none (by omega)]
    simp

theorem length_maskOr (left right : ClockMask) (same : left.length = right.length) :
    (maskOr left right).length = left.length := by
  unfold maskOr
  rw [List.length_zipWith, same, Nat.min_self]

theorem has_empty (count c : Nat) : ¬ ClockMask.Has (List.replicate count false) c := by
  unfold ClockMask.Has
  rw [List.getD_eq_getElem?_getD, List.getElem?_replicate]
  split <;> simp

theorem has_set (mask : ClockMask) (c d : Nat) (inside : c < mask.length) :
    ClockMask.Has (mask.set c true) d ↔ d = c ∨ mask.Has d := by
  unfold ClockMask.Has
  rw [List.getD_eq_getElem?_getD, List.getD_eq_getElem?_getD]
  by_cases hit : d = c
  · rw [hit, List.getElem?_set_self inside]
    simp
  · rw [List.getElem?_set_ne (Ne.symm hit)]
    simp [hit]

@[simp] theorem Masks.set_self (masks : Masks) (n : Nat) (mask : ClockMask) : masks.set n mask n = mask := if_pos rfl

theorem Masks.set_of_ne (masks : Masks) (n m : Nat) (mask : ClockMask) (other : m ≠ n) :
    masks.set n mask m = masks m := if_neg other

namespace Graph
variable (g : Graph NodeProxy EdgeProxy)

/-- An enabled edge leads from `a` to `b`. -/
def Step (a b : Nat) : Prop := ∃ e edge, g.enabledEdge e = some edge ∧ edge.source = a ∧ edge.target = b

def Reaches : Nat → Nat → Prop := Relation.ReflTransGen g.Step

def Seeded (c n : Nat) : Prop := ∃ clock, g.clocks[c]? = some clock ∧ clock.node = n

/-- A path of enabled edges leads from the seed of the clock to the node. -/
def ClockReaches (c n : Nat) : Prop := ∃ clock, g.clocks[c]? = some clock ∧ g.Reaches clock.node n

theorem clockReaches_iff (c n : Nat) :
    g.ClockReaches c n ↔
      g.Seeded c n ∨ ∃ e edge, g.enabledEdge e = some edge ∧ edge.target = n ∧ g.ClockReaches c edge.source := by
  constructor
  · rintro ⟨clock, there, path⟩
    rcases Relation.ReflTransGen.cases_tail path with same | ⟨before, front, e, edge, enabled, source, target⟩
    · exact Or.inl ⟨clock, there, same.symm⟩
    · exact Or.inr ⟨e, edge, enabled, target, clock, there, source ▸ front⟩
  · rintro (⟨clock, there, rfl⟩ | ⟨e, edge, enabled, rfl, clock, there, front⟩)
    · exact ⟨clock, there, Relation.ReflTransGen.refl⟩
    · exact ⟨clock, there, front.tail ⟨e, edge, enabled, rfl, rfl⟩⟩

end Graph

/-- Seeding clocks `start`, `start + 1`, … on top of given masks. -/
theorem seed_spec (clocks : List Clock) (start size : Nat) (masks : Masks) (room : start + clocks.length ≤ size)
    (sizes : ∀ n, (masks n).length = size) (n : Nat) :
    ((clocks.zipIdx start).foldl (fun masks (clock, c) => masks.set clock.node ((masks clock.node).set c true))
      masks n).length = size ∧
    ∀ c, ((clocks.zipIdx start).foldl
      (fun masks (clock, c) => masks.set clock.node ((masks clock.node).set c true)) masks n).Has c ↔
        (masks n).Has c ∨ ∃ i clock, clocks[i]? = some clock ∧ clock.node = n ∧ c = start + i := by
  induction clocks generalizing start masks with
  | nil => exact ⟨sizes n, fun c => by simp⟩
  | cons clock rest ih =>
      rw [List.length_cons] at room
      have sizes' (m : Nat) : ((masks.set clock.node ((masks clock.node).set start true)) m).length = size := by
        unfold Masks.set
        split
        · rw [List.length_set]
          exact sizes clock.node
        · exact sizes m
      obtain ⟨length, members⟩ := ih (start + 1) _ (by omega) sizes'
      rw [List.zipIdx_cons, List.foldl_cons]
      refine ⟨length, ?_⟩
      intro c
      rw [members c]
      have first : (masks.set clock.node ((masks clock.node).set start true) n).Has c ↔
          (masks n).Has c ∨ (clock.node = n ∧ c = start) := by
        by_cases hit : n = clock.node
        · rw [hit, Masks.set_self, has_set _ _ _ (by rw [sizes]; omega), or_comm]
          simp
        · rw [Masks.set_of_ne _ _ _ _ hit]
          simp [Ne.symm hit]
      rw [first, or_assoc]
      refine or_congr_right ?_
      constructor
      · rintro (⟨node, rfl⟩ | ⟨i, clock', found, node, rfl⟩)
        · exact ⟨0, clock, rfl, node, rfl⟩
        · exact ⟨i + 1, clock', found, node, by omega⟩
      · rintro ⟨i, clock', found, node, rfl⟩
        cases i with
        | zero =>
            obtain rfl := Option.some.inj found
            exact Or.inl ⟨node, rfl⟩
        | succ i => exact Or.inr ⟨i, clock', found, node, by omega⟩

theorem seedMasks_spec (g : Graph NodeProxy EdgeProxy) (n : Nat) :
    (seedMasks g n).length = g.clocks.length ∧ ∀ c, (seedMasks g n).Has c ↔ g.Seeded c n := by
  obtain ⟨length, members⟩ := seed_spec g.clocks 0 g.clocks.length
    (fun _ => List.replicate g.clocks.length false) (by omega) (fun _ => List.length_replicate) n
  refine ⟨length, ?_⟩
  intro c
  refine (members c).trans ?_
  constructor
  · rintro (none | ⟨i, clock, found, node, rfl⟩)
    · exact absurd none (has_empty _ c)
    · exact ⟨clock, by rwa [Nat.zero_add], node⟩
  · rintro ⟨clock, found, node⟩
    exact Or.inr ⟨c, clock, found, node, by omega⟩

/-- The invariant of Kahn's algorithm; `relaxed` tells the edges it has passed. -/
structure KahnInv (g : Graph NodeProxy EdgeProxy) (relaxed : Nat → Bool) (k : Kahn) : Prop where
  degree : ∀ m, k.inDegree m = (g.getInEdges m).countP (fun e => (g.enabledEdge e).isSome && !relaxed e)
  queue : ∀ m, m ∈ k.queue ↔ g.isNodeValid m ∧ k.inDegree m = 0
  nodup : k.queue.Nodup
  order : ∀ i m, k.queue[i]? = some m → ∀ e edge, g.enabledEdge e = some edge → edge.target = m →
    edge.source ∈ k.queue.take i
  sources : ∀ e, relaxed e → ∃ edge, g.enabledEdge e = some edge ∧ edge.source ∈ k.queue
  sizes : ∀ m, (k.resolved m).length = g.clocks.length
  resolved : ∀ m c, (k.resolved m).Has c ↔ g.Seeded c m ∨
    ∃ e edge, relaxed e ∧ g.enabledEdge e = some edge ∧ edge.target = m ∧ g.ClockReaches c edge.source

section forward
variable (g : Graph NodeProxy EdgeProxy) (linked : g.Linked)
include linked

theorem mem_getInEdges_of_enabled (e : Nat) (edge : Edge EdgeProxy) (enabled : g.enabledEdge e = some edge)
    (m : Nat) : e ∈ g.getInEdges m ↔ edge.target = m := by
  rw [g.mem_getInEdges linked, Graph.targetOf, ((g.enabledEdge_eq_some e edge).mp enabled).1, Option.map_some,
    Option.some.injEq]

/-- A queued node has all its enabled in-edges relaxed. -/
theorem KahnInv.relaxed_of_queued (relaxed : Nat → Bool) (k : Kahn) (inv : KahnInv g relaxed k) (n : Nat)
    (queued : n ∈ k.queue) (e : Nat) (edge : Edge EdgeProxy) (enabled : g.enabledEdge e = some edge)
    (target : edge.target = n) : relaxed e := by
  have none := ((inv.queue n).mp queued).2
  rw [inv.degree n] at none
  have zero := List.countP_eq_zero.mp (Int.ofNat_eq_zero.mp none) e
    ((mem_getInEdges_of_enabled g linked e edge enabled n).mpr target)
  simpa [enabled] using zero

/-- The mask of a queued node is final. -/
theorem KahnInv.resolved_of_queued (relaxed : Nat → Bool) (k : Kahn) (inv : KahnInv g relaxed k) (n : Nat)
    (queued : n ∈ k.queue) (c : Nat) : (k.resolved n).Has c ↔ g.ClockReaches c n := by
  rw [inv.resolved n c, g.clockReaches_iff c n]
  refine or_congr_right ?_
  constructor
  · rintro ⟨e, edge, -, enabled, target, reaches⟩
    exact ⟨e, edge, enabled, target, reaches⟩
  · rintro ⟨e, edge, enabled, target, reaches⟩
    exact ⟨e, edge, inv.relaxed_of_queued g linked relaxed k n queued e edge enabled target, enabled, target, reaches⟩

omit linked in
private theorem countP_without (xs : List Nat) (nodup : xs.Nodup) (e : Nat) (member : e ∈ xs) (p q : Nat → Bool)
    (counted : p e) (dropped : q e = false) (same : ∀ x, x ≠ e → q x = p x) :
    xs.countP p = xs.countP q + 1 := by
  have perm := List.perm_cons_erase member
  rw [perm.countP_eq p, perm.countP_eq q, List.countP_cons_of_pos counted, List.countP_cons_of_neg (by simp [dropped])]
  congr 1
  refine List.countP_congr ?_
  intro x inRest
  have other : x ≠ e := (nodup.mem_erase_iff.mp inRest).1
  rw [same x other]

/-- Relaxing one enabled out-edge of a queued node. -/
theorem KahnInv.relax (relaxed : Nat → Bool) (k : Kahn) (inv : KahnInv g relaxed k) (n : Nat) (queued : n ∈ k.queue)
    (e : Nat) (edge : Edge EdgeProxy) (enabled : g.enabledEdge e = some edge) (source : edge.source = n)
    (fresh : relaxed e = false) :
    KahnInv g (fun e' => relaxed e' || e' == e) (relax g n k e) := by
  have member := (mem_getInEdges_of_enabled g linked e edge enabled edge.target).mpr rfl
  have nodup : (g.getInEdges edge.target).Nodup := by
    have valid := (g.ends_of_enabled linked e edge enabled).2
    obtain ⟨node, there⟩ := Option.isSome_iff_exists.mp valid
    obtain ⟨place, -⟩ := (Slots.find_eq_some Node.alive g.nodes edge.target node).mp there
    have lists := (linked.inEdges edge.target).1
    unfold Graph.listOf at lists
    rw [place] at lists
    unfold Graph.getInEdges
    rw [there]
    exact lists
  have counted := countP_without (g.getInEdges edge.target) nodup e member
    (fun e => (g.enabledEdge e).isSome && !relaxed e)
    (fun e' => (g.enabledEdge e').isSome && !(relaxed e' || e' == e)) (by simp [enabled, fresh]) (by simp)
    (fun x other => by simp [beq_false_of_ne other])
  have degree := inv.degree edge.target
  have positive : k.inDegree edge.target - 1 = (g.getInEdges edge.target).countP
      (fun e' => (g.enabledEdge e').isSome && !(relaxed e' || e' == e)) := by
    rw [degree, counted]
    push_cast
    omega
  have notQueued : edge.target ∉ k.queue := by
    intro queued'
    have none := ((inv.queue edge.target).mp queued').2
    omega
  have extended (m : Nat) : m ∈ (if k.inDegree edge.target - 1 = 0 then k.queue ++ [edge.target] else k.queue) ↔
      m ∈ k.queue ∨ (m = edge.target ∧ k.inDegree edge.target - 1 = 0) := by
    split
    · next zero => simp [zero]
    · next more => simp [more]
  unfold TGraph.relax
  rw [enabled]
  refine ⟨?_, ?_, ?_, ?_, ?_, ?_, ?_⟩
  · intro m
    simp only
    by_cases hit : m = edge.target
    · rw [if_pos hit, hit]
      exact positive
    · rw [if_neg hit, inv.degree m]
      congr 1
      refine List.countP_congr ?_
      intro e' inList
      have other : e' ≠ e := by
        rintro rfl
        exact hit ((mem_getInEdges_of_enabled g linked e' edge enabled m).mp inList).symm
      simp [other]
  · intro m
    simp only
    rw [extended m, inv.queue m]
    by_cases hit : m = edge.target
    · have valid := (g.ends_of_enabled linked e edge enabled).2
      rw [if_pos hit, hit]
      simp only [valid, true_and]
      omega
    · simp [hit]
  · simp only
    split
    · rw [← List.concat_eq_append]
      exact inv.nodup.concat notQueued
    · exact inv.nodup
  · intro i m found e' edge' enabled' target
    simp only at found ⊢
    split at found
    · next zero =>
        rw [if_pos zero]
        by_cases inside : i < k.queue.length
        · rw [List.getElem?_append_left inside] at found
          rw [List.take_append_of_le_length (Nat.le_of_lt inside)]
          exact inv.order i m found e' edge' enabled' target
        · -- the new node stands last, after the sources of all its edges
          have last : i = k.queue.length ∧ m = edge.target := by
            rw [List.getElem?_append_right (by omega)] at found
            obtain ⟨bound, same⟩ := List.getElem?_eq_some_iff.mp found
            rw [List.length_singleton] at bound
            refine ⟨by omega, ?_⟩
            simpa using same.symm
          rw [last.1, List.take_left']
          · by_cases same : e' = e
            · rw [same, enabled] at enabled'
              rw [← Option.some.inj enabled', source]
              exact queued
            · have none := positive.symm.trans zero
              have zeroCount := List.countP_eq_zero.mp (Int.ofNat_eq_zero.mp none) e'
                ((mem_getInEdges_of_enabled g linked e' edge' enabled' edge.target).mpr (target.trans last.2))
              have passed : relaxed e' := by simpa [enabled', same] using zeroCount
              obtain ⟨edge'', enabled'', inQueue⟩ := inv.sources e' passed
              rw [enabled'] at enabled''
              rw [Option.some.inj enabled'']
              exact inQueue
          · rfl
    · next more =>
        rw [if_neg more]
        exact inv.order i m found e' edge' enabled' target
  · intro e' passed
    simp only [Bool.or_eq_true, beq_iff_eq] at passed
    rcases passed with old | rfl
    · obtain ⟨edge', enabled', inQueue⟩ := inv.sources e' old
      exact ⟨edge', enabled', (extended edge'.source).mpr (Or.inl inQueue)⟩
    · exact ⟨edge, enabled, (extended edge.source).mpr (Or.inl (source ▸ queued))⟩
  · intro m
    simp only
    by_cases hit : m = edge.target
    · rw [hit, Masks.set_self, length_maskOr _ _ ((inv.sizes _).trans (inv.sizes n).symm)]
      exact inv.sizes _
    · rw [Masks.set_of_ne _ _ _ _ hit]
      exact inv.sizes m
  · intro m c
    simp only
    by_cases hit : m = edge.target
    · rw [hit, Masks.set_self, has_maskOr _ _ ((inv.sizes _).trans (inv.sizes n).symm), inv.resolved edge.target c,
        inv.resolved_of_queued g linked relaxed k n queued c, or_assoc]
      refine or_congr_right ?_
      constructor
      · rintro (⟨e', edge', passed, enabled', target, reaches⟩ | reaches)
        · exact ⟨e', edge', by simp [passed], enabled', target, reaches⟩
        · exact ⟨e, edge, by simp, enabled, rfl, source ▸ reaches⟩
      · rintro ⟨e', edge', passed, enabled', target, reaches⟩
        simp only [Bool.or_eq_true, beq_iff_eq] at passed
        rcases passed with old | rfl
        · exact Or.inl ⟨e', edge', old, enabled', target, reaches⟩
        · rw [enabled] at enabled'
          rw [← Option.some.inj enabled', source] at reaches
          exact Or.inr reaches
    · rw [Masks.set_of_ne _ _ _ _ hit, inv.resolved m c]
      refine or_congr_right ?_
      constructor
      · rintro ⟨e', edge', passed, enabled', target, reaches⟩
        exact ⟨e', edge', by simp [passed], enabled', target, reaches⟩
      · rintro ⟨e', edge', passed, enabled', target, reaches⟩
        simp only [Bool.or_eq_true, beq_iff_eq] at passed
        rcases passed with old | rfl
        · exact ⟨e', edge', old, enabled', target, reaches⟩
        · rw [enabled] at enabled'
          rw [← Option.some.inj enabled'] at target
          exact absurd target.symm hit

omit linked in
theorem relax_queue (n : Nat) (k : Kahn) (e : Nat) : k.queue <+: (TGraph.relax g n k e).queue ∧
    (TGraph.relax g n k e).qi = k.qi := by
  unfold TGraph.relax
  split
  · exact ⟨List.prefix_refl _, rfl⟩
  · refine ⟨?_, rfl⟩
    simp only
    split
    · exact List.prefix_append _ _
    · exact List.prefix_refl _

/-- Relaxing out-edges of a queued node that were not relaxed before. -/
theorem KahnInv.relaxAll (n : Nat) (es : List Nat) (nodup : es.Nodup)
    (listed : ∀ e ∈ es, g.sourceOf e = some n) (relaxed : Nat → Bool) (k : Kahn) (inv : KahnInv g relaxed k)
    (queued : n ∈ k.queue) (fresh : ∀ e ∈ es, relaxed e = false) :
    KahnInv g (fun e => relaxed e || (es.contains e && (g.enabledEdge e).isSome)) (es.foldl (TGraph.relax g n) k) ∧
      k.queue <+: (es.foldl (TGraph.relax g n) k).queue ∧ (es.foldl (TGraph.relax g n) k).qi = k.qi := by
  induction es generalizing k relaxed with
  | nil =>
      have same : (fun e => relaxed e || (([] : List Nat).contains e && (g.enabledEdge e).isSome)) = relaxed := by
        funext e
        simp
      rw [same]
      exact ⟨inv, List.prefix_refl _, rfl⟩
  | cons e rest ih =>
      rw [List.nodup_cons] at nodup
      obtain ⟨grows, steady⟩ := relax_queue g n k e
      rw [List.foldl_cons]
      -- the edges passed after the first one of the list
      have first : KahnInv g (fun e' => relaxed e' || (e' == e && (g.enabledEdge e').isSome)) (TGraph.relax g n k e) := by
        cases enabled : g.enabledEdge e with
        | none =>
            have same : (fun e' => relaxed e' || (e' == e && (g.enabledEdge e').isSome)) = relaxed := by
              funext e'
              by_cases hit : e' = e
              · simp [hit, enabled]
              · simp [beq_false_of_ne hit]
            have idle : TGraph.relax g n k e = k := by
              unfold TGraph.relax
              rw [enabled]
            rw [same, idle]
            exact inv
        | some edge =>
            have same : (fun e' => relaxed e' || (e' == e && (g.enabledEdge e').isSome)) =
                fun e' => relaxed e' || e' == e := by
              funext e'
              by_cases hit : e' = e
              · simp [hit, enabled]
              · simp [beq_false_of_ne hit]
            rw [same]
            refine inv.relax g linked relaxed k n queued e edge enabled ?_ (fresh e List.mem_cons_self)
            have source := listed e List.mem_cons_self
            rw [Graph.sourceOf, ((g.enabledEdge_eq_some e edge).mp enabled).1] at source
            exact Option.some.inj source
      obtain ⟨held, further, qi⟩ := ih nodup.2 (fun e' member => listed e' (List.mem_cons_of_mem _ member)) _ _ first
        (grows.subset queued) (fun e' member => by
          have other : e' ≠ e := by
            rintro rfl
            exact nodup.1 member
          simp [fresh e' (List.mem_cons_of_mem _ member), beq_false_of_ne other])
      refine ⟨?_, grows.trans further, qi.trans steady⟩
      have same : (fun e' => (relaxed e' || (e' == e && (g.enabledEdge e').isSome)) ||
          (rest.contains e' && (g.enabledEdge e').isSome)) =
          fun e' => relaxed e' || ((e :: rest).contains e' && (g.enabledEdge e').isSome) := by
        funext e'
        rw [List.contains_cons, Bool.and_or_distrib_right, Bool.or_assoc]
      rw [← same]
      exact held

/-- The edges whose source has been processed. -/
def Kahn.passed (g : Graph NodeProxy EdgeProxy) (k : Kahn) (e : Nat) : Bool :=
  (g.enabledEdge e).any (fun edge => (k.queue.take k.qi).contains edge.source)

theorem nodup_getOutEdges (n : Nat) : (g.getOutEdges n).Nodup := by
  unfold Graph.getOutEdges
  cases there : g.getNode n with
  | none => exact List.nodup_nil
  | some node =>
      obtain ⟨place, -⟩ := (Slots.find_eq_some Node.alive g.nodes n node).mp there
      have lists := (linked.outEdges n).1
      unfold Graph.listOf at lists
      rw [place] at lists
      exact lists

/-- Processing the next node of the queue. -/
theorem KahnInv.step (k k' : Kahn) (inv : KahnInv g (k.passed g) k) (bound : k.qi ≤ k.queue.length)
    (taken : k.step g = some k') :
    KahnInv g (k'.passed g) k' ∧ k'.qi ≤ k'.queue.length ∧ k'.qi = k.qi + 1 := by
  unfold Kahn.step at taken
  split at taken
  · contradiction
  · next n next =>
      obtain rfl := Option.some.inj taken
      obtain ⟨inside, here⟩ := List.getElem?_eq_some_iff.mp next
      have queued : n ∈ k.queue := List.mem_of_getElem? next
      have unprocessed : n ∉ k.queue.take k.qi := by
        intro member
        obtain ⟨j, small, same⟩ := List.getElem_of_mem member
        rw [List.getElem_take] at same
        rw [List.length_take] at small
        have equal := (List.Nodup.getElem_inj_iff inv.nodup).mp (same.trans here.symm)
        omega
      have source (e : Nat) (member : e ∈ g.getOutEdges n) : g.sourceOf e = some n :=
        (g.mem_getOutEdges linked n e).mp member
      have sourceOf (e : Nat) (edge : Edge EdgeProxy) (enabled : g.enabledEdge e = some edge) :
          g.sourceOf e = some edge.source := by
        rw [Graph.sourceOf, ((g.enabledEdge_eq_some e edge).mp enabled).1]
        rfl
      obtain ⟨held, grows, qi⟩ := inv.relaxAll g linked n (g.getOutEdges n) (nodup_getOutEdges g linked n)
        source _ k queued (fun e member => by
          unfold Kahn.passed
          cases enabled : g.enabledEdge e with
          | none => rfl
          | some edge =>
              have same := Option.some.inj ((sourceOf e edge enabled).symm.trans (source e member))
              simpa [same] using unprocessed)
      obtain ⟨extra, whole⟩ := grows
      have prefixed : ((g.getOutEdges n).foldl (TGraph.relax g n) k).queue.take (k.qi + 1) =
          k.queue.take k.qi ++ [n] := by
        rw [← whole, List.take_append_of_le_length (by omega), List.take_add_one, next]
        rfl
      have passes : Kahn.passed g { (g.getOutEdges n).foldl (TGraph.relax g n) k with qi := k.qi + 1 } =
          fun e => k.passed g e || ((g.getOutEdges n).contains e && (g.enabledEdge e).isSome) := by
        funext e
        unfold Kahn.passed
        cases enabled : g.enabledEdge e with
        | none => simp
        | some edge =>
            simp only [Option.any_some, prefixed, Option.isSome_some, Bool.and_true]
            rw [Bool.eq_iff_iff]
            simp only [List.contains_iff_mem, List.mem_append, List.mem_singleton, Bool.or_eq_true]
            rw [g.mem_getOutEdges linked n e, sourceOf e edge enabled, Option.some.injEq]
      refine ⟨?_, ?_, rfl⟩
      · rw [passes]
        exact ⟨held.degree, held.queue, held.nodup, held.order, held.sources, held.sizes, held.resolved⟩
      · change k.qi + 1 ≤ ((g.getOutEdges n).foldl (TGraph.relax g n) k).queue.length
        rw [← whole, List.length_append]
        omega

theorem KahnInv.initial : KahnInv g ((Kahn.initial g).passed g) (Kahn.initial g) := by
  have passed (e : Nat) : (Kahn.initial g).passed g e = false := by
    unfold Kahn.passed Kahn.initial
    cases g.enabledEdge e <;> simp
  have counts (m : Nat) : (g.getInEdges m).countP (fun e => (g.enabledEdge e).isSome && !(Kahn.initial g).passed g e) =
      (g.getInEdges m).countP (fun e => (g.enabledEdge e).isSome) := by
    refine List.countP_congr ?_
    intro e _
    rw [passed e]
    simp
  have degrees (m : Nat) : (Kahn.initial g).inDegree m = inDegrees g m := rfl
  have queue (m : Nat) : m ∈ (Kahn.initial g).queue ↔ g.isNodeValid m ∧ (Kahn.initial g).inDegree m = 0 := by
    rw [degrees]
    unfold Kahn.initial
    rw [List.mem_filter, List.mem_range, Bool.and_eq_true, beq_iff_eq]
    exact ⟨fun found => found.2, fun found => ⟨g.valid_lt m found.1, found⟩⟩
  refine ⟨?_, queue, List.nodup_range.filter _, ?_, ?_, ?_, ?_⟩
  · intro m
    rw [counts m]
    rfl
  · intro i m found e edge enabled target
    have none := ((queue m).mp (List.mem_of_getElem? found)).2
    rw [degrees] at none
    have absent := List.countP_eq_zero.mp (Int.ofNat_eq_zero.mp none) e
      ((mem_getInEdges_of_enabled g linked e edge enabled m).mpr target)
    simp [enabled] at absent
  · intro e relaxed
    rw [passed e] at relaxed
    contradiction
  · intro m
    exact (seedMasks_spec g m).1
  · intro m c
    refine ((seedMasks_spec g m).2 c).trans ?_
    constructor
    · exact Or.inl
    · rintro (seeded | ⟨e, edge, relaxed, -⟩)
      · exact seeded
      · rw [passed e] at relaxed
        contradiction

omit linked in
/-- The queue never outgrows the slots. -/
theorem KahnInv.length_le (relaxed : Nat → Bool) (k : Kahn) (inv : KahnInv g relaxed k) :
    k.queue.length ≤ g.nodes.slots.length := by
  have inside : ∀ n ∈ k.queue, n ∈ List.range g.nodes.slots.length := by
    intro n member
    exact List.mem_range.mpr (g.valid_lt n ((inv.queue n).mp member).1)
  have bound := (inv.nodup.subperm inside).length_le
  rwa [List.length_range] at bound

/-- When the queue is used up, every live node has been in it. -/
theorem KahnInv.complete (acyclic : g.Acyclic) (k : Kahn) (inv : KahnInv g (k.passed g) k)
    (ended : k.queue.length ≤ k.qi) (m : Nat) (valid : g.isNodeValid m) : m ∈ k.queue := by
  obtain ⟨rank, bound, ranks, down⟩ := acyclic
  -- along enabled edges the rank goes down, so the sources are met by a smaller distance to the bound
  induction distance : bound - rank m using Nat.strong_induction_on generalizing m with
  | h distance ih =>
      refine (inv.queue m).mpr ⟨valid, ?_⟩
      rw [inv.degree m, Int.natCast_eq_zero, List.countP_eq_zero]
      intro e member counted
      obtain ⟨edge, enabled⟩ : ∃ edge, g.enabledEdge e = some edge := by
        refine Option.isSome_iff_exists.mp ?_
        simpa using (Bool.and_eq_true_iff.mp counted).1
      have target := (mem_getInEdges_of_enabled g linked e edge enabled m).mp member
      have validSource := (g.ends_of_enabled linked e edge enabled).1
      have above := down e edge enabled
      rw [target] at above
      have small := ranks edge.source validSource
      have inQueue := ih (bound - rank edge.source) (by omega) edge.source validSource rfl
      have passed : k.passed g e := by
        unfold Kahn.passed
        rw [enabled, Option.any_some, List.take_of_length_le ended]
        simpa using inQueue
      rw [passed] at counted
      simp at counted

end forward

private theorem countP_range (p : Node NodeProxy → Bool) (slots : List (Node NodeProxy)) :
    (List.range slots.length).countP (fun i => (slots[i]?).any p) = slots.countP p := by
  induction slots using List.reverseRecOn with
  | nil => rfl
  | append_singleton front last ih =>
      rw [List.length_append, List.length_singleton, List.range_succ, List.countP_append, List.countP_append,
        List.countP_singleton, List.getElem?_append_right (Nat.le_refl _), Nat.sub_self, ← ih]
      congr 1
      · refine List.countP_congr ?_
        intro i member
        rw [List.getElem?_append_left (List.mem_range.mp member)]
      · rw [List.countP_singleton]
        rfl

/-- A list of the live nodes without repetition is as long as the live count. -/
theorem length_of_live (g : Graph NodeProxy EdgeProxy) (linked : g.Linked) (queue : List Nat) (nodup : queue.Nodup)
    (members : ∀ n, n ∈ queue ↔ g.isNodeValid n) : queue.length = g.nodes.live := by
  have perm : queue.Perm ((List.range g.nodes.slots.length).filter g.isNodeValid) := by
    refine (List.perm_ext_iff_of_nodup nodup (List.nodup_range.filter _)).mpr ?_
    intro n
    rw [members n, List.mem_filter, List.mem_range]
    exact ⟨fun valid => ⟨g.valid_lt n valid, valid⟩, fun found => found.2⟩
  rw [perm.length_eq, ← List.countP_eq_length_filter, linked.nodes.live, ← countP_range]
  refine List.countP_congr ?_
  intro n _
  unfold Graph.isNodeValid Graph.getNode Slots.find
  cases g.nodes.slots[n]? with
  | none => simp
  | some node => by_cases living : node.alive <;> simp [Option.filter, living]

/-- Graphs with the same nodes, capture edges and clocks. -/
structure Graph.Kept (g g' : Graph NodeProxy EdgeProxy) : Prop where
  linked : g'.Linked
  nodes : g'.nodes = g.nodes
  captureEdges : g'.captureEdges = g.captureEdges
  clocks : g'.clocks = g.clocks

theorem Graph.Kept.modifyEdge (g g' : Graph NodeProxy EdgeProxy) (kept : Graph.Kept g g') (eid : Nat)
    (f : Edge EdgeProxy → Edge EdgeProxy) (alive : ∀ x, (f x).alive = x.alive)
    (source : ∀ x, (f x).source = x.source) (target : ∀ x, (f x).target = x.target) :
    Graph.Kept g (g'.modifyEdge eid f) :=
  ⟨g'.linked_of_relabelled kept.linked _ (g'.relabelled_modifyEdge kept.linked eid f alive source target),
    kept.nodes, kept.captureEdges, kept.clocks⟩

/-- An enabled edge with the mask of its source. -/
def Edge.launch (resolved : Masks) (edge : Edge EdgeProxy) : Edge EdgeProxy :=
  if edge.disabled then edge else edge.setFromClocks (resolved edge.source)

/-- The edges of `done` have got their launch masks. -/
structure Launched (g : Graph NodeProxy EdgeProxy) (resolved : Masks) (done : List Nat)
    (g' : Graph NodeProxy EdgeProxy) : Prop where
  kept : Graph.Kept g g'
  edges : ∀ e, g'.getEdge e = if e ∈ done then (g.getEdge e).map (Edge.launch resolved) else g.getEdge e

theorem Launched.edge (g g' : Graph NodeProxy EdgeProxy) (resolved : Masks) (done : List Nat)
    (launched : Launched g resolved done g') (n eid : Nat) (source : g.sourceOf eid = some n) :
    Launched g resolved (done ++ [eid]) (match g'.enabledEdge eid with
      | none => g'
      | some _ => g'.modifyEdge eid (Edge.setFromClocks (resolved n))) := by
  obtain ⟨old, there, rfl⟩ := Option.map_eq_some_iff.mp source
  -- whether it had its mask before or not, the edge gets the same one
  have once : g'.getEdge eid = some old ∨ g'.getEdge eid = some (old.launch resolved) := by
    rw [launched.edges eid, there]
    split
    · exact Or.inr rfl
    · exact Or.inl rfl
  have again : (match g'.enabledEdge eid with
      | none => g'
      | some _ => g'.modifyEdge eid (Edge.setFromClocks (resolved old.source))).getEdge eid =
        some (old.launch resolved) := by
    by_cases off : old.disabled
    · have same : g'.getEdge eid = some (old.launch resolved) := by
        have idle : old.launch resolved = old := by simp [Edge.launch, off]
        rcases once with same | same
        · rw [idle]
          exact same
        · exact same
      have none : g'.enabledEdge eid = none := by
        unfold Graph.enabledEdge
        rw [same]
        simp [Option.filter, Edge.launch, off]
      rw [none]
      exact same
    · rcases once with same | same
      · have enabled : g'.enabledEdge eid = some old := (g'.enabledEdge_eq_some eid old).mpr ⟨same, by simpa using off⟩
        rw [enabled]
        refine (g'.getEdge_modifyEdge eid (Edge.setFromClocks (resolved old.source)) (fun _ => rfl) eid).trans ?_
        rw [if_pos rfl, same]
        simp [Edge.launch, off]
      · have enabled : g'.enabledEdge eid = some (old.launch resolved) := by
          refine (g'.enabledEdge_eq_some eid _).mpr ⟨same, ?_⟩
          simp [Edge.launch, off, Edge.setFromClocks]
        rw [enabled]
        refine (g'.getEdge_modifyEdge eid (Edge.setFromClocks (resolved old.source)) (fun _ => rfl) eid).trans ?_
        rw [if_pos rfl, same]
        simp [Edge.launch, off, Edge.setFromClocks]
  have others (e : Nat) (other : e ≠ eid) : (match g'.enabledEdge eid with
      | none => g'
      | some _ => g'.modifyEdge eid (Edge.setFromClocks (resolved old.source))).getEdge e = g'.getEdge e := by
    split
    · rfl
    · rw [g'.getEdge_modifyEdge eid (Edge.setFromClocks (resolved old.source)) (fun _ => rfl) e, if_neg other]
  refine ⟨?_, ?_⟩
  · split
    · exact launched.kept
    · exact launched.kept.modifyEdge g g' eid (Edge.setFromClocks (resolved old.source)) (fun _ => rfl) (fun _ => rfl) (fun _ => rfl)
  · intro e
    by_cases hit : e = eid
    · rw [hit, again, if_pos (by simp), there]
      rfl
    · rw [others e hit, launched.edges e]
      simp [hit]

theorem Launched.edges_of (g g' : Graph NodeProxy EdgeProxy) (resolved : Masks) (done es : List Nat) (n : Nat)
    (launched : Launched g resolved done g') (listed : ∀ e ∈ es, g.sourceOf e = some n) :
    Launched g resolved (done ++ es) (es.foldl (fun g eid =>
      match g.enabledEdge eid with
      | none => g
      | some _ => g.modifyEdge eid (Edge.setFromClocks (resolved n))) g') := by
  induction es generalizing g' done with
  | nil => simpa using launched
  | cons eid rest ih =>
      have first := launched.edge g g' resolved done n eid (listed eid List.mem_cons_self)
      have later := ih _ (done ++ [eid]) first (fun e member => listed e (List.mem_cons_of_mem _ member))
      rw [List.append_assoc, List.singleton_append] at later
      exact later

theorem Launched.nodes_of (g g' : Graph NodeProxy EdgeProxy) (linked : g.Linked) (resolved : Masks)
    (done nodes : List Nat) (launched : Launched g resolved done g') :
    Launched g resolved (done ++ nodes.flatMap g.getOutEdges) (nodes.foldl (setFromClocks resolved) g') := by
  induction nodes generalizing g' done with
  | nil => simpa using launched
  | cons n rest ih =>
      have lists : g'.getOutEdges n = g.getOutEdges n := by
        rw [Graph.getOutEdges_of_nodes g g' launched.kept.nodes]
      have first := launched.edges_of g g' resolved done (g.getOutEdges n) n
        (fun e member => (g.mem_getOutEdges linked n e).mp member)
      have moved : Launched g resolved (done ++ g.getOutEdges n) (setFromClocks resolved g' n) := by
        unfold setFromClocks
        rw [lists]
        exact first
      have later := ih _ _ moved
      rw [List.append_assoc, ← List.flatMap_cons] at later
      exact later

/-- What the forward pass does on an acyclic graph. -/
theorem propagateForward_spec (g : Graph NodeProxy EdgeProxy) (linked : g.Linked) (acyclic : g.Acyclic) :
    ∃ launched order, propagateForward g = some (.ok (launched, order)) ∧ Graph.Kept g launched ∧
      (∀ n, n ∈ order ↔ g.isNodeValid n) ∧ order.Nodup ∧
      (∀ i m, order[i]? = some m → ∀ e edge, g.enabledEdge e = some edge → edge.target = m →
        edge.source ∈ order.take i) ∧
      ∃ resolved : Masks, (∀ n, (resolved n).length = g.clocks.length) ∧
        (∀ n c, g.isNodeValid n → ((resolved n).Has c ↔ g.ClockReaches c n)) ∧
        ∀ e, launched.getEdge e = (g.getEdge e).map (Edge.launch resolved) := by
  obtain ⟨k, ended, ⟨inv, bound⟩, stopped⟩ := whileSome_ends (Kahn.step g)
    (fun k => KahnInv g (k.passed g) k ∧ k.qi ≤ k.queue.length) (fun k => g.nodes.slots.length - k.qi)
    (fun k k' held taken => by
      obtain ⟨next, bound, qi⟩ := held.1.step g linked k k' held.2 taken
      have length := next.length_le g (k'.passed g) k'
      exact ⟨⟨next, bound⟩, by omega⟩)
    (g.nodes.slots.length + 1) (Kahn.initial g) ⟨KahnInv.initial g linked, Nat.zero_le _⟩ (by omega)
  have used : k.queue.length ≤ k.qi := by
    unfold Kahn.step at stopped
    split at stopped
    · next none => exact List.getElem?_eq_none_iff.mp none
    · contradiction
  have members (n : Nat) : n ∈ k.queue ↔ g.isNodeValid n :=
    ⟨fun queued => ((inv.queue n).mp queued).1, inv.complete g linked acyclic k used n⟩
  have count : k.qi = g.nodes.live := by
    rw [← length_of_live g linked k.queue inv.nodup members]
    omega
  have start : Launched g k.resolved [] g :=
    ⟨⟨linked, rfl, rfl, rfl⟩, fun e => (if_neg List.not_mem_nil).symm⟩
  have launched := start.nodes_of g g linked k.resolved [] (List.range g.nodes.slots.length)
  rw [List.nil_append] at launched
  refine ⟨_, k.queue, ?_, launched.kept, members, inv.nodup, inv.order, k.resolved, inv.sizes, ?_, ?_⟩
  · unfold propagateForward
    rw [ended]
    simp only [count, ne_eq, not_true_eq_false, if_false]
  · intro n c valid
    exact inv.resolved_of_queued g linked _ k n ((members n).mpr valid) c
  · intro e
    rw [launched.edges e]
    split
    · rfl
    · next outside =>
        cases there : g.getEdge e with
        | none => rfl
        | some edge =>
            have source : g.sourceOf e = some edge.source := by rw [Graph.sourceOf, there]; rfl
            have valid := linked.ends e edge.source (Or.inl source)
            refine absurd (List.mem_flatMap.mpr ⟨edge.source, ?_, ?_⟩) outside
            · exact List.mem_range.mpr (g.valid_lt _ valid)
            · exact (g.mem_getOutEdges linked _ e).mpr source

end Naja.TGraph
