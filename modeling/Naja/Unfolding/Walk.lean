import Mathlib.Data.List.Induction
import Mathlib.Data.List.Infix

/-! Graphs with labelled edges and the tree they unfold to. A path is a list of
labels; a shared node stands at many places of the tree. A node that can be
entered by one edge only, like every node before it, stands at one place. -/

namespace Naja.Unfolding

variable {Node Label View : Type}

/-- The node a path leads to. -/
def walk (child : Node → Label → Option Node) (node : Node) : List Label → Option Node
  | [] => some node
  | label :: rest => (child node label).bind (fun next => walk child next rest)

theorem walk_append (child : Node → Label → Option Node) (node : Node) (front back : List Label) :
    walk child node (front ++ back) = (walk child node front).bind (fun next => walk child next back) := by
  induction front generalizing node with
  | nil => rfl
  | cons label rest ih =>
      rw [List.cons_append, walk, walk, Option.bind_assoc]
      congr 1
      funext next
      exact ih next

theorem walk_concat (child : Node → Label → Option Node) (node : Node) (path : List Label) (label : Label) :
    walk child node (path ++ [label]) = (walk child node path).bind (fun next => child next label) := by
  rw [walk_append]
  congr 1
  funext next
  simp [walk]

/-- Two graphs whose edges match along a relation unfold to the same views. -/
theorem views_eq (child child' : Node → Label → Option Node) (view view' : Node → View)
    (related : Node → Node → Prop)
    (step : ∀ a b, related a b → ∀ label, Option.Rel related (child a label) (child' b label))
    (same : ∀ a b, related a b → view a = view' b) (path : List Label) (a b : Node) (start : related a b) :
    (walk child a path).map view = (walk child' b path).map view' := by
  induction path generalizing a b with
  | nil => exact congrArg some (same a b start)
  | cons label rest ih =>
      have edge := step a b start label
      unfold walk
      cases left : child a label with
      | none =>
          rw [left] at edge
          cases right : child' b label with
          | none => rfl
          | some next => rw [right] at edge; nomatch edge
      | some next =>
          rw [left] at edge
          cases right : child' b label with
          | none => rw [right] at edge; nomatch edge
          | some next' =>
              rw [right] at edge
              cases edge with
              | some further => exact ih next next' further

/-- Every edge leads to a node of smaller rank. -/
def Descends (child : Node → Label → Option Node) (rank : Node → Nat) : Prop :=
  ∀ a label b, child a label = some b → rank b < rank a

theorem Descends.walk (child : Node → Label → Option Node) (rank : Node → Nat)
    (descends : Descends child rank) (path : List Label) (a b : Node)
    (reached : walk child a path = some b) : rank b + path.length ≤ rank a := by
  induction path generalizing a with
  | nil =>
      rw [Unfolding.walk, Option.some.injEq] at reached
      simp [reached]
  | cons label rest ih =>
      obtain ⟨next, edge, further⟩ := Option.bind_eq_some_iff.mp reached
      have below := descends a label next edge
      have tail := ih next further
      rw [List.length_cons]
      omega

/-- The edge is there and no other edge of the graph leads to its target. -/
structure OnlyEdge (child : Node → Label → Option Node) (a : Node) (label : Label) (b : Node) : Prop where
  edge : child a label = some b
  only : ∀ a' label', child a' label' = some b → a' = a ∧ label' = label

/-- Every node on the path after the first is entered by the edge of the path only. -/
inductive Isolated (child : Node → Label → Option Node) (root : Node) : List Label → Node → Prop where
  | root : Isolated child root [] root
  | step (path : List Label) (a : Node) (label : Label) (b : Node) (front : Isolated child root path a)
      (edge : OnlyEdge child a label b) : Isolated child root (path ++ [label]) b

namespace Isolated

theorem reached (child : Node → Label → Option Node) (root : Node) (path : List Label) (b : Node)
    (isolated : Isolated child root path b) : walk child root path = some b := by
  induction isolated with
  | root => rfl
  | step path a label b front edge ih => rw [walk_concat, ih, Option.bind_some, edge.edge]

/-- In an acyclic graph no other path leads to the end of an isolated path. -/
theorem eq_of_walk (child : Node → Label → Option Node) (rank : Node → Nat) (root : Node)
    (descends : Descends child rank) (path : List Label) (b : Node) (isolated : Isolated child root path b)
    (other : List Label) (meets : walk child root other = some b) : other = path := by
  induction isolated generalizing other with
  | root =>
      have bound := descends.walk child rank other root root meets
      exact List.eq_nil_of_length_eq_zero (by omega)
  | step path a label b front edge ih =>
      rcases List.eq_nil_or_concat other with rfl | ⟨before, last, rfl⟩
      · -- the root itself has no edge leading to it
        rw [walk, Option.some.injEq] at meets
        have below := descends a label b edge.edge
        have above := descends.walk child rank path root a (reached child root path a front)
        rw [meets] at above
        omega
      · rw [List.concat_eq_append, walk_concat] at meets
        obtain ⟨next, front', last'⟩ := Option.bind_eq_some_iff.mp meets
        obtain ⟨rfl, rfl⟩ := edge.only next last last'
        rw [List.concat_eq_append, ih before front']

/-- A change of edges into nodes below the end of the path leaves it isolated. -/
theorem congr_above (child child' : Node → Label → Option Node) (rank : Node → Nat) (root : Node)
    (descends : Descends child rank) (bound : Nat)
    (same : ∀ a label b, bound ≤ rank b → (child' a label = some b ↔ child a label = some b))
    (path : List Label) (b : Node) (isolated : Isolated child root path b) (above : bound ≤ rank b) :
    Isolated child' root path b := by
  induction isolated with
  | root => exact .root
  | step path a label b front edge ih =>
      have below := descends a label b edge.edge
      refine .step path a label b (ih (by omega)) ⟨(same a label b above).mpr edge.edge, ?_⟩
      intro a' label' found
      exact edge.only a' label' ((same a' label' b above).mp found)

/-- A change at the end of an isolated path is seen at the places under it only. -/
theorem views_off_path (child child' : Node → Label → Option Node) (rank : Node → Nat) (root : Node)
    (descends : Descends child rank) (path : List Label) (b : Node) (isolated : Isolated child root path b)
    (view view' : Node → View) (sameEdges : ∀ a, a ≠ b → child' a = child a)
    (sameViews : ∀ a, a ≠ b → view' a = view a) (other : List Label) (off : ¬ path <+: other) :
    (walk child' root other).map view' = (walk child root other).map view := by
  have missed (front : List Label) (part : front <+: other) : walk child root front ≠ some b := by
    intro meets
    rw [eq_of_walk child rank root descends path b isolated front meets] at part
    exact off part
  have walks (front : List Label) (part : front <+: other) : walk child' root front = walk child root front := by
    induction front using List.reverseRecOn with
    | nil => rfl
    | append_singleton front label ih =>
        have before : front <+: other := (List.prefix_append front [label]).trans part
        rw [walk_concat, walk_concat, ih before]
        cases reached : walk child root front with
        | none => rfl
        | some next =>
            have away : next ≠ b := by
              intro same
              exact missed front before (same ▸ reached)
            rw [Option.bind_some, Option.bind_some, sameEdges next away]
  rw [walks other (List.prefix_refl other)]
  cases reached : walk child root other with
  | none => rfl
  | some next =>
      have away : next ≠ b := by
        intro same
        exact missed other (List.prefix_refl other) (same ▸ reached)
      rw [Option.map_some, Option.map_some, sameViews next away]

/-- The part of an isolated path up to one of its edges is isolated, with that edge. -/
theorem onlyEdge (child : Node → Label → Option Node) (root : Node) (path : List Label) (b : Node)
    (isolated : Isolated child root path b) (front : List Label) (label : Label) (part : front ++ [label] <+: path) :
    ∃ a c, walk child root front = some a ∧ OnlyEdge child a label c := by
  induction isolated with
  | root =>
      have short := part.length_le
      rw [List.length_append, List.length_singleton, List.length_nil] at short
      omega
  | step path a last b before edge ih =>
      rcases List.prefix_concat_iff.mp part with whole | inside
      · obtain ⟨rfl, same⟩ := List.append_inj' whole rfl
        obtain rfl := List.singleton_inj.mp same
        exact ⟨a, b, reached child root front a before, edge⟩
      · exact ih inside

end Isolated

/-- The edge `label` of `a` is moved from `m` to a fresh copy `c` of it; all else stays. -/
structure Split (child child' : Node → Label → Option Node) (a : Node) (label : Label) (m c : Node) : Prop where
  edge : child a label = some m
  fresh : ∀ x k, child x k ≠ some c
  empty : ∀ k, child c k = none
  moved : child' a label = some c
  copied : child' c = child m
  same : ∀ x k, x ≠ c → ¬ (x = a ∧ k = label) → child' x k = child x k

namespace Split
variable [DecidableEq Node]

/-- A node and what stands for it after the split. -/
def Stands (m c x y : Node) : Prop := (x = y ∧ x ≠ c) ∨ (x = m ∧ y = c)

/-- The copy has the rank of the node it is copied from. -/
def rankOf (rank : Node → Nat) (m c x : Node) : Nat := if x = c then rank m else rank x

section split
variable (child child' : Node → Label → Option Node) (rank : Node → Nat) (a : Node) (label : Label) (m c : Node)
  (split : Split child child' a label m c) (descends : Descends child rank)
include split

theorem m_ne : m ≠ c := by
  rintro rfl
  exact split.fresh a label split.edge

theorem step (x y : Node) (stands : Stands m c x y) (k : Label) :
    Option.Rel (Stands m c) (child x k) (child' y k) := by
  have kept (z : Node) : Option.Rel (Stands m c) (child z k) (child z k) := by
    cases edge : child z k with
    | none => exact .none
    | some next => exact .some (Or.inl ⟨rfl, fun same => split.fresh z k (same ▸ edge)⟩)
  rcases stands with ⟨rfl, old⟩ | ⟨rfl, rfl⟩
  · by_cases here : x = a ∧ k = label
    · obtain ⟨rfl, rfl⟩ := here
      rw [split.edge, split.moved]
      exact .some (Or.inr ⟨rfl, rfl⟩)
    · rw [split.same x k old here]
      exact kept x
  · rw [split.copied]
    exact kept x

/-- The unfolding is the same, with the copy in the place of the node. -/
theorem views (view view' : Node → View) (same : ∀ x y, Stands m c x y → view x = view' y) (path : List Label)
    (x y : Node) (stands : Stands m c x y) : (walk child x path).map view = (walk child' y path).map view' :=
  views_eq child child' view view' (Stands m c) (step child child' a label m c split) same path x y stands

include descends

theorem descends_before : Descends child (rankOf rank m c) := by
  intro x k y edge
  have source : x ≠ c := by
    rintro rfl
    exact Option.some_ne_none y (edge.symm.trans (split.empty k))
  have target : y ≠ c := by
    rintro rfl
    exact split.fresh x k edge
  rw [rankOf, rankOf, if_neg source, if_neg target]
  exact descends x k y edge

theorem descends_after : Descends child' (rankOf rank m c) := by
  have before := descends_before child child' rank a label m c split descends
  have level : rankOf rank m c m = rankOf rank m c c := by
    rw [rankOf, rankOf, if_pos rfl, if_neg (m_ne child child' a label m c split)]
  intro x k y edge
  by_cases copy : x = c
  · rw [copy, split.copied] at edge
    rw [copy, ← level]
    exact before m k y edge
  · by_cases here : x = a ∧ k = label
    · obtain ⟨rfl, rfl⟩ := here
      obtain rfl := Option.some.inj (split.moved.symm.trans edge)
      rw [← level]
      exact before x k m split.edge
    · rw [split.same x k copy here] at edge
      exact before x k y edge

/-- An isolated path goes on to the copy. -/
theorem isolated (root : Node) (path : List Label) (front : Isolated child root path a) :
    Isolated child' root (path ++ [label]) c := by
  have before := descends_before child child' rank a label m c split descends
  have level : rankOf rank m c m = rankOf rank m c c := by
    rw [rankOf, rankOf, if_pos rfl, if_neg (m_ne child child' a label m c split)]
  have drop := before a label m split.edge
  refine .step path a label c ?_ ⟨split.moved, ?_⟩
  · -- edges that come or go lead to nodes below `a`
    refine Isolated.congr_above child child' _ root before (rankOf rank m c a) ?_ path a front le_rfl
    intro x k y high
    by_cases copy : x = c
    · rw [copy, split.copied, split.empty]
      refine ⟨?_, fun edge => absurd edge.symm (Option.some_ne_none y)⟩
      intro edge
      have below := before m k y edge
      omega
    · by_cases here : x = a ∧ k = label
      · obtain ⟨rfl, rfl⟩ := here
        rw [split.moved, split.edge, Option.some.injEq, Option.some.injEq]
        constructor
        · rintro rfl
          omega
        · rintro rfl
          omega
      · rw [split.same x k copy here]
  · intro x k edge
    by_cases copy : x = c
    · rw [copy, split.copied] at edge
      exact absurd edge (split.fresh m k)
    · by_cases here : x = a ∧ k = label
      · exact here
      · rw [split.same x k copy here] at edge
        exact absurd edge (split.fresh x k)

end split

end Split

end Naja.Unfolding
