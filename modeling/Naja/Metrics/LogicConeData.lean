import Naja.Metrics.LogicCone
import Mathlib.Logic.Function.Basic

/-! What the operations on the data of a cone keep: one node for each key, edges that are
listed at both ends, no cycle, and the leaves listed. -/

namespace Naja.Metrics.LogicCone.ConeData

/-- The edge relation on node IDs. -/
def Next (data : ConeData) (i j : Nat) : Prop := j ∈ data.nextOf i

structure Sound (data : ConeData) : Prop where
  distinct : ∀ i j key, data.keyAt i = some key → data.keyAt j = some key → i = j
  inRange : ∀ i j, data.Next i j → (data.keyAt i).isSome ∧ (data.keyAt j).isSome
  converse : ∀ i j, j ∈ data.nextOf i ↔ i ∈ data.prevOf j
  acyclic : ∀ i, ¬ Relation.TransGen data.Next i i
  leaves_nodup : data.leaves.Nodup
  leaves : ∀ i, i ∈ data.leaves ↔ (data.kindAt i).any isLeaf = true

variable (data : ConeData)

theorem keyAt_isSome (i : Nat) : (data.keyAt i).isSome ↔ i < data.nodes.length := by
  simp [keyAt]

theorem kindAt_isSome (i : Nat) : (data.kindAt i).isSome ↔ (data.keyAt i).isSome := by
  simp [keyAt, kindAt]

theorem nextOf_eq_nil (i : Nat) (none_ : data.keyAt i = none) : data.nextOf i = [] := by
  unfold keyAt at none_
  rw [nextOf, Option.map_eq_none_iff.mp none_]
  rfl

theorem indexOf_some (key : NodeKey) (id : Nat) (found : data.indexOf key = some id) : data.keyAt id = some key := by
  obtain ⟨inRange, same, -⟩ := List.findIdx?_eq_some_iff_getElem.mp found
  rw [keyAt, List.getElem?_eq_getElem inRange]
  exact congrArg some (beq_iff_eq.mp same)

theorem indexOf_none (key : NodeKey) (missing : data.indexOf key = none) (i : Nat) : data.keyAt i ≠ some key := by
  intro found
  obtain ⟨node, there, same⟩ := Option.map_eq_some_iff.mp found
  have apart := List.findIdx?_eq_none_iff.mp missing node (List.mem_of_getElem? there)
  rw [same, beq_self_eq_true] at apart
  nomatch apart

/-! ### A node -/

/-- What `getOrCreate` does. -/
structure Created (key : NodeKey) (kind : NodeKind) (created : ConeData) (id : Nat) : Prop where
  here : created.keyAt id = some key
  keeps : ∀ i other, data.keyAt i = some other → created.keyAt i = some other
  only : ∀ i other, created.keyAt i = some other → data.keyAt i = some other ∨ (i = id ∧ other = key)
  fresh : data.keyAt id = none → id = data.nodes.length ∧ ∀ i, data.keyAt i ≠ some key
  next : created.nextOf = data.nextOf
  prev : created.prevOf = data.prevOf
  kind : created.kindAt id = some (if kind = .Root then .Root else (data.kindAt id).getD kind)
  kinds : ∀ i, i ≠ id → created.kindAt i = data.kindAt i
  leaves : data.Sound → created.leaves.Nodup ∧ ∀ i, i ∈ created.leaves ↔ (created.kindAt i).any isLeaf = true
  expandedTerms : created.expandedTerms = data.expandedTerms
  queue : created.queue = data.queue
  root : created.root = data.root
  bitRoots : created.bitRoots = data.bitRoots

section Modify
variable (nodes : List Node) (id : Nat) (f : Node → Node)

theorem map_modify {γ : Type} (field : Node → γ) (same : ∀ node, field (f node) = field node) (i : Nat) :
    ((nodes.modify id f)[i]?).map field = (nodes[i]?).map field := by
  rw [List.getElem?_modify]
  cases nodes[i]? with
  | none => rfl
  | some node =>
      change some (field (if id = i then f node else node)) = some (field node)
      split
      · rw [same]
      · rfl

theorem map_modify_ne {γ : Type} (field : Node → γ) (i : Nat) (apart : i ≠ id) :
    ((nodes.modify id f)[i]?).map field = (nodes[i]?).map field := by
  rw [List.getElem?_modify]
  cases nodes[i]? with
  | none => rfl
  | some node => exact congrArg (fun kept => some (field kept)) (if_neg (Ne.symm apart))

end Modify

theorem getOrCreate_new (key : NodeKey) (kind : NodeKind) (missing : data.indexOf key = none) :
    Created data key kind (data.getOrCreate key kind).1 (data.getOrCreate key kind).2 := by
  have none_ : data.keyAt data.nodes.length = none := by simp [keyAt]
  have made : data.getOrCreate key kind =
      ({ data with
          nodes := data.nodes ++ [⟨key, kind, [], []⟩]
          leaves := if isLeaf kind then data.leaves ++ [data.nodes.length] else data.leaves }, data.nodes.length) := by
    unfold getOrCreate
    rw [missing]
  rw [made]
  have places (i : Nat) : (data.nodes ++ [⟨key, kind, [], []⟩])[i]? =
      if i = data.nodes.length then some ⟨key, kind, [], []⟩ else data.nodes[i]? := by
    split
    · next same => rw [same, List.getElem?_concat_length]
    · next other =>
        rcases Nat.lt_or_gt_of_ne other with less | more
        · rw [List.getElem?_append_left less]
        · rw [List.getElem?_eq_none (by rw [List.length_append, List.length_singleton]; omega),
            List.getElem?_eq_none (by omega)]
  have empty {γ : Type} (field : Node → List γ) (blank : field ⟨key, kind, [], []⟩ = []) (i : Nat) :
      (((data.nodes ++ [⟨key, kind, [], []⟩])[i]?).map field).getD [] = ((data.nodes[i]?).map field).getD [] := by
    rw [places]
    split
    · next same =>
        rw [same, List.getElem?_eq_none (Nat.le_refl _)]
        exact blank
    · rfl
  have kinds (i : Nat) (apart : i ≠ data.nodes.length) :
      ((data.nodes ++ [⟨key, kind, [], []⟩])[i]?).map Node.kind = data.kindAt i := by
    rw [places, if_neg apart]
    rfl
  have kindHere : ((data.nodes ++ [⟨key, kind, [], []⟩])[data.nodes.length]?).map Node.kind = some kind := by
    rw [places, if_pos rfl]
    rfl
  constructor
  · simp [keyAt]
  · intro i other found
    have less : i < data.nodes.length := (data.keyAt_isSome i).mp (by rw [found]; rfl)
    change ((data.nodes ++ [⟨key, kind, [], []⟩])[i]?).map Node.key = some other
    rw [places, if_neg (Nat.ne_of_lt less)]
    exact found
  · intro i other found
    change ((data.nodes ++ [⟨key, kind, [], []⟩])[i]?).map Node.key = some other at found
    rw [places] at found
    split at found
    · next same => exact Or.inr ⟨same, (Option.some.inj found).symm⟩
    · exact Or.inl found
  · exact fun _ => ⟨rfl, data.indexOf_none key missing⟩
  · funext i
    exact empty Node.next rfl i
  · funext i
    exact empty Node.prev rfl i
  · change ((data.nodes ++ [⟨key, kind, [], []⟩])[data.nodes.length]?).map Node.kind = _
    rw [kindHere, kindAt, List.getElem?_eq_none (Nat.le_refl _)]
    split
    · next root => rw [root]
    · rfl
  · exact kinds
  · intro sound
    have apart : data.nodes.length ∉ data.leaves := by
      intro member
      have leaf := (sound.leaves _).mp member
      rw [kindAt, List.getElem?_eq_none (Nat.le_refl _)] at leaf
      nomatch leaf
    have listed (i : Nat) : i ∈ data.leaves ↔ i ≠ data.nodes.length ∧ (data.kindAt i).any isLeaf = true := by
      rw [← sound.leaves i]
      constructor
      · intro member
        exact ⟨fun same => apart (same ▸ member), member⟩
      · exact fun both => both.2
    constructor
    · change (if isLeaf kind then data.leaves ++ [data.nodes.length] else data.leaves).Nodup
      split
      · exact List.nodup_append.mpr ⟨sound.leaves_nodup, List.nodup_singleton _, fun a member b last same =>
          apart (List.mem_singleton.mp last ▸ same ▸ member)⟩
      · exact sound.leaves_nodup
    · intro i
      change i ∈ (if isLeaf kind then data.leaves ++ [data.nodes.length] else data.leaves) ↔
        (((data.nodes ++ [⟨key, kind, [], []⟩])[i]?).map Node.kind).any isLeaf = true
      by_cases here : i = data.nodes.length
      · rw [here, kindHere, Option.any_some]
        split
        · next leaf => simp [leaf]
        · next other => simp [other, apart]
      · rw [kinds i here]
        split
        · rw [List.mem_append, List.mem_singleton, or_iff_left here, listed, and_iff_right here]
        · rw [listed, and_iff_right here]
  · rfl
  · rfl
  · rfl
  · rfl

theorem getOrCreate_found (key : NodeKey) (kind : NodeKind) (id : Nat) (found : data.indexOf key = some id) :
    Created data key kind (data.getOrCreate key kind).1 (data.getOrCreate key kind).2 := by
  have there := data.indexOf_some key id found
  obtain ⟨node, atID, same⟩ := Option.map_eq_some_iff.mp there
  have kindThere : data.kindAt id = some node.kind := by rw [kindAt, atID]; rfl
  have known : data.keyAt id ≠ none := by rw [there]; nofun
  unfold getOrCreate
  rw [found]
  simp only
  by_cases upgrade : kind = .Root ∧ data.kindAt id ≠ some .Root
  · rw [if_pos upgrade]
    have nodes : (if (data.kindAt id).any isLeaf then data.eraseLeaf id else data).nodes = data.nodes := by
      split
      · rfl
      · rfl
    have leaves : (if (data.kindAt id).any isLeaf then data.eraseLeaf id else data).leaves =
        if (data.kindAt id).any isLeaf then data.leaves.filter (· ≠ id) else data.leaves := by
      split
      · rfl
      · rfl
    have rest : (if (data.kindAt id).any isLeaf then data.eraseLeaf id else data).expandedTerms = data.expandedTerms ∧
        (if (data.kindAt id).any isLeaf then data.eraseLeaf id else data).queue = data.queue ∧
        (if (data.kindAt id).any isLeaf then data.eraseLeaf id else data).root = data.root ∧
        (if (data.kindAt id).any isLeaf then data.eraseLeaf id else data).bitRoots = data.bitRoots := by
      split
      · exact ⟨rfl, rfl, rfl, rfl⟩
      · exact ⟨rfl, rfl, rfl, rfl⟩
    have keyEq (i : Nat) : (((data.nodes.modify id Node.toRoot)[i]?).map Node.key) =
        data.keyAt i := map_modify _ _ Node.toRoot Node.key (fun _ => rfl) i
    have kindEq (i : Nat) (apart : i ≠ id) :
        ((data.nodes.modify id Node.toRoot)[i]?).map Node.kind = data.kindAt i :=
      map_modify_ne _ _ _ Node.kind i apart
    have kindHere : ((data.nodes.modify id Node.toRoot)[id]?).map Node.kind =
        some .Root := by
      rw [List.getElem?_modify, atID]
      simp [Node.toRoot]
    constructor
    · change (((if (data.kindAt id).any isLeaf then data.eraseLeaf id else data).nodes.modify id Node.toRoot)[id]?).map Node.key = _
      rw [nodes, keyEq, there]
    · intro i other old
      change (((if (data.kindAt id).any isLeaf then data.eraseLeaf id else data).nodes.modify id Node.toRoot)[i]?).map Node.key = _
      rw [nodes, keyEq, old]
    · intro i other new
      change (((if (data.kindAt id).any isLeaf then data.eraseLeaf id else data).nodes.modify id Node.toRoot)[i]?).map Node.key = _
        at new
      rw [nodes, keyEq] at new
      exact Or.inl new
    · exact fun none_ => absurd none_ known
    · funext i
      change ((((if (data.kindAt id).any isLeaf then data.eraseLeaf id else data).nodes.modify id Node.toRoot)[i]?).map
        Node.next).getD [] = _
      rw [nodes, map_modify _ _ Node.toRoot Node.next (fun _ => rfl) i]
      rfl
    · funext i
      change ((((if (data.kindAt id).any isLeaf then data.eraseLeaf id else data).nodes.modify id Node.toRoot)[i]?).map
        Node.prev).getD [] = _
      rw [nodes, map_modify _ _ Node.toRoot Node.prev (fun _ => rfl) i]
      rfl
    · change (((if (data.kindAt id).any isLeaf then data.eraseLeaf id else data).nodes.modify id Node.toRoot)[id]?).map Node.kind = _
      rw [nodes, kindHere, if_pos upgrade.1]
    · intro i apart
      change (((if (data.kindAt id).any isLeaf then data.eraseLeaf id else data).nodes.modify id Node.toRoot)[i]?).map Node.kind = _
      rw [nodes, kindEq i apart]
    · intro sound
      constructor
      · change (if (data.kindAt id).any isLeaf then data.eraseLeaf id else data).leaves.Nodup
        rw [leaves]
        split
        · exact sound.leaves_nodup.filter _
        · exact sound.leaves_nodup
      · intro i
        change i ∈ (if (data.kindAt id).any isLeaf then data.eraseLeaf id else data).leaves ↔
          ((((if (data.kindAt id).any isLeaf then data.eraseLeaf id else data).nodes.modify id Node.toRoot)[i]?).map
            Node.kind).any isLeaf = true
        rw [leaves, nodes]
        by_cases here : i = id
        · rw [here, kindHere]
          refine iff_of_false ?_ (by decide)
          split
          · simp
          · next other =>
              intro member
              exact other ((sound.leaves id).mp member)
        · rw [kindEq i here, ← sound.leaves i]
          split
          · simp [here]
          · rfl
    · exact rest.1
    · exact rest.2.1
    · exact rest.2.2.1
    · exact rest.2.2.2
  · rw [if_neg upgrade]
    constructor
    · exact there
    · exact fun _ _ old => old
    · exact fun _ _ new => Or.inl new
    · exact fun none_ => absurd none_ known
    · rfl
    · rfl
    · rw [kindThere]
      split
      · next root =>
          have already : data.kindAt id = some .Root := by
            by_contra other
            exact upgrade ⟨root, other⟩
          exact kindThere ▸ already
      · rfl
    · exact fun _ _ => rfl
    · exact fun sound => ⟨sound.leaves_nodup, sound.leaves⟩
    · rfl
    · rfl
    · rfl
    · rfl

theorem getOrCreate_spec (key : NodeKey) (kind : NodeKind) :
    Created data key kind (data.getOrCreate key kind).1 (data.getOrCreate key kind).2 := by
  cases found : data.indexOf key with
  | none => exact data.getOrCreate_new key kind found
  | some id => exact data.getOrCreate_found key kind id found

variable {data}

theorem Created.sound {key : NodeKey} {kind : NodeKind} {created : ConeData} {id : Nat}
    (made : Created data key kind created id) (sound : data.Sound) : created.Sound := by
  have relation : created.Next = data.Next := by
    funext i j
    exact congrArg (fun next => j ∈ next i) made.next
  have old (i : Nat) (some_ : (data.keyAt i).isSome) : (created.keyAt i).isSome := by
    obtain ⟨other, there⟩ := Option.isSome_iff_exists.mp some_
    rw [made.keeps i other there]
    rfl
  obtain ⟨nodup, leaves⟩ := made.leaves sound
  constructor
  · intro i j other left right
    rcases made.only i other left with oldLeft | ⟨rfl, rfl⟩
    · rcases made.only j other right with oldRight | ⟨rfl, rfl⟩
      · exact sound.distinct i j other oldLeft oldRight
      · cases before : data.keyAt j with
        | none => exact absurd oldLeft ((made.fresh before).2 i)
        | some third =>
            have same : third = other := Option.some.inj ((made.keeps j third before).symm.trans right)
            exact sound.distinct i j other oldLeft (same ▸ before)
    · rcases made.only j other right with oldRight | ⟨rfl, -⟩
      · cases before : data.keyAt i with
        | none => exact absurd oldRight ((made.fresh before).2 j)
        | some third =>
            have same : third = other := Option.some.inj ((made.keeps i third before).symm.trans left)
            exact sound.distinct i j other (same ▸ before) oldRight
      · rfl
  · intro i j edge
    obtain ⟨left, right⟩ := sound.inRange i j (relation ▸ edge)
    exact ⟨old i left, old j right⟩
  · intro i j
    rw [made.next, made.prev]
    exact sound.converse i j
  · rw [relation]
    exact sound.acyclic
  · exact nodup
  · exact leaves

/-! ### An edge -/

variable (data)

theorem remaining_edgeCount : Worklist.remaining (fun i => (data.nextOf i).length) (List.range data.nodes.length) [] =
    data.edgeCount := by
  have all : (List.range data.nodes.length).filter (fun i => decide (i ∉ ([] : List Nat))) =
      List.range data.nodes.length := List.filter_eq_self.mpr (fun i _ => by simp)
  unfold Worklist.remaining edgeCount
  rw [all]
  congr 1
  apply List.ext_getElem
  · simp
  · intro i inLeft inRight
    rw [List.length_map] at inRight
    simp [nextOf, List.getElem?_eq_getElem inRight]

theorem wouldCreateCycle_iff (parentID childID : Nat) :
    data.wouldCreateCycle parentID childID = true ↔ Relation.ReflTransGen data.Next childID parentID := by
  unfold wouldCreateCycle
  split
  · next same => exact iff_of_true rfl (same ▸ Relation.ReflTransGen.refl)
  · obtain ⟨found, ran, exact_⟩ := Worklist.search_spec data.nextOf parentID (List.range data.nodes.length)
      (fun i some_ => by
        rw [List.mem_range, ← keyAt_isSome, Option.isSome_iff_ne_none]
        exact fun none_ => some_ (data.nextOf_eq_nil i none_))
      (data.edgeCount + 2) [childID] [] (fun a member => absurd member List.not_mem_nil) List.not_mem_nil
      (by rw [remaining_edgeCount, List.length_singleton]; omega)
    rw [ran, Option.getD_some, exact_]
    constructor
    · intro leads
      obtain ⟨a, member, path⟩ := leads
      rw [List.mem_singleton.mp member] at path
      exact path
    · exact fun path => ⟨childID, List.mem_singleton_self _, path⟩

/-- The data with one more edge. -/
structure Linked (parentID childID : Nat) (linked : ConeData) : Prop where
  keys : linked.keyAt = data.keyAt
  kinds : linked.kindAt = data.kindAt
  next : linked.nextOf = Function.update data.nextOf parentID (data.nextOf parentID ++ [childID])
  prev : linked.prevOf = Function.update data.prevOf childID (data.prevOf childID ++ [parentID])
  leaves : linked.leaves = data.leaves
  expandedTerms : linked.expandedTerms = data.expandedTerms
  queue : linked.queue = data.queue
  root : linked.root = data.root
  bitRoots : linked.bitRoots = data.bitRoots

theorem addEdge_cases (parentID childID : Nat) (parent : (data.keyAt parentID).isSome)
    (child : (data.keyAt childID).isSome) :
    (data.addEdge parentID childID = data ∧
      (data.Next parentID childID ∨ Relation.ReflTransGen data.Next childID parentID)) ∨
    (¬ Relation.ReflTransGen data.Next childID parentID ∧
      Linked data parentID childID (data.addEdge parentID childID)) := by
  unfold addEdge
  by_cases present : childID ∈ data.nextOf parentID
  · rw [if_pos present]
    exact Or.inl ⟨rfl, Or.inl present⟩
  · rw [if_neg present]
    by_cases cycle : data.wouldCreateCycle parentID childID = true
    · rw [if_pos cycle]
      exact Or.inl ⟨rfl, Or.inr ((data.wouldCreateCycle_iff parentID childID).mp cycle)⟩
    · rw [if_neg cycle]
      refine Or.inr ⟨fun path => cycle ((data.wouldCreateCycle_iff parentID childID).mpr path), ?_⟩
      have inParent := (data.keyAt_isSome parentID).mp parent
      have inChild := (data.keyAt_isSome childID).mp child
      constructor
      · funext i
        change (((data.nodes.modify parentID (Node.addNext childID)).modify childID (Node.addPrev parentID))[i]?).map Node.key = _
        rw [map_modify _ childID (Node.addPrev parentID) Node.key (fun _ => rfl), map_modify _ parentID (Node.addNext childID) Node.key (fun _ => rfl)]
        rfl
      · funext i
        change (((data.nodes.modify parentID (Node.addNext childID)).modify childID (Node.addPrev parentID))[i]?).map Node.kind = _
        rw [map_modify _ childID (Node.addPrev parentID) Node.kind (fun _ => rfl), map_modify _ parentID (Node.addNext childID) Node.kind (fun _ => rfl)]
        rfl
      · funext i
        change ((((data.nodes.modify parentID (Node.addNext childID)).modify childID (Node.addPrev parentID))[i]?).map Node.next).getD [] = _
        rw [map_modify _ childID (Node.addPrev parentID) Node.next (fun _ => rfl)]
        by_cases here : i = parentID
        · rw [here, Function.update_self, List.getElem?_modify, List.getElem?_eq_getElem inParent]
          simp [nextOf, List.getElem?_eq_getElem inParent, Node.addNext]
        · rw [Function.update_of_ne here, map_modify_ne _ _ _ _ i here]
          rfl
      · funext i
        change ((((data.nodes.modify parentID (Node.addNext childID)).modify childID (Node.addPrev parentID))[i]?).map Node.prev).getD [] = _
        by_cases here : i = childID
        · rw [here, Function.update_self, List.getElem?_modify, Option.map_eq_map, Option.map_map]
          have same := map_modify data.nodes parentID (Node.addNext childID) Node.prev (fun _ => rfl) childID
          rw [List.getElem?_eq_getElem inChild] at same
          obtain ⟨node, atChild, prev⟩ := Option.map_eq_some_iff.mp same
          rw [atChild]
          simp [prevOf, List.getElem?_eq_getElem inChild, prev, Node.addPrev]
        · rw [Function.update_of_ne here, map_modify_ne _ _ _ _ i here, map_modify _ parentID (Node.addNext childID) Node.prev (fun _ => rfl)]
          rfl
      · rfl
      · rfl
      · rfl
      · rfl
      · rfl

variable {data}

theorem Linked.relation {parentID childID : Nat} {linked : ConeData} (added : Linked data parentID childID linked) :
    linked.Next = Worklist.WithEdge data.Next parentID childID := by
  funext i j
  apply propext
  unfold Next Worklist.WithEdge
  rw [added.next]
  by_cases here : i = parentID
  · rw [here, Function.update_self, List.mem_append, List.mem_singleton]
    simp
  · rw [Function.update_of_ne here]
    simp [here]

theorem Linked.sound {parentID childID : Nat} {linked : ConeData} (added : Linked data parentID childID linked)
    (sound : data.Sound) (parent : (data.keyAt parentID).isSome) (child : (data.keyAt childID).isSome)
    (apart : ¬ Relation.ReflTransGen data.Next childID parentID) : linked.Sound := by
  constructor
  · rw [added.keys]
    exact sound.distinct
  · intro i j edge
    rw [added.relation] at edge
    rw [added.keys]
    rcases edge with old | ⟨rfl, rfl⟩
    · exact sound.inRange i j old
    · exact ⟨parent, child⟩
  · intro i j
    rw [added.prev]
    change linked.Next i j ↔ _
    rw [added.relation]
    by_cases here : j = childID
    · rw [here, Function.update_self, List.mem_append, List.mem_singleton, ← sound.converse i childID]
      simp [Worklist.WithEdge, Next]
    · rw [Function.update_of_ne here, ← sound.converse i j]
      simp [Worklist.WithEdge, Next, here]
  · rw [added.relation]
    exact Worklist.acyclic_withEdge data.Next parentID childID sound.acyclic apart
  · rw [added.leaves]
    exact sound.leaves_nodup
  · rw [added.leaves, added.kinds]
    exact sound.leaves

variable (data)

/-- What an attempt to add an edge does: the edge is there after it, or it would have closed a cycle. -/
theorem addEdge_spec (sound : data.Sound) (parentID childID : Nat) (parent : (data.keyAt parentID).isSome)
    (child : (data.keyAt childID).isSome) :
    (data.addEdge parentID childID).Sound ∧ (data.addEdge parentID childID).keyAt = data.keyAt ∧
      (data.addEdge parentID childID).kindAt = data.kindAt ∧
      (∀ i j, data.Next i j → (data.addEdge parentID childID).Next i j) ∧
      (∀ i j, (data.addEdge parentID childID).Next i j → data.Next i j ∨ (i = parentID ∧ j = childID)) ∧
      ((data.addEdge parentID childID).Next parentID childID ∨ Relation.ReflTransGen data.Next childID parentID) ∧
      (data.addEdge parentID childID).expandedTerms = data.expandedTerms ∧
      (data.addEdge parentID childID).queue = data.queue ∧ (data.addEdge parentID childID).root = data.root ∧
      (data.addEdge parentID childID).bitRoots = data.bitRoots := by
  rcases data.addEdge_cases parentID childID parent child with ⟨same, present⟩ | ⟨apart, added⟩
  · rw [same]
    exact ⟨sound, rfl, rfl, fun _ _ edge => edge, fun _ _ edge => Or.inl edge, present, rfl, rfl, rfl, rfl⟩
  · refine ⟨added.sound sound parent child apart, added.keys, added.kinds, ?_, ?_, ?_, added.expandedTerms,
      added.queue, added.root, added.bitRoots⟩
    · intro i j edge
      rw [added.relation]
      exact Or.inl edge
    · intro i j edge
      rw [added.relation] at edge
      exact edge
    · rw [added.relation]
      exact Or.inl (Or.inr ⟨rfl, rfl⟩)

end Naja.Metrics.LogicCone.ConeData
