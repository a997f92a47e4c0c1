import Mathlib.Data.List.Flatten
import Naja.Collections.Collection

/-! The list each collection stands for, and when the collections have it. -/

namespace Naja.Collections

variable {α : Type}

/-- The leaves in the order of the search: the last child comes first. -/
def leavesWithin (childrenGetter : Option α → List (Option α)) (leafCriterion : Option α → Bool) :
    Nat → Option α → List (Option α)
  | 0, _ => []
  | depth + 1, object =>
      if leafCriterion object then [object]
      else (childrenGetter object).reverse.flatMap (leavesWithin childrenGetter leafCriterion depth)

def Tree.leaves (tree : Tree α) : List (Option α) :=
  if tree.root.isSome then leavesWithin tree.childrenGetter tree.leafCriterion tree.depth tree.root else []

mutual

def BaseCollection.elements : BaseCollection α → List (Option α)
  | .singleton object => if object.isSome then [object] else []
  | .stl container => container
  | .parentType collection => collection.elements
  | .subType collection isSubType => collection.elements.filter fun e => e.any isSubType
  | .filtered collection filter => collection.elements.filter filter
  | .flat collection isReturnType flattener =>
      collection.elements.flatMap fun e => if e.any isReturnType then [e] else (flattener e).elements
  | .transformer collection transform => collection.elements.map transform
  | .treeLeaves tree => tree.leaves

def Collection.elements : Collection α → List (Option α)
  | .unset => []
  | .of collection => collection.elements

end

def Collection.isSet : Collection α → Bool
  | .unset => false
  | .of _ => true

mutual

/-- No transformer of the tower gives a null pointer, no leaf is null, and every flattener gives a
collection that is set and has no null element. -/
def BaseCollection.NullFree : BaseCollection α → Prop
  | .singleton _ => True
  | .stl _ => True
  | .parentType collection => collection.NullFree
  | .subType collection _ => collection.NullFree
  | .filtered collection _ => collection.NullFree
  | .flat collection isReturnType flattener =>
      collection.NullFree ∧ ∀ e ∈ collection.elements, e.any isReturnType = false →
        (flattener e).NullFree ∧ (flattener e).isSet = true ∧ none ∉ (flattener e).elements
  | .transformer collection transform => collection.NullFree ∧ ∀ e ∈ collection.elements, transform e ≠ none
  | .treeLeaves tree => none ∉ tree.leaves

def Collection.NullFree : Collection α → Prop
  | .unset => True
  | .of collection => collection.NullFree

end

mutual

/-- A property of a collection and of all it is made of, the collections of its flatteners included. -/
def BaseCollection.Throughout (P : Collection α → Prop) : BaseCollection α → Prop
  | .singleton object => P (.of (.singleton object))
  | .stl container => P (.of (.stl container))
  | .parentType collection => P (.of (.parentType collection)) ∧ collection.Throughout P
  | .subType collection isSubType => P (.of (.subType collection isSubType)) ∧ collection.Throughout P
  | .filtered collection filter => P (.of (.filtered collection filter)) ∧ collection.Throughout P
  | .flat collection isReturnType flattener =>
      P (.of (.flat collection isReturnType flattener)) ∧ collection.Throughout P ∧
        ∀ e ∈ collection.elements, e.any isReturnType = false → (flattener e).Throughout P
  | .transformer collection transform => P (.of (.transformer collection transform)) ∧ collection.Throughout P
  | .treeLeaves tree => P (.of (.treeLeaves tree))

def Collection.Throughout (P : Collection α → Prop) : Collection α → Prop
  | .unset => P .unset
  | .of collection => collection.Throughout P

end

end Naja.Collections
