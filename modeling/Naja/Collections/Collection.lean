import Naja.Worklist.Fuelled

/-! The collections of NajaCollection.h. All of them hold pointers: an element is `Option α`, with
`none` for the null pointer, and a conversion of pointer types is a test of the object. -/

namespace Naja.Collections
open Worklist

variable {α : Type}

/-- The tree under an object has less than this many levels down to its leaves. -/
def Within (childrenGetter : Option α → List (Option α)) (leafCriterion : Option α → Bool) : Nat → Option α → Prop
  | 0, _ => False
  | depth + 1, object =>
      leafCriterion object = true ∨ ∀ child ∈ childrenGetter object, Within childrenGetter leafCriterion depth child

/-- A finite tree given by its root and the two functions of a `NajaTreeLeavesCollection`. -/
structure Tree (α : Type) where
  root : Option α
  childrenGetter : Option α → List (Option α)
  leafCriterion : Option α → Bool
  depth : Nat
  finite : root.isSome = true → Within childrenGetter leafCriterion depth root

mutual

/-- The classes derived from `NajaBaseCollection`. The collections over an intrusive set, a container
and a map differ only in what they read at a position: each is the `stl` of the values it reads. -/
inductive BaseCollection (α : Type)
  | singleton (object : Option α)
  | stl (container : List (Option α))
  | parentType (collection : BaseCollection α)
  | subType (collection : BaseCollection α) (isSubType : α → Bool)
  | filtered (collection : BaseCollection α) (filter : Option α → Bool)
  | flat (collection : BaseCollection α) (isReturnType : α → Bool) (flattener : Option α → Collection α)
  | transformer (collection : BaseCollection α) (transform : Option α → Option α)
  | treeLeaves (tree : Tree α)

/-- `NajaCollection`: a pointer to a base collection, null after the default constructor. -/
inductive Collection (α : Type)
  | unset
  | of (collection : BaseCollection α)

end

/-- The iterators behind a `NajaBaseIterator` pointer. -/
inductive BaseIterator (α : Type)
  | null
  | singleton (object : Option α) (isBegin : Bool)
  | stl (container : List (Option α)) (it : Nat)
  | parentType (it endIt : BaseIterator α)
  | subType (isSubType : α → Bool) (it endIt : BaseIterator α)
  | filtered (filter : Option α → Bool) (it endIt : BaseIterator α)
  | flat (isReturnType : α → Bool) (flattener : Option α → Collection α) (it endIt flattenIt : BaseIterator α)
      (element : Option α)
  | transformer (transform : Option α → Option α) (it endIt : BaseIterator α) (element : Option α)
  | treeLeaves (tree : Tree α) (stack : List (Option α)) (element : Option α)

namespace BaseIterator

def isNull : BaseIterator α → Bool
  | null => true
  | _ => false

def getElement : BaseIterator α → Option α
  | null => none
  | singleton object _ => object
  | stl container it => (container[it]?).join
  | parentType it _ => it.getElement
  | subType _ it _ => it.getElement
  | filtered _ it _ => it.getElement
  | flat _ _ _ _ _ element => element
  | transformer _ _ _ element => element
  | treeLeaves _ _ element => element

/-- A failed `dynamic_cast` of the other iterator is the last case. -/
def isEqual [DecidableEq α] : BaseIterator α → BaseIterator α → Bool
  | singleton object isBegin, singleton rObject rIsBegin => object = rObject ∧ isBegin = rIsBegin
  | stl _ it, stl _ rit => it = rit
  | parentType it _, parentType rit _ => it.isEqual rit
  | subType _ it _, subType _ rit _ => it.isEqual rit
  | filtered _ it _, filtered _ rit _ => it.isEqual rit
  | flat _ _ it _ flattenIt _, flat _ _ rit _ rFlattenIt _ =>
      it.isEqual rit && if flattenIt.isNull then rFlattenIt.isNull else flattenIt.isEqual rFlattenIt
  | transformer _ it _ _, transformer _ rit _ _ => it.isEqual rit
  | treeLeaves tree stack element, treeLeaves rTree rStack rElement =>
      tree.root = rTree.root ∧ element = rElement ∧ stack = rStack
  | _, _ => false

def isValid [DecidableEq α] : BaseIterator α → Bool
  | null => false
  | singleton object isBegin => object.isSome && isBegin
  | stl container it => it ≠ container.length
  | parentType it endIt => !it.isEqual endIt
  | subType _ it endIt => !it.isEqual endIt
  | filtered _ it endIt => !it.isEqual endIt
  | flat _ _ _ _ _ element => element.isSome
  | transformer _ _ _ element => element.isSome
  | treeLeaves _ _ element => element.isSome

def clone : BaseIterator α → BaseIterator α
  | null => null
  | singleton object isBegin => singleton object isBegin
  | stl container it => stl container it
  | parentType it endIt => parentType it.clone endIt.clone
  | subType isSubType it endIt => subType isSubType it.clone endIt.clone
  | filtered filter it endIt => filtered filter it.clone endIt.clone
  | flat isReturnType flattener it endIt flattenIt element =>
      flat isReturnType flattener it.clone endIt.clone (if flattenIt.isNull then null else flattenIt.clone) element
  | transformer transform it endIt element => transformer transform it.clone endIt.clone element
  | treeLeaves tree stack element => treeLeaves tree stack element

theorem clone_eq (it : BaseIterator α) : it.clone = it := by
  induction it with
  | null => rfl
  | singleton => rfl
  | stl => rfl
  | parentType it endIt ih ihEnd => rw [clone, ih, ihEnd]
  | subType isSubType it endIt ih ihEnd => rw [clone, ih, ihEnd]
  | filtered filter it endIt ih ihEnd => rw [clone, ih, ihEnd]
  | flat isReturnType flattener it endIt flattenIt element ih ihEnd ihFlatten =>
      rw [clone, ih, ihEnd, ihFlatten]
      cases flattenIt <;> rfl
  | transformer transform it endIt element ih ihEnd => rw [clone, ih, ihEnd]
  | treeLeaves => rfl

end BaseIterator

open BaseIterator

/-- `findNextElement` of the tree leaves: the children of an object go on the stack in their order, so
that the last one is popped first. -/
def findLeaf (tree : Tree α) : Nat → List (Option α) → Option (List (Option α) × Option α)
  | 0, _ => none
  | _ + 1, [] => some ([], none)
  | fuel + 1, object :: stack =>
      if tree.leafCriterion object then some (stack, object)
      else findLeaf tree fuel ((tree.childrenGetter object).foldl (fun stack child => child :: stack) stack)

/-- The iterator an `end()` makes: both of its pointers are the end of the collection below. -/
def BaseCollection.end_ : BaseCollection α → BaseIterator α
  | .singleton object => .singleton object false
  | .stl container => .stl container container.length
  | .parentType collection => .parentType collection.end_ collection.end_
  | .subType collection isSubType => .subType isSubType collection.end_ collection.end_
  | .filtered collection filter => .filtered filter collection.end_ collection.end_
  | .flat collection isReturnType flattener =>
      .flat isReturnType flattener collection.end_ collection.end_ .null none
  | .transformer collection transform => .transformer transform collection.end_ collection.end_ none
  | .treeLeaves tree => .treeLeaves tree [] none

section Virtual

variable [DecidableEq α]

mutual

def begin_ : Nat → BaseCollection α → Option (BaseIterator α)
  | 0, _ => none
  | _ + 1, .singleton object => some (.singleton object object.isSome)
  | _ + 1, .stl container => some (.stl container 0)
  | fuel + 1, .parentType collection =>
      (begin_ fuel collection).bind fun it => some (.parentType it collection.end_)
  | fuel + 1, .subType collection isSubType =>
      (begin_ fuel collection).bind fun it =>
        (skip fuel (fun e => e.any isSubType) it collection.end_).bind fun it =>
          some (.subType isSubType it collection.end_)
  | fuel + 1, .filtered collection filter =>
      (begin_ fuel collection).bind fun it =>
        (skip fuel filter it collection.end_).bind fun it => some (.filtered filter it collection.end_)
  | fuel + 1, .flat collection isReturnType flattener =>
      (begin_ fuel collection).bind fun it =>
        (findNextElement fuel isReturnType flattener it .null false).bind fun found =>
          some (.flat isReturnType flattener found.1 collection.end_ found.2.1 found.2.2)
  | fuel + 1, .transformer collection transform =>
      (begin_ fuel collection).bind fun it =>
        some (.transformer transform it collection.end_ (if it.isValid then transform it.getElement else none))
  | fuel + 1, .treeLeaves tree =>
      if tree.root.isSome then
        (findLeaf tree fuel [tree.root]).bind fun found => some (.treeLeaves tree found.1 found.2)
      else some (.treeLeaves tree [] none)

def progress : Nat → BaseIterator α → Option (BaseIterator α)
  | 0, _ => none
  | _ + 1, .null => none
  | _ + 1, .singleton object _ => some (.singleton object false)
  | _ + 1, .stl container it => some (.stl container (it + 1))
  | fuel + 1, .parentType it endIt =>
      if (BaseIterator.parentType it endIt).isValid then
        (progress fuel it).bind fun it => some (.parentType it endIt)
      else some (.parentType it endIt)
  | fuel + 1, .subType isSubType it endIt =>
      if (BaseIterator.subType isSubType it endIt).isValid then
        (progress fuel it).bind fun it =>
          (skip fuel (fun e => e.any isSubType) it endIt).bind fun it => some (.subType isSubType it endIt)
      else some (.subType isSubType it endIt)
  | fuel + 1, .filtered filter it endIt =>
      if (BaseIterator.filtered filter it endIt).isValid then
        (progress fuel it).bind fun it =>
          (skip fuel filter it endIt).bind fun it => some (.filtered filter it endIt)
      else some (.filtered filter it endIt)
  | fuel + 1, .flat isReturnType flattener it endIt flattenIt element =>
      if (BaseIterator.flat isReturnType flattener it endIt flattenIt element).isValid then
        (findNextElement fuel isReturnType flattener it flattenIt true).bind fun found =>
          some (.flat isReturnType flattener found.1 endIt found.2.1 found.2.2)
      else some (.flat isReturnType flattener it endIt flattenIt element)
  | fuel + 1, .transformer transform it endIt element =>
      if (BaseIterator.transformer transform it endIt element).isValid then
        (if it.isValid then progress fuel it else some it).bind fun it =>
          some (.transformer transform it endIt (if it.isValid then transform it.getElement else none))
      else some (.transformer transform it endIt element)
  | fuel + 1, .treeLeaves tree stack element =>
      if (BaseIterator.treeLeaves tree stack element).isValid then
        (findLeaf tree fuel stack).bind fun found => some (.treeLeaves tree found.1 found.2)
      else some (.treeLeaves tree stack element)

/-- `while (isValid() and not filter_(it_->getElement())) it_->progress()`. -/
def skip : Nat → (Option α → Bool) → BaseIterator α → BaseIterator α → Option (BaseIterator α)
  | 0, _, _, _ => none
  | fuel + 1, filter, it, endIt =>
      if !it.isEqual endIt && !filter it.getElement then
        (progress fuel it).bind fun it => skip fuel filter it endIt
      else some it

/-- `findNextElement` of the flat collection: the iterator on the collection below, the one on the
collection of the current element, and the element found. -/
def findNextElement : Nat → (α → Bool) → (Option α → Collection α) → BaseIterator α → BaseIterator α → Bool →
    Option (BaseIterator α × BaseIterator α × Option α)
  | 0, _, _, _, _, _ => none
  | fuel + 1, isReturnType, flattener, it, flattenIt, advance =>
      if flattenIt.isNull then
        (if advance && it.isValid then progress fuel it else some it).bind fun it =>
          findMaster fuel isReturnType flattener it
      else
        (if advance then progress fuel flattenIt else some flattenIt).bind fun flattenIt =>
          if flattenIt.isValid then some (it, flattenIt, flattenIt.getElement)
          else
            (if advance && it.isValid then progress fuel it else some it).bind fun it =>
              findMaster fuel isReturnType flattener it

/-- The loop at the end of `findNextElement`. The iterator of a default-constructed collection is null
and the loop reads through it, which has no result. -/
def findMaster : Nat → (α → Bool) → (Option α → Collection α) → BaseIterator α →
    Option (BaseIterator α × BaseIterator α × Option α)
  | 0, _, _, _ => none
  | fuel + 1, isReturnType, flattener, it =>
      if it.isValid then
        if it.getElement.any isReturnType then some (it, .null, it.getElement)
        else
          match flattener it.getElement with
          | .unset => none
          | .of collection =>
              (begin_ fuel collection).bind fun flattenIt =>
                if flattenIt.isValid then some (it, flattenIt, flattenIt.getElement)
                else (progress fuel it).bind fun it => findMaster fuel isReturnType flattener it
      else some (it, .null, none)

end

/-- `while (not it->isEqual(endIt)) { ++size; it->progress(); }`. -/
def countElements (fuel : Nat) (it endIt : BaseIterator α) : Option Nat :=
  (whileDo (fun s : BaseIterator α × Nat => !s.1.isEqual endIt)
    (fun fuel s => (progress fuel s.1).bind fun it => some (it, s.2 + 1)) fuel (it, 0)).map (·.2)

def BaseCollection.size (fuel : Nat) : BaseCollection α → Option Nat
  | .singleton object => some (if object.isSome then 1 else 0)
  | .stl container => some container.length
  | .parentType collection => collection.size fuel
  | .treeLeaves tree =>
      if tree.root.isSome then
        (begin_ fuel (.treeLeaves tree)).bind fun it => countElements fuel it (BaseCollection.treeLeaves tree).end_
      else some 0
  | collection => (begin_ fuel collection).bind fun it => countElements fuel it collection.end_

def BaseCollection.empty (fuel : Nat) : BaseCollection α → Option Bool
  | .singleton object => some (!object.isSome)
  | .stl container => some container.isEmpty
  | .parentType collection => collection.empty fuel
  | .treeLeaves tree =>
      if tree.root.isSome then (begin_ fuel (.treeLeaves tree)).bind fun it => some (!it.isValid) else some true
  | collection => (begin_ fuel collection).bind fun it => some (!it.isValid)

namespace Collection

/-- The pointer inside a `NajaCollection::Iterator`. -/
def begin (fuel : Nat) : Collection α → Option (BaseIterator α)
  | .unset => some .null
  | .of collection => begin_ fuel collection

def end_ : Collection α → BaseIterator α
  | .unset => .null
  | .of collection => collection.end_

def size (fuel : Nat) : Collection α → Option Nat
  | .unset => some 0
  | .of collection => collection.size fuel

def empty (fuel : Nat) : Collection α → Option Bool
  | .unset => some true
  | .of collection => collection.empty fuel

end Collection

namespace Iterator

def equals (it r : BaseIterator α) : Bool :=
  if it.isNull then r.isNull else !r.isNull && it.isEqual r

def increment (fuel : Nat) (it : BaseIterator α) : Option (BaseIterator α) :=
  if it.isNull then some it else progress fuel it

/-- The copy constructor. -/
def copy (it : BaseIterator α) : BaseIterator α :=
  if it.isNull then .null else it.clone

end Iterator

namespace Collection

/-- The elements a `for` loop goes through from an iterator on. -/
def visitFrom (fuel : Nat) (it endIt : BaseIterator α) : Option (List (Option α)) :=
  (whileDo (fun s : BaseIterator α × List (Option α) => !Iterator.equals s.1 endIt)
    (fun fuel s => (Iterator.increment fuel s.1).bind fun it => some (it, s.2 ++ [s.1.getElement])) fuel
    (it, [])).map (·.2)

def visit (fuel : Nat) (collection : Collection α) : Option (List (Option α)) :=
  (collection.begin fuel).bind fun it => visitFrom fuel it collection.end_

/-- The iterator `steps` increments after `begin()`. -/
def iteratorAt (fuel : Nat) (collection : Collection α) : Nat → Option (BaseIterator α)
  | 0 => collection.begin fuel
  | steps + 1 => (iteratorAt fuel collection steps).bind (Iterator.increment fuel)

/-- The loop of `operator==`. -/
def compareFrom : Nat → BaseIterator α → BaseIterator α → BaseIterator α → Option Bool
  | 0, _, _, _ => none
  | fuel + 1, it, rit, endIt =>
      if !Iterator.equals it endIt then
        if it.getElement ≠ rit.getElement then some false
        else
          (Iterator.increment fuel it).bind fun it =>
            (Iterator.increment fuel rit).bind fun rit => compareFrom fuel it rit endIt
      else some true

/-- `operator==`. -/
def equals (fuel : Nat) (collection r : Collection α) : Option Bool :=
  (collection.size fuel).bind fun size =>
    (r.size fuel).bind fun rSize =>
      if size = rSize then
        (collection.begin fuel).bind fun it =>
          (r.begin fuel).bind fun rit => compareFrom fuel it rit collection.end_
      else some false

end Collection

end Virtual

end Naja.Collections
