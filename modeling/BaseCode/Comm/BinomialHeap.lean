import Mathlib.Data.Multiset.Basic
import BaseCode.Foundation.Comparators
import BaseCode.Foundation.Machines
import BaseCode.Foundation.RefCounts

/-!
# The binomial heap

`src/comm/binomial-heap.c` on trees in an arena. `budget` is the number of allocations that
succeed; a function gives `none` where it follows a null or freed pointer, releases a tree that
has no reference, or where `refcount` or `order`, each an `unsigned short`, would overflow.
-/

namespace BaseCode.Comm
open Foundation

inductive BinomialHeapType where
  | min
  | max

/-- `BinomialTree`: `value`, `refcount` and `subtrees`, whose length is `order`. -/
abbrev BinomialTree (α : Type) := RefCell α

/-- `roots_length` is the length of `roots`. -/
structure BinomialHeap (α : Type) where
  trees : Arena (BinomialTree α)
  numValues : Int
  roots : List (Option Nat)

variable {α : Type}

def binomialHeapNew : BinomialHeap α := ⟨.empty, 0, []⟩

def binomialHeapCmp (heapType : BinomialHeapType) (compare : α → α → Int) (data1 data2 : α) : Int :=
  match heapType with
  | .min => compare data1 data2
  | .max => negInt (compare data1 data2)

def binomialTreeRef (trees : Arena (BinomialTree α)) :
    Option Nat → Option (Arena (BinomialTree α))
  | none => some trees
  | some tree => retain (2 ^ 16) trees tree

/-- A tree is younger than its subtrees, so the recursion is no deeper than the number of
trees. -/
def binomialTreeUnref (trees : Arena (BinomialTree α)) :
    Option Nat → Option (Arena (BinomialTree α))
  | none => some trees
  | some tree => release trees.next trees tree

/-- The new tree, the trees and what is left of the budget; `none` inside is a failed
allocation, of the tree or of its array, after which the tree is freed again. -/
def binomialTreeMerge (cmp : α → α → Int) (trees : Arena (BinomialTree α)) (tree1 tree2 : Nat)
    (budget : Nat) : Option (Option (Nat × Arena (BinomialTree α) × Nat)) := do
  let t1 ← trees.cells tree1
  let t2 ← trees.cells tree2
  let (t1, tree2) := if 0 < cmp t1.info t2.info then (t2, tree1) else (t1, tree2)
  match budget with
  | 0 | 1 => some none
  | budget + 2 =>
    let subtrees := t1.kids ++ [tree2]
    if 2 ^ 16 ≤ subtrees.length then none
    else do
      let newTree := trees.next
      let trees ← subtrees.foldlM (retain (2 ^ 16)) (trees.alloc ⟨t1.info, 0, subtrees⟩)
      some (some (newTree, trees, budget))

/-- The variables of the loop of `binomial_heap_merge`; `i` is the length of `newRoots`. -/
structure MergeLoop (α : Type) where
  trees : Arena (BinomialTree α)
  newRoots : List (Option Nat)
  newRootsLength : Nat
  carry : Option Nat
  budget : Nat

/-- The list `vals` of a round: the roots of both heaps and what is carried. -/
def mergeVals (roots others : List (Option Nat)) (s : MergeLoop α) : List Nat :=
  (roots.getD s.newRoots.length none).toList ++ (others.getD s.newRoots.length none).toList ++
    s.carry.toList

/-- The first part of a round: the entry of `new_roots`. -/
def mergeStore (vals : List Nat) (s : MergeLoop α) : Option (MergeLoop α) :=
  if vals.length &&& 1 ≠ 0 then do
    let root := vals.getLast?
    let trees ← binomialTreeRef s.trees root
    some { s with
      trees, newRoots := s.newRoots ++ [root], newRootsLength := s.newRoots.length + 1 }
  else some { s with newRoots := s.newRoots ++ [none] }

/-- The second part: the first two values are merged into the next carry. -/
def mergeCarry (cmp : α → α → Int) (vals : List Nat) (s : MergeLoop α) :
    Option (Option (Option Nat × Arena (BinomialTree α) × Nat)) :=
  if vals.length &&& 2 ≠ 0 then do
    match ← binomialTreeMerge cmp s.trees (← vals[0]?) (← vals[1]?) s.budget with
    | none => some none
    | some (newCarry, trees, budget) => some (some (some newCarry, trees, budget))
  else some (some (none, s.trees, s.budget))

/-- `binomial_heap_merge_undo` -/
def binomialHeapMergeUndo (trees : Arena (BinomialTree α)) (newRoots : List (Option Nat)) :
    Option (Arena (BinomialTree α)) :=
  newRoots.foldlM binomialTreeUnref trees

/-- The end of a round: the next carry, or what is left once the references that were added
have been given back. -/
def mergeEnd (s : MergeLoop α) : Option (Option Nat × Arena (BinomialTree α) × Nat) →
    Option (Except (Arena (BinomialTree α)) (MergeLoop α))
  | none => do
    let trees ← binomialHeapMergeUndo s.trees s.newRoots
    let trees ← binomialTreeUnref trees s.carry
    some (.error trees)
  | some (newCarry, trees, budget) => do
    let trees ← binomialTreeUnref trees s.carry
    let trees ← binomialTreeRef trees newCarry
    some (.ok { s with trees, carry := newCarry, budget })

def mergeRound (cmp : α → α → Int) (roots others : List (Option Nat)) (s : MergeLoop α) :
    Option (Except (Arena (BinomialTree α)) (MergeLoop α)) := do
  let vals := mergeVals roots others s
  let s ← mergeStore vals s
  mergeEnd s (← mergeCarry cmp vals s)

/-- The loop, which a failed allocation ends. -/
def mergeLoop (cmp : α → α → Int) (roots others : List (Option Nat)) :
    Nat → MergeLoop α → Option (Except (Arena (BinomialTree α)) (MergeLoop α))
  | 0, s => some (.ok s)
  | rounds + 1, s => do
    match ← mergeRound cmp roots others s with
    | .error trees => some (.error trees)
    | .ok s => mergeLoop cmp roots others rounds s

/-- Whether the heaps were merged, and the heap. -/
def binomialHeapMerge (cmp : α → α → Int) (heap : BinomialHeap α) (others : List (Option Nat))
    (budget : Nat) : Option (Bool × BinomialHeap α) :=
  let max := if heap.roots.length > others.length then heap.roots.length + 1 else others.length + 1
  match budget with
  | 0 => some (false, heap)
  | budget + 1 => do
    match ← mergeLoop cmp heap.roots others max ⟨heap.trees, [], 0, none, budget⟩ with
    | .error trees => some (false, { heap with trees })
    | .ok s =>
      let trees ← heap.roots.foldlM binomialTreeUnref s.trees
      some (true, { heap with trees, roots := s.newRoots.take s.newRootsLength })

def binomialHeapInsert (cmp : α → α → Int) (heap : BinomialHeap α) (value : α) (budget : Nat) :
    Option (Bool × BinomialHeap α) :=
  match budget with
  | 0 => some (false, heap)
  | budget + 1 => do
    let newTree := heap.trees.next
    let heap := { heap with trees := heap.trees.alloc ⟨value, 1, []⟩ }
    let (result, heap) ← binomialHeapMerge cmp heap [some newTree] budget
    let numValues ← if result then countUp heap.numValues else some heap.numValues
    let trees ← binomialTreeUnref heap.trees (some newTree)
    some (result, { heap with trees, numValues })

/-- The loop of `binomial_heap_pop` that looks for the least root, at index `i`; `least` is
`none` for `-1`. -/
def leastRoot (cmp : α → α → Int) (trees : Arena (BinomialTree α)) :
    Nat → List (Option Nat) → Option (Nat × Nat) → Option (Option (Nat × Nat))
  | _, [], least => some least
  | i, none :: roots, least => leastRoot cmp trees (i + 1) roots least
  | i, some root :: roots, none => leastRoot cmp trees (i + 1) roots (some (i, root))
  | i, some root :: roots, some (least, tree) => do
    let t ← trees.cells root
    let l ← trees.cells tree
    if cmp t.info l.info < 0 then leastRoot cmp trees (i + 1) roots (some (i, root))
    else leastRoot cmp trees (i + 1) roots (some (least, tree))

/-- The value, `none` for `BINOMIAL_HEAP_NULL`, and the heap. -/
def binomialHeapPop (cmp : α → α → Int) (heap : BinomialHeap α) (budget : Nat) :
    Option (Option α × BinomialHeap α) :=
  if heap.numValues = 0 then some (none, heap)
  else do
    let (least, leastTree) ← (← leastRoot cmp heap.trees 0 heap.roots none)
    let t ← heap.trees.cells leastTree
    let (ok, heap) ← binomialHeapMerge cmp { heap with roots := heap.roots.set least none }
      (t.kids.map some) budget
    if ok then
      let t ← heap.trees.cells leastTree
      let trees ← binomialTreeUnref heap.trees (some leastTree)
      some (some t.info, { heap with trees, numValues := heap.numValues - 1 })
    else some (none, { heap with roots := heap.roots.set least (some leastTree) })

def binomialHeapNumEntries (heap : BinomialHeap α) : Int := heap.numValues

/-- The trees that are left. -/
def binomialHeapFree (heap : BinomialHeap α) : Option (Arena (BinomialTree α)) :=
  heap.roots.foldlM binomialTreeUnref heap.trees

end BaseCode.Comm
