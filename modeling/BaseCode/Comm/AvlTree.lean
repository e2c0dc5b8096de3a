import BaseCode.Foundation.Ints

/-!
# The balanced search tree

`src/comm/avl-tree.c`. A pointer to a node is the subtree below it. The parent pointers are
the path from a node to the root: one frame for each ancestor, with the ancestor's own fields
and its other child. A function gives `none` where the code would follow a null pointer, or count
past the largest `int`.

The heights are kept as the code keeps them, also where it computes one from a field that is
out of date: `avl_tree_rotate` sets the height of the new root before that of the node below
it, and `avl_tree_node_replace` sets the height of a parent from a child that is about to
change.
-/

namespace BaseCode.Comm
open Foundation

/-- `AVLTreeNodeSide` -/
inductive AvlTreeNodeSide where
  | left
  | right
  deriving DecidableEq, Repr

namespace AvlTreeNodeSide

/-- `1 - side` -/
def other : AvlTreeNodeSide → AvlTreeNodeSide
  | left => right
  | right => left

/-- `children[side]` -/
def pick {α : Type} : AvlTreeNodeSide → α → α → α
  | left, l, _ => l
  | right, _, r => r

end AvlTreeNodeSide

inductive AvlTreeNode (κ ν : Type) where
  | null
  | node (left right : AvlTreeNode κ ν) (key : κ) (value : ν) (height : Int)
  deriving DecidableEq, Repr

variable {κ ν : Type}

namespace AvlTreeNode

def isNull : AvlTreeNode κ ν → Bool
  | null => true
  | node .. => false

/-- A node by its child on a side and its child on the other. -/
def join (side : AvlTreeNodeSide) (near far : AvlTreeNode κ ν) (key : κ) (value : ν)
    (height : Int) : AvlTreeNode κ ν :=
  match side with
  | .left => node near far key value height
  | .right => node far near key value height

/-- `avl_tree_subtree_height` -/
def height : AvlTreeNode κ ν → Int
  | null => 0
  | node _ _ _ _ h => h

/-- The height that `avl_tree_update_height` finds over two children. -/
def heightOver (left right : AvlTreeNode κ ν) : Int :=
  if left.height > right.height then left.height + 1 else right.height + 1

/-- `avl_tree_update_height` -/
def updateHeight : AvlTreeNode κ ν → AvlTreeNode κ ν
  | null => null
  | node l r k v _ => node l r k v (heightOver l r)

end AvlTreeNode

open AvlTreeNode (join updateHeight)

/-- An ancestor as seen from a child on the given side: its fields and its other child. -/
structure AvlFrame (κ ν : Type) where
  side : AvlTreeNodeSide
  sibling : AvlTreeNode κ ν
  key : κ
  value : ν
  height : Int
  deriving DecidableEq, Repr

/-- The ancestors of a node, from its parent to the root. -/
abbrev AvlPath (κ ν : Type) := List (AvlFrame κ ν)

/-- The ancestor with a child put back on its side. -/
def AvlFrame.plug (f : AvlFrame κ ν) (child : AvlTreeNode κ ν) : AvlTreeNode κ ν :=
  join f.side child f.sibling f.key f.value f.height

/-- The whole tree around a subtree. -/
def AvlPath.fill : AvlPath κ ν → AvlTreeNode κ ν → AvlTreeNode κ ν
  | [], t => t
  | f :: path, t => AvlPath.fill path (f.plug t)

/-- What `avl_tree_node_replace` does to the parent when `node2` takes a child's place. -/
def AvlFrame.replace (f : AvlFrame κ ν) (node2 : AvlTreeNode κ ν) : AvlFrame κ ν :=
  { f with height := (updateHeight (f.plug node2)).height }

/-- The new root of the section, and the parent of the section, if it has one. -/
def avlTreeRotate (parent : Option (AvlFrame κ ν)) (direction : AvlTreeNodeSide) :
    AvlTreeNode κ ν → Option (AvlTreeNode κ ν × Option (AvlFrame κ ν))
  | .null => none
  | .node l r k v h =>
    match direction.other.pick l r with
    | .null => none
    | .node l' r' k' v' h' =>
      let parent := parent.map fun f => f.replace (.node l' r' k' v' h')
      let node := join direction (direction.pick l r) (direction.pick l' r') k v h
      -- the new root is measured over the node's old height
      let newRoot := updateHeight (join direction node (direction.other.pick l' r') k' v' h')
      some (join direction node.updateHeight (direction.other.pick l' r') k' v' newRoot.height,
        parent)

/-- A rotation of a child; the node is the parent meanwhile. -/
def avlTreeRotateChild (side direction : AvlTreeNodeSide) :
    AvlTreeNode κ ν → Option (AvlTreeNode κ ν)
  | .null => none
  | .node l r k v h => do
    let (child, parent) ←
      avlTreeRotate (some ⟨side, side.other.pick l r, k, v, h⟩) direction (side.pick l r)
    let node ← parent
    some (node.plug child)

/-- One of the two cases of `avl_tree_node_balance` in which `side` is two too high. -/
def avlTreeRaise (parent : Option (AvlFrame κ ν)) (side : AvlTreeNodeSide) :
    AvlTreeNode κ ν → Option (AvlTreeNode κ ν × Option (AvlFrame κ ν))
  | .null => none
  | .node l r k v h =>
    match side.pick l r with
    | .null => none
    | .node cl cr _ _ _ => do
      let node := .node l r k v h
      let node ← if (side.pick cl cr).height < (side.other.pick cl cr).height then
          avlTreeRotateChild side side node
        else some node
      avlTreeRotate parent side.other node

/-- The root of the subtree that takes the node's place, and the parent. -/
def avlTreeNodeBalance (parent : Option (AvlFrame κ ν)) :
    AvlTreeNode κ ν → Option (AvlTreeNode κ ν × Option (AvlFrame κ ν))
  | .null => none
  | .node l r k v h => do
    let node := .node l r k v h
    let diff := r.height - l.height
    let (node, parent) ←
      if diff ≥ 2 then avlTreeRaise parent .right node
      else if diff ≤ -2 then avlTreeRaise parent .left node
      else some (node, parent)
    some (node.updateHeight, parent)

/-- Balances the node and its ancestors; the result is the root. -/
def avlTreeBalanceToRoot : AvlTreeNode κ ν → AvlPath κ ν → Option (AvlTreeNode κ ν)
  | node, [] => do
    let (node, _) ← avlTreeNodeBalance none node
    some node
  | node, f :: path => do
    let (node, parent) ← avlTreeNodeBalance (some f) node
    let parent ← parent
    avlTreeBalanceToRoot (parent.plug node) path

/-- `avl_tree_balance_to_root` from the parent of a subtree; without a parent nothing is done
and the subtree is the root. -/
def avlTreeBalanceAbove (child : AvlTreeNode κ ν) : AvlPath κ ν → Option (AvlTreeNode κ ν)
  | [] => some child
  | f :: path => avlTreeBalanceToRoot (f.plug child) path

structure AvlTree (κ ν : Type) where
  rootNode : AvlTreeNode κ ν
  numNodes : Int
  deriving DecidableEq, Repr

def avlTreeNew : AvlTree κ ν := ⟨.null, 0⟩

section Compare

variable (compareFunc : κ → κ → Int)

/-- The walk of `avl_tree_insert` down to a null pointer, as the path back from there. -/
def avlTreeDescend (key : κ) : AvlTreeNode κ ν → AvlPath κ ν → AvlPath κ ν
  | .null, path => path
  | .node l r k v h, path =>
    if compareFunc key k < 0 then avlTreeDescend key l (⟨.left, r, k, v, h⟩ :: path)
    else avlTreeDescend key r (⟨.right, l, k, v, h⟩ :: path)

/-- Whether a node was returned, and the tree. -/
def avlTreeInsert (tree : AvlTree κ ν) (key : κ) (value : ν) (mallocOk : Bool) :
    Option (Bool × AvlTree κ ν) :=
  if mallocOk then do
    let path := avlTreeDescend compareFunc key tree.rootNode []
    let root ← avlTreeBalanceAbove (.node .null .null key value 1) path
    let numNodes ← countUp tree.numNodes
    some (true, ⟨root, numNodes⟩)
  else some (false, tree)

/-- The node found, with its ancestors. -/
def avlTreeLookupNode (key : κ) :
    AvlTreeNode κ ν → AvlPath κ ν → Option (AvlTreeNode κ ν × AvlPath κ ν)
  | .null, _ => none
  | .node l r k v h, path =>
    if compareFunc key k = 0 then some (.node l r k v h, path)
    else if compareFunc key k < 0 then avlTreeLookupNode key l (⟨.left, r, k, v, h⟩ :: path)
    else avlTreeLookupNode key r (⟨.right, l, k, v, h⟩ :: path)

/-- `none` for `AVL_TREE_NULL`. -/
def avlTreeLookup (tree : AvlTree κ ν) (key : κ) : Option ν :=
  match avlTreeLookupNode compareFunc key tree.rootNode [] with
  | some (.node _ _ _ v _, _) => some v
  | _ => none

end Compare

/-- The search of `avl_tree_node_get_replacement` from the child on `side`, back towards the
centre: the key, the value and the remaining child of the node it ends at, and the nodes
passed on the way. -/
def avlTreeInnermost (side : AvlTreeNodeSide) :
    AvlTreeNode κ ν → AvlPath κ ν → Option ((κ × ν × AvlTreeNode κ ν) × AvlPath κ ν)
  | .null, _ => none
  | .node l r k v h, path =>
    match side with
    | .left =>
      if r.isNull then some ((k, v, l), path)
      else avlTreeInnermost .left r (⟨.right, l, k, v, h⟩ :: path)
    | .right =>
      if l.isNull then some ((k, v, r), path)
      else avlTreeInnermost .right l (⟨.left, r, k, v, h⟩ :: path)

/-- `avl_tree_remove_node` where the subtree on `side` gives the swap node. -/
def avlTreeSwap (path : AvlPath κ ν) (side : AvlTreeNodeSide) (near far : AvlTreeNode κ ν)
    (k : κ) (v : ν) (h : Int) : Option (AvlTreeNode κ ν) := do
  let ((key, value, child), inner) ← avlTreeInnermost side near []
  match inner with
  | [] =>
    -- the swap node hung from the node itself, which has a new height by now
    let node := updateHeight (join side child far k v h)
    let swapNode := join side child far key value node.height
    avlTreeBalanceToRoot swapNode (path.modifyHead fun f => f.replace swapNode)
  | f :: inner =>
    let f := f.replace child
    let swapNode : AvlFrame κ ν := ⟨side, far, key, value, h⟩
    let above := path.modifyHead fun p =>
      p.replace (swapNode.plug (AvlPath.fill inner (f.plug child)))
    avlTreeBalanceToRoot (f.plug child) (inner ++ swapNode :: above)

/-- The root of the tree without the node that has these ancestors. -/
def avlTreeRemoveNode (path : AvlPath κ ν) : AvlTreeNode κ ν → Option (AvlTreeNode κ ν)
  | .null => none
  | .node .null .null _ _ _ =>
    avlTreeBalanceAbove .null (path.modifyHead fun f => f.replace .null)
  | .node l r k v h =>
    if l.height < r.height then avlTreeSwap path .right r l k v h
    else avlTreeSwap path .left l r k v h

/-- The return value and the tree. -/
def avlTreeRemove (compareFunc : κ → κ → Int) (tree : AvlTree κ ν) (key : κ) :
    Option (Int × AvlTree κ ν) :=
  match avlTreeLookupNode compareFunc key tree.rootNode [] with
  | none => some (0, tree)
  | some (node, path) => do
    let root ← avlTreeRemoveNode path node
    some (1, ⟨root, tree.numNodes - 1⟩)

/-- `avl_tree_to_array_add_subtree`: the cells written so far, up to the index. -/
def avlTreeToArrayAddSubtree : AvlTreeNode κ ν → List κ → List κ
  | .null, array => array
  | .node l r k _ _, array =>
    avlTreeToArrayAddSubtree r (avlTreeToArrayAddSubtree l array ++ [k])

/-- The cells written, or `none` for a null pointer; the array has room for `numNodes`. -/
def avlTreeToArray (tree : AvlTree κ ν) (mallocOk : Bool) : Option (List κ) :=
  if mallocOk then some (avlTreeToArrayAddSubtree tree.rootNode []) else none

def avlTreeNumEntries (tree : AvlTree κ ν) : Int := tree.numNodes

end BaseCode.Comm
