import Mathlib.Algebra.Group.Nat.Defs
import Mathlib.Data.List.Infix
import BaseCode.Foundation.Machines
import BaseCode.Foundation.Words

/-!
# The trie

`src/comm/trie.c` on nodes in an arena. A key is the string without its terminator. The `char`
that indexes `next` is signed, so a byte of 128 or more leads out of the array; a function gives
`none` there, and where it follows a null or freed pointer.
-/

namespace BaseCode.Comm
open Foundation

/-- The value of a node, `none` for `TRIE_NULL`, and the number of keys through it. -/
structure TrieInfo (ν : Type) where
  data : Option ν
  useCount : Nat
  deriving DecidableEq, Repr

/-- `TrieNode`: `data`, `use_count` and `next`. -/
abbrev TrieNode (ν : Type) := Branch UInt8 (TrieInfo ν)

/-- `Trie`: the nodes and `root_node`. -/
abbrev Trie (ν : Type) := WordTree UInt8 (TrieInfo ν)

variable {ν : Type}

def trieNew : Trie ν := ⟨.empty, none⟩

/-- `&node->next[c]` -/
def trieNext (node : Nat) (c : UInt8) : Option (Slot UInt8) :=
  if c < 128 then some (.next node c) else none

/-- The loop of `trie_find_end`. -/
def trieFindEndFrom (trie : Trie ν) : Option Nat → List UInt8 → Option (Option Nat)
  | node, [] => some node
  | none, _ :: _ => some none
  | some node, c :: key => do
    let slot ← trieNext node c
    trieFindEndFrom trie (← slot.load trie) key

def trieFindEnd (trie : Trie ν) (key : List UInt8) : Option (Option Nat) :=
  trieFindEndFrom trie trie.root key

/-- `++node->use_count` of an `unsigned int` -/
def increment (useCount : Nat) : Nat := (useCount + 1) % 2 ^ 32

/-- `--node->use_count` of an `unsigned int` -/
def decrement (useCount : Nat) : Nat := if useCount = 0 then 2 ^ 32 - 1 else useCount - 1

/-- A node with other contents. -/
def trieSetInfo (trie : Trie ν) (node : Nat) (f : TrieInfo ν → TrieInfo ν) : Option (Trie ν) := do
  let n ← trie.nodes.cells node
  some { trie with nodes := trie.nodes.set node { n with info := f n.info } }

/-- The node is freed, and the pointer to it cleared if it is still known. -/
def trieFreeNode (trie : Trie ν) (node : Nat) : Option (Slot UInt8) → Option (Trie ν)
  | none => some { trie with nodes := trie.nodes.free node }
  | some prevPtr => prevPtr.store { trie with nodes := trie.nodes.free node } none

/-- The loop of `trie_insert_rollback`; `none` if it comes to the end of the string. -/
def trieInsertRollback (trie : Trie ν) :
    Option Nat → Option (Slot UInt8) → List UInt8 → Option (Trie ν)
  | none, _, _ => some trie
  | some _, _, [] => none
  | some node, prevPtr, c :: key => do
    let nextPrevPtr ← trieNext node c
    let nextNode ← nextPrevPtr.load trie
    let trie ← trieSetInfo trie node fun i => { i with useCount := decrement i.useCount }
    let n ← trie.nodes.cells node
    if n.info.useCount = 0 then
      let trie ← trieFreeNode trie node prevPtr
      trieInsertRollback trie nextNode none key
    else trieInsertRollback trie nextNode (some nextPrevPtr) key

/-- What the loop of `trie_insert` does at one pointer: the node there, made if it is missing.
`budget` is the number of allocations that succeed; `none` inside is a failed one. -/
def trieVisit (trie : Trie ν) (rover : Slot UInt8) (budget : Nat) :
    Option (Option (Nat × Trie ν × Nat)) := do
  match ← rover.load trie with
  | some node => some (some (node, trie, budget))
  | none =>
    match budget with
    | 0 => some none
    | budget + 1 =>
      let node := trie.nodes.next
      let trie ← rover.store
        { trie with nodes := trie.nodes.alloc ⟨⟨none, 0⟩, fun _ => none⟩ } (some node)
      some (some (node, trie, budget))

/-- The loop of `trie_insert`: whether the value is in, and the trie; after a failed
allocation the rollback is still to be done. -/
def trieInsertFrom (value : ν) :
    Trie ν → Slot UInt8 → List UInt8 → Nat → Option (Bool × Trie ν)
  | trie, rover, key, budget => do
    match ← trieVisit trie rover budget with
    | none => some (false, trie)
    | some (node, trie, budget) =>
      let trie ← trieSetInfo trie node fun i => { i with useCount := increment i.useCount }
      match key with
      | [] =>
        let trie ← trieSetInfo trie node fun i => { i with data := some value }
        some (true, trie)
      | c :: key =>
        let rover ← trieNext node c
        trieInsertFrom value trie rover key budget

/-- The value at a node, if the pointer is not null. -/
def trieData (trie : Trie ν) : Option Nat → Option (Option ν)
  | none => some none
  | some node => do
    let n ← trie.nodes.cells node
    some n.info.data

/-- The rest of `trie_insert` when the key is not there. -/
def trieInsertNew (trie : Trie ν) (key : List UInt8) (value : ν) (budget : Nat) :
    Option (Int × Trie ν) := do
  let (ok, trie) ← trieInsertFrom value trie .root key budget
  if ok then some (1, trie)
  else
    let trie ← trieInsertRollback trie trie.root (some .root) key
    some (0, trie)

/-- The return value and the trie; `value` is `none` for `TRIE_NULL`. -/
def trieInsert (trie : Trie ν) (key : List UInt8) (value : Option ν) (budget : Nat) :
    Option (Int × Trie ν) :=
  match value with
  | none => some (0, trie)
  | some value => do
    let node ← trieFindEnd trie key
    match node, ← trieData trie node with
    | some node, some _ =>
      let trie ← trieSetInfo trie node fun i => { i with data := some value }
      some (1, trie)
    | _, _ => trieInsertNew trie key value budget

/-- The loop of `trie_remove` that gives back the nodes. -/
def trieRemoveFrom : Trie ν → Option Nat → Option (Slot UInt8) → List UInt8 → Option (Trie ν)
  | trie, node, lastNextPtr, key => do
    let node ← node
    let slot ← trieNext node (key.headD 0)
    let next ← slot.load trie
    let trie ← trieSetInfo trie node fun i => { i with useCount := decrement i.useCount }
    let n ← trie.nodes.cells node
    let (trie, lastNextPtr) ←
      if n.info.useCount = 0 then do
        let trie ← trieFreeNode trie node lastNextPtr
        some (trie, none)
      else some (trie, lastNextPtr)
    match key with
    | [] => some trie
    | _ :: key => trieRemoveFrom trie next (lastNextPtr.map fun _ => slot) key

def trieRemove (trie : Trie ν) (key : List UInt8) : Option (Int × Trie ν) := do
  let node ← trieFindEnd trie key
  match node, ← trieData trie node with
  | some node, some _ =>
    let trie ← trieSetInfo trie node fun i => { i with data := none }
    let trie ← trieRemoveFrom trie trie.root (some .root) key
    some (1, trie)
  | _, _ => some (0, trie)

def trieLookup (trie : Trie ν) (key : List UInt8) : Option (Option ν) := do
  trieData trie (← trieFindEnd trie key)

/-- The count of the root, as an `int`. -/
def trieNumEntries (trie : Trie ν) : Option Int :=
  match trie.root with
  | none => some 0
  | some node => do
    let n ← trie.nodes.cells node
    some (BitVec.ofNat 32 n.info.useCount).toInt

/-- One round of the inner loop of `trie_free`: the child at `i` is put on the free list, which
is threaded through the `data` of its nodes. -/
def trieFreePush (nodes : Arena (TrieNode ν)) (n : TrieNode ν) (freeList : List Nat) (i : Nat) :
    Option (List Nat) :=
  match n.next (UInt8.ofNat i) with
  | none => some freeList
  | some next => do
    let _ ← nodes.cells next
    some (next :: freeList)

/-- The outer loop of `trie_free`, for `fuel` rounds at most. -/
def trieFreeFrom : Nat → Arena (TrieNode ν) → List Nat → Option (Arena (TrieNode ν))
  | _, nodes, [] => some nodes
  | 0, _, _ :: _ => none
  | fuel + 1, nodes, node :: freeList => do
    let n ← nodes.cells node
    let freeList ← (List.range 256).foldlM (trieFreePush nodes n) freeList
    trieFreeFrom fuel (nodes.free node) freeList

/-- The nodes that are left. -/
def trieFree (fuel : Nat) (trie : Trie ν) : Option (Arena (TrieNode ν)) :=
  trieFreeFrom fuel trie.nodes trie.root.toList

end BaseCode.Comm
