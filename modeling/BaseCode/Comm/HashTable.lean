import Mathlib.Algebra.Group.Int.Defs
import Mathlib.Algebra.Group.Nat.Defs
import BaseCode.Foundation.Buckets

/-!
# The hash table

`src/comm/hash-table.c`: an array of chains that is enlarged, with every stored key hashed
again, when it is more than a third full. Keys and values are pointers to the table; the
functions it was created with follow them, so what they answer depends on the memory at the
time of the call. `KeyFuncs` is the two functions at one such time. A call reports the value
it hands to the table's value-free function.
-/

namespace BaseCode.Comm
open Foundation

/-- `hash_func` and `equal_func`. -/
structure KeyFuncs (κ : Type) where
  hash : κ → Nat
  equal : κ → κ → Bool

/-- `int_hash`: an `int` taken as an `unsigned long`. -/
def intHash (v : Int) : Nat := (v % 2 ^ 64).toNat

/-- `int_hash` and `int_equal` on keys that are the values themselves. -/
def intKeys : KeyFuncs Int := ⟨intHash, fun a b => a == b⟩

/-- `int_hash` and `int_equal` as they are: the keys are addresses of `int` cells, read when
the function is called. -/
def cellKeys (mem : Nat → Int) : KeyFuncs Nat :=
  ⟨fun a => intHash (mem a), fun a b => mem a == mem b⟩

structure HashTable (κ ν : Type) where
  table : Nat → List (κ × ν)
  tableSize : Nat
  entries : Nat
  primeIndex : Nat

def hashTablePrimes : List Nat :=
  [193, 389, 769, 1543, 3079, 6151, 12289, 24593, 49157, 98317, 196613, 393241, 786433, 1572869,
    3145739, 6291469, 12582917, 25165843, 50331653, 100663319, 201326611, 402653189, 805306457,
    1610612741]

variable {κ ν : Type}

/-- The size that `hash_table_allocate_table` gives a table, for as long as it is an `int`. -/
def newTableSize (primeIndex entries : Nat) : Nat :=
  hashTablePrimes.getD primeIndex (entries * 10)

def hashTableAllocateTable (t : HashTable κ ν) : HashTable κ ν :=
  { t with table := fun _ => [], tableSize := newTableSize t.primeIndex t.entries }

def emptyTable : HashTable κ ν := hashTableAllocateTable ⟨fun _ => [], 0, 0, 0⟩

instance : Inhabited (HashTable κ ν) := ⟨emptyTable⟩

/-- Creation allocates the structure and then its array. -/
def hashTableNew (structOk tableOk : Bool) : Option (HashTable κ ν) :=
  if structOk then if tableOk then some emptyTable else none else none

/-- All entries, chain by chain. -/
def HashTable.toList (t : HashTable κ ν) : List (κ × ν) := flatten t.tableSize t.table

def HashTable.values (t : HashTable κ ν) : List ν := t.toList.map Prod.snd

/-- Put an entry at the front of its chain. -/
def link (f : KeyFuncs κ) (size : Nat) (b : Nat → List (κ × ν)) (e : κ × ν) :
    Nat → List (κ × ν) :=
  Function.update b (f.hash e.1 % size) (e :: b (f.hash e.1 % size))

/-- `none` when the new array cannot be allocated; the table is then as before. -/
def hashTableEnlarge (f : KeyFuncs κ) (t : HashTable κ ν) (callocOk : Bool) :
    Option (HashTable κ ν) :=
  if callocOk then
    let t' := hashTableAllocateTable { t with primeIndex := t.primeIndex + 1 }
    some { t' with table := t.toList.foldl (link f t'.tableSize) t'.table }
  else none

structure InsertResult (κ ν : Type) where
  ret : Bool
  freed : Option ν
  table : HashTable κ ν

/-- The part of `hash_table_insert` after the table has its size: overwrite the entry with an
equal key, or else link a new one. -/
def insertEntry (f : KeyFuncs κ) (t : HashTable κ ν) (key : κ) (value : ν) (mallocOk : Bool) :
    InsertResult κ ν :=
  let index := f.hash key % t.tableSize
  match splitFirst (fun e => f.equal e.1 key) (t.table index) with
  | some (a, e, b) =>
    ⟨true, some e.2,
      { t with table := Function.update t.table index (a ++ (key, value) :: b) }⟩
  | none =>
    if mallocOk then
      ⟨true, none, { t with
        table := link f t.tableSize t.table (key, value)
        entries := t.entries + 1 }⟩
    else ⟨false, none, t⟩

/-- More than a third of the array is in use, for as long as the product is an `int`. -/
def HashTable.full (t : HashTable κ ν) : Bool := decide (0 < t.entries * 3 / t.tableSize)

/-- The products that an insertion takes in `int` do not overflow: the one of the test, and the
size of a new array once the primes have run out. -/
def HashTable.IntFits (t : HashTable κ ν) : Prop :=
  t.entries * 3 < 2 ^ 31 ∧
    (t.full = true → hashTablePrimes.length ≤ t.primeIndex + 1 → t.entries * 10 < 2 ^ 31)

instance (t : HashTable κ ν) : Decidable t.IntFits := inferInstanceAs (Decidable (_ ∧ (_ → _ → _)))

def hashTableInsert (f : KeyFuncs κ) (t : HashTable κ ν) (key : κ) (value : ν)
    (callocOk mallocOk : Bool) : InsertResult κ ν :=
  if t.full then
    match hashTableEnlarge f t callocOk with
    | some t' => insertEntry f t' key value mallocOk
    | none => ⟨false, none, t⟩
  else insertEntry f t key value mallocOk

def hashTableLookup (f : KeyFuncs κ) (t : HashTable κ ν) (key : κ) : Option ν :=
  ((t.table (f.hash key % t.tableSize)).find? fun e => f.equal key e.1).map Prod.snd

/-- The value freed with the removed entry, if there was one, and the table. -/
def hashTableRemove (f : KeyFuncs κ) (t : HashTable κ ν) (key : κ) :
    Option ν × HashTable κ ν :=
  let index := f.hash key % t.tableSize
  match splitFirst (fun e => f.equal key e.1) (t.table index) with
  | some (a, e, b) => (some e.2, { t with
      table := Function.update t.table index (a ++ b)
      entries := t.entries - 1 })
  | none => (none, t)

end BaseCode.Comm
