import Mathlib.Algebra.Group.Nat.Defs
import Mathlib.Data.Set.Basic
import BaseCode.Foundation.BitArrays
import BaseCode.Foundation.Handles
import BaseCode.Foundation.Machines

/-!
# The bloom filter

`src/comm/bloom-filter.c`: a table of bits, some of which are set for each value that is
inserted. A filter cannot be asked what it holds, but a value that was put in is never denied,
also after filters have been united, intersected, read into a buffer and loaded from it.
Numbers are `unsigned int`s; an access outside a table, a missing salt or a division by zero is
a fault, `none`.
-/

namespace BaseCode.Comm
open Foundation

/-- `struct _BloomFilter`; the hash function is given by its address. -/
structure BloomFilter where
  hashFunc : Nat
  table : List UInt8
  tableSize : Nat
  numFunctions : Nat

def salts : List UInt64 :=
  [0x5cee4612, 0xb5587b1c, 0xa250f2b0, 0xa3bf6d2a, 0x7a81bd1a, 0x92888d7f, 0x1dc977c7, 0xedc96624,
    0x920c85d9, 0xf16066b3, 0xc6f0d4b3, 0x2b76eb86, 0xcacb3893, 0x493d81c5, 0xf5a133ac, 0x039740bf,
    0x162b8224, 0xf841de90, 0xc3e5090d, 0x3bce93a7, 0xf1860334, 0xe832b5f1, 0xf5b6535b, 0xe4cf4fa6,
    0x8357b769, 0x1442b07a, 0x21c5863d, 0xabc0d846, 0x6dc0d77a, 0x23a3992c, 0xe12179ba, 0xd81d1e23,
    0xcff4727b, 0xe957ecfb, 0xee8f391a, 0x426efa23, 0x3a34ff2c, 0x8b875d94, 0x34fd0f63, 0xf159daae,
    0xaabab8b3, 0xa83a07ba, 0x4e54fb33, 0xfb82fab8, 0x2ae2888f, 0xd1a307a8, 0xbe33322d, 0x87c73f86,
    0x7270fa7e, 0x68673c55, 0x2c8026d0, 0xead8e422, 0xa3ee5132, 0xecb67767, 0x1c3b1ae5, 0x47adf5b6,
    0xf4518d30, 0x46e62797, 0x9889aa76, 0x1405aadf, 0xf62f9124, 0x5c435ac5, 0x35b8dfe3, 0x651c08c5]

/-- `(table_size + 7) / 8`. -/
def arraySize (tableSize : Nat) : Nat := (tableSize + 7) % 2 ^ 32 / 8

/-- `none` for a null pointer. -/
def bloomFilterNew (tableSize hashFunc numFunctions : Nat) (structOk tableOk : Bool) :
    Option BloomFilter :=
  if salts.length < numFunctions then none
  else if structOk && tableOk then
    some ⟨hashFunc, List.replicate (arraySize tableSize) 0, tableSize, numFunctions⟩
  else none

/-- The bit that hash function `i` belongs to. -/
def bloomIndex (filter : BloomFilter) (hash : UInt64) (i : Nat) : Option Nat :=
  if filter.tableSize = 0 then none
  else salts[i]?.map fun salt => (hash ^^^ salt).toNat % filter.tableSize

/-- `table[index / 8] |= 1 << (index % 8)`. -/
def setBit (table : List UInt8) (index : Nat) : Option (List UInt8) := do
  let b ← table[index / 8]?
  some (table.set (index / 8) (b ||| mask (index % 8)))

def bloomFilterInsert (filter : BloomFilter) (hash : UInt64) : Option BloomFilter := do
  let table ← (List.range filter.numFunctions).foldlM (fun table i => do
    setBit table (← bloomIndex filter hash i)) filter.table
  some { filter with table }

/-- The loop of `bloom_filter_query`. -/
def queryBits (filter : BloomFilter) (hash : UInt64) : List Nat → Option Bool
  | [] => some true
  | i :: is => do
    let index ← bloomIndex filter hash i
    let b ← filter.table[index / 8]?
    if b &&& mask (index % 8) = 0 then some false else queryBits filter hash is

def bloomFilterQuery (filter : BloomFilter) (hash : UInt64) : Option Bool :=
  queryBits filter hash (List.range filter.numFunctions)

/-- `memcpy` of the first `n` bytes. -/
def copyBytes (dst src : List UInt8) (n : Nat) : Option (List UInt8) :=
  if n ≤ dst.length ∧ n ≤ src.length then some (src.take n ++ dst.drop n) else none

/-- The contents of the caller's buffer after the call. -/
def bloomFilterRead (filter : BloomFilter) (array : List UInt8) : Option (List UInt8) :=
  copyBytes array filter.table (arraySize filter.tableSize)

def bloomFilterLoad (filter : BloomFilter) (array : List UInt8) : Option BloomFilter := do
  let table ← copyBytes filter.table array (arraySize filter.tableSize)
  some { filter with table }

/-- Both filters were created with the same values. -/
def sameValues (filter1 filter2 : BloomFilter) : Bool :=
  filter1.tableSize == filter2.tableSize && filter1.numFunctions == filter2.numFunctions &&
    filter1.hashFunc == filter2.hashFunc

/-- `result->table[i] = ..` of a union or an intersection. -/
def combineByte (op : UInt8 → UInt8 → UInt8) (table1 table2 table : List UInt8) (i : Nat) :
    Option (List UInt8) := do
  let b1 ← table1[i]?
  let b2 ← table2[i]?
  if i < table.length then some (table.set i (op b1 b2)) else none

/-- The outer `none` is a fault, the inner one a null pointer. -/
def bloomFilterCombine (op : UInt8 → UInt8 → UInt8) (filter1 filter2 : BloomFilter)
    (structOk tableOk : Bool) : Option (Option BloomFilter) :=
  if sameValues filter1 filter2 then
    match bloomFilterNew filter1.tableSize filter1.hashFunc filter1.numFunctions structOk
      tableOk with
    | none => some none
    | some result => do
      let table ← (List.range (arraySize filter1.tableSize)).foldlM
        (combineByte op filter1.table filter2.table) result.table
      some (some { result with table })
  else some none

def bloomFilterUnion (filter1 filter2 : BloomFilter) (structOk tableOk : Bool) :
    Option (Option BloomFilter) := bloomFilterCombine (· ||| ·) filter1 filter2 structOk tableOk

def bloomFilterIntersection (filter1 filter2 : BloomFilter) (structOk tableOk : Bool) :
    Option (Option BloomFilter) := bloomFilterCombine (· &&& ·) filter1 filter2 structOk tableOk

/-- A size that can be rounded up to bytes and divided by. -/
structure TableSize where
  val : Nat
  pos : 0 < val
  lt : val < 2 ^ 32 - 7

theorem TableSize.arraySize_eq (size : TableSize) : arraySize size.val = (size.val + 7) / 8 := by
  have hlt := size.lt
  rw [arraySize, Nat.mod_eq_of_lt (by omega)]

/-- What a filter stands for: its bits, and values that it may not deny. -/
structure BloomView (α : Type) where
  hashFunc : Nat
  tableSize : TableSize
  numFunctions : Nat
  bits : Nat → Bool
  certain : Set α

section Views

variable {α : Type} (hashOf : Nat → α → UInt64)

/-- The bits of a value. -/
def BloomView.positions (view : BloomView α) (value : α) : List Nat :=
  (List.range view.numFunctions).map fun i =>
    (hashOf view.hashFunc value ^^^ salts.getD i 0).toNat % view.tableSize.val

def BloomView.query (view : BloomView α) (value : α) : Bool :=
  (view.positions hashOf value).all view.bits

def BloomView.insert (view : BloomView α) (value : α) : BloomView α :=
  { view with
    bits := fun j => view.bits j || (view.positions hashOf value).contains j
    certain := view.certain ∪ {value} }

/-- Created with the same values. -/
def BloomView.Matches (view1 view2 : BloomView α) : Prop :=
  view1.tableSize.val = view2.tableSize.val ∧ view1.numFunctions = view2.numFunctions ∧
    view1.hashFunc = view2.hashFunc

def BloomView.union (view1 view2 : BloomView α) : BloomView α :=
  { view1 with
    bits := fun j => view1.bits j || view2.bits j
    certain := view1.certain ∪ view2.certain }

def BloomView.intersection (view1 view2 : BloomView α) : BloomView α :=
  { view1 with
    bits := fun j => view1.bits j && view2.bits j
    certain := view1.certain ∩ view2.certain }

/-- The bits of another filter in place of its own. -/
def BloomView.load (view saved : BloomView α) : BloomView α :=
  { view with bits := saved.bits, certain := saved.certain }

/-- No value that may not be denied is. -/
def BloomView.Sound (view : BloomView α) : Prop := ∀ v ∈ view.certain, view.query hashOf v = true

end Views

/-- A filter with these bits. -/
structure BloomHolds {α : Type} (filter : BloomFilter) (view : BloomView α) : Prop where
  hashFunc : filter.hashFunc = view.hashFunc
  tableSize : filter.tableSize = view.tableSize.val
  numFunctions : filter.numFunctions = view.numFunctions
  few : view.numFunctions ≤ 64
  length : filter.table.length = arraySize view.tableSize.val
  bits : ∀ j, bitAt filter.table j = view.bits j

section Operations

variable {α : Type} {hashOf : Nat → α → UInt64} {filter : BloomFilter} {view : BloomView α}
  {value : α}

theorem TableSize.div_lt (size : TableSize) (n : Nat) :
    n % size.val / 8 < arraySize size.val := by
  have hlt := Nat.mod_lt n size.pos
  rw [size.arraySize_eq]
  omega

theorem bloomIndex_eq (h : BloomHolds filter view) (hash : UInt64) {i : Nat}
    (hi : i < view.numFunctions) :
    bloomIndex filter hash i = some ((hash ^^^ salts.getD i 0).toNat % view.tableSize.val) := by
  have hlen : i < salts.length := Nat.lt_of_lt_of_le hi h.few
  have hne : view.tableSize.val ≠ 0 := Nat.ne_of_gt view.tableSize.pos
  rw [bloomIndex, h.tableSize, if_neg hne, List.getD_eq_getElem?_getD,
    List.getElem?_eq_getElem hlen]
  rfl

theorem setBit_spec {table : List UInt8} {index : Nat} (hlt : index / 8 < table.length) :
    ∃ table', setBit table index = some table' ∧ table'.length = table.length ∧
      ∀ j, bitAt table' j = (bitAt table j || decide (index = j)) := by
  have hget := List.getElem?_eq_getElem hlt
  refine ⟨_, ?_, ?_, fun j => bitAt_set hget⟩
  · rw [setBit, hget]
    rfl
  · rw [List.length_set]

variable (hashOf) in
theorem bloomFilterInsert_spec (h : BloomHolds filter view) (value : α) :
    ∃ filter', bloomFilterInsert filter (hashOf view.hashFunc value) = some filter' ∧
      BloomHolds filter' (view.insert hashOf value) := by
  have hloop : ∀ (is : List Nat) (table : List UInt8), (∀ i ∈ is, i < view.numFunctions) →
      table.length = arraySize view.tableSize.val →
      ∃ table', is.foldlM (fun table i => do
          setBit table (← bloomIndex filter (hashOf view.hashFunc value) i)) table = some table' ∧
        table'.length = table.length ∧ ∀ j, bitAt table' j = (bitAt table j ||
          (is.map fun i => (hashOf view.hashFunc value ^^^ salts.getD i 0).toNat %
            view.tableSize.val).contains j) := by
    intro is
    induction is with
    | nil => exact fun table _ _ => ⟨table, rfl, rfl, fun j => (Bool.or_false _).symm⟩
    | cons i is ih =>
      intro table his hlen
      obtain ⟨hi, his⟩ := List.forall_mem_cons.mp his
      have hlt := view.tableSize.div_lt (hashOf view.hashFunc value ^^^ salts.getD i 0).toNat
      rw [← hlen] at hlt
      obtain ⟨table₁, heq₁, hlen₁, hbits₁⟩ := setBit_spec hlt
      obtain ⟨table₂, heq₂, hlen₂, hbits₂⟩ := ih table₁ his (hlen₁.trans hlen)
      refine ⟨table₂, ?_, hlen₂.trans hlen₁, fun j => ?_⟩
      · rw [List.foldlM_cons, bloomIndex_eq h _ hi]
        simp only [Option.bind_eq_bind, Option.bind_some, heq₁]
        exact heq₂
      · rw [hbits₂, hbits₁, List.map_cons, List.contains_cons, Bool.or_assoc, BEq.comm]
        rfl
  obtain ⟨table', heq, hlen, hbits⟩ := hloop (List.range filter.numFunctions) filter.table
    (fun i hi => h.numFunctions ▸ List.mem_range.mp hi) h.length
  refine ⟨{ filter with table := table' }, ?_, h.hashFunc, h.tableSize, h.numFunctions, h.few,
    hlen.trans h.length, fun j => ?_⟩
  · rw [bloomFilterInsert, heq]
    rfl
  · rw [h.numFunctions] at hbits
    rw [hbits, h.bits]
    rfl

variable (hashOf) in
theorem bloomFilterQuery_eq (h : BloomHolds filter view) (value : α) :
    bloomFilterQuery filter (hashOf view.hashFunc value) = some (view.query hashOf value) := by
  have hloop : ∀ is : List Nat, (∀ i ∈ is, i < view.numFunctions) →
      queryBits filter (hashOf view.hashFunc value) is =
        some ((is.map fun i => (hashOf view.hashFunc value ^^^ salts.getD i 0).toNat %
          view.tableSize.val).all view.bits) := by
    intro is
    induction is with
    | nil => exact fun _ => rfl
    | cons i is ih =>
      intro his
      obtain ⟨hi, his⟩ := List.forall_mem_cons.mp his
      have hlt := view.tableSize.div_lt (hashOf view.hashFunc value ^^^ salts.getD i 0).toNat
      rw [← h.length] at hlt
      have hget := List.getElem?_eq_getElem hlt
      have hbit := bitAt_of_getElem hget
      rw [h.bits] at hbit
      simp only [queryBits, bloomIndex_eq h _ hi, hget, Option.bind_eq_bind, Option.bind_some,
        and_mask_eq_zero (Nat.mod_lt _ (Nat.succ_pos 7)), ← hbit, List.map_cons, List.all_cons]
      cases view.bits ((hashOf view.hashFunc value ^^^ salts.getD i 0).toNat %
          view.tableSize.val) with
      | true => exact ih his
      | false => rfl
  rw [bloomFilterQuery, h.numFunctions]
  exact hloop _ fun i hi => List.mem_range.mp hi

/-- A filter that was just created. -/
theorem bloomFilterNew_spec (α : Type) (size : TableSize) (hashFunc numFunctions : Nat)
    (structOk tableOk : Bool) :
    (bloomFilterNew size.val hashFunc numFunctions structOk tableOk = none ∧
        (64 < numFunctions ∨ structOk = false ∨ tableOk = false)) ∨
      ∃ filter, bloomFilterNew size.val hashFunc numFunctions structOk tableOk = some filter ∧
        numFunctions ≤ 64 ∧ structOk = true ∧ tableOk = true ∧
        BloomHolds filter (⟨hashFunc, size, numFunctions, fun _ => false, ∅⟩ : BloomView α) := by
  have hsalts : salts.length = 64 := rfl
  rw [bloomFilterNew, hsalts]
  split
  · next hmany => exact .inl ⟨rfl, .inl hmany⟩
  · next hfew =>
    cases structOk with
    | false => exact .inl ⟨rfl, .inr (.inl rfl)⟩
    | true =>
      cases tableOk with
      | false => exact .inl ⟨rfl, .inr (.inr rfl)⟩
      | true =>
        exact .inr ⟨_, rfl, Nat.not_lt.mp hfew, rfl, rfl, rfl, rfl, rfl, Nat.not_lt.mp hfew,
          List.length_replicate, fun _ => bitAt_replicate⟩

theorem copyBytes_eq {dst src : List UInt8} (h : dst.length = src.length) :
    copyBytes dst src src.length = some src := by
  rw [copyBytes, if_pos ⟨Nat.le_of_eq h.symm, Nat.le_refl _⟩, List.take_length,
    List.drop_of_length_le (Nat.le_of_eq h), List.append_nil]

theorem bloomFilterRead_eq (h : BloomHolds filter view) {array : List UInt8}
    (hlen : array.length = arraySize view.tableSize.val) :
    bloomFilterRead filter array = some filter.table := by
  rw [bloomFilterRead, h.tableSize, ← h.length]
  exact copyBytes_eq (hlen.trans h.length.symm)

/-- What is read from one filter and loaded into another makes it an equal one. -/
theorem bloomFilterLoad_spec {view' : BloomView α} {filter' : BloomFilter}
    (h : BloomHolds filter view) (h' : BloomHolds filter' view')
    (hsize : view'.tableSize.val = view.tableSize.val) :
    ∃ filter'', bloomFilterLoad filter' filter.table = some filter'' ∧
      BloomHolds filter'' (view'.load view) := by
  have hlen : filter'.table.length = filter.table.length := by
    rw [h'.length, h.length, hsize]
  refine ⟨{ filter' with table := filter.table }, ?_, h'.hashFunc, h'.tableSize,
    h'.numFunctions, h'.few, ?_, h.bits⟩
  · rw [bloomFilterLoad, h'.tableSize, hsize, ← h.length, copyBytes_eq hlen]
    rfl
  · show filter.table.length = arraySize view'.tableSize.val
    rw [hsize]
    exact h.length

/-- The loop writes the bytes of the result one after the other. -/
theorem combine_loop (op : UInt8 → UInt8 → UInt8) {table1 table2 table : List UInt8}
    (h12 : table1.length = table2.length) (hlen : table.length = table1.length) {n : Nat}
    (hn : n ≤ table1.length) :
    (List.range n).foldlM (combineByte op table1 table2) table =
      some (List.zipWith op (table1.take n) (table2.take n) ++ table.drop n) := by
  induction n with
  | zero => rfl
  | succ n ih =>
    have h1 : n < table1.length := hn
    have h2 : n < table2.length := h12 ▸ h1
    have h3 : n < table.length := hlen ▸ h1
    have hzip : (List.zipWith op (table1.take n) (table2.take n)).length = n := by
      rw [List.length_zipWith, List.length_take, List.length_take]
      omega
    rw [List.range_succ, List.foldlM_append, ih (Nat.le_of_lt h1)]
    simp only [List.foldlM_cons, List.foldlM_nil, combineByte, Option.bind_eq_bind,
      Option.bind_some,
      List.getElem?_eq_getElem h1, List.getElem?_eq_getElem h2]
    rw [if_pos (by rw [List.length_append, hzip, List.length_drop]; omega),
      List.set_append_right _ _ (Nat.le_of_eq hzip), hzip, Nat.sub_self, List.drop_eq_getElem_cons h3,
      List.set_cons_zero, List.take_succ_eq_append_getElem h1,
      List.take_succ_eq_append_getElem h2, List.zipWith_append (by
        rw [List.length_take, List.length_take]
        omega), List.append_assoc]
    rfl

theorem sameValues_iff {filter1 filter2 : BloomFilter} {view1 view2 : BloomView α}
    (h1 : BloomHolds filter1 view1) (h2 : BloomHolds filter2 view2) :
    sameValues filter1 filter2 = true ↔ view1.Matches view2 := by
  rw [sameValues, BloomView.Matches, h1.tableSize, h1.numFunctions, h1.hashFunc, h2.tableSize,
    h2.numFunctions, h2.hashFunc]
  simp only [Bool.and_eq_true, beq_iff_eq, and_assoc]

theorem bloomFilterCombine_spec {filter1 filter2 : BloomFilter} {view1 view2 : BloomView α}
    (h1 : BloomHolds filter1 view1) (h2 : BloomHolds filter2 view2)
    {op : UInt8 → UInt8 → UInt8} {p : Bool → Bool → Bool}
    (hop : ∀ b b' i, bitOf (op b b') i = p (bitOf b i) (bitOf b' i)) (hp : p false false = false)
    (certain : Set α) (structOk tableOk : Bool) :
    (bloomFilterCombine op filter1 filter2 structOk tableOk = some none ∧
        (¬ view1.Matches view2 ∨ structOk = false ∨ tableOk = false)) ∨
      ∃ filter, bloomFilterCombine op filter1 filter2 structOk tableOk = some (some filter) ∧
        view1.Matches view2 ∧ structOk = true ∧ tableOk = true ∧ BloomHolds filter { view1 with
          bits := fun j => p (view1.bits j) (view2.bits j), certain } := by
  have hsame := sameValues_iff h1 h2
  rw [bloomFilterCombine]
  split
  · next heq =>
    have hvalues := hsame.mp heq
    have h12 : filter1.table.length = filter2.table.length := by
      rw [h1.length, h2.length, hvalues.1]
    rw [h1.tableSize, h1.hashFunc, h1.numFunctions]
    rcases bloomFilterNew_spec α view1.tableSize view1.hashFunc view1.numFunctions structOk
        tableOk with ⟨hnew, hwhy⟩ | ⟨result, hnew, -, hs, ht, hresult⟩
    · rw [hnew]
      refine .inl ⟨rfl, .inr ?_⟩
      rcases hwhy with hmany | hwhy
      · exact absurd h1.few (Nat.not_le.mpr hmany)
      · exact hwhy
    · have hlen : result.table.length = filter1.table.length := by rw [hresult.length, h1.length]
      have hloop := combine_loop op h12 hlen (Nat.le_refl _)
      rw [List.take_length, h12, List.take_length, ← h12,
        List.drop_of_length_le (Nat.le_of_eq hlen), List.append_nil, h1.length] at hloop
      rw [hnew]
      simp only [hloop, Option.bind_eq_bind, Option.bind_some]
      refine .inr ⟨_, rfl, hvalues, hs, ht, hresult.hashFunc, hresult.tableSize, hresult.numFunctions,
        hresult.few, ?_, fun j => ?_⟩
      · rw [List.length_zipWith, ← h12, Nat.min_self]
        exact h1.length
      · show bitAt (List.zipWith op filter1.table filter2.table) j = _
        rw [bitAt_zipWith hop hp h12, h1.bits, h2.bits]
  · next hne => exact .inl ⟨rfl, .inl fun heq => hne (hsame.mpr heq)⟩

end Operations

section Soundness

variable {α : Type} {hashOf : Nat → α → UInt64} {view view1 view2 : BloomView α}

theorem BloomView.Matches.positions_eq (h : view1.Matches view2) (value : α) :
    view1.positions hashOf value = view2.positions hashOf value := by
  obtain ⟨hsize, hnum, hfunc⟩ := h
  rw [positions, positions, hsize, hnum, hfunc]

theorem BloomView.sound_empty (hashFunc numFunctions : Nat) (size : TableSize) :
    (⟨hashFunc, size, numFunctions, fun _ => false, ∅⟩ : BloomView α).Sound hashOf :=
  fun _ hv => hv.elim

/-- More bits deny nothing more. -/
theorem BloomView.query_mono {bits : Nat → Bool} (hbits : ∀ j, view.bits j = true → bits j = true)
    {value : α} (h : view.query hashOf value = true) :
    ({ view with bits } : BloomView α).query hashOf value = true := by
  rw [query, List.all_eq_true] at *
  exact fun j hj => hbits j (h j hj)

theorem BloomView.Sound.insert (h : view.Sound hashOf) (value : α) :
    (view.insert hashOf value).Sound hashOf := by
  intro v hv
  rcases hv with hv | rfl
  · refine query_mono (fun j hj => ?_) (h v hv)
    show (view.bits j || _) = true
    rw [hj, Bool.true_or]
  · rw [query, List.all_eq_true]
    intro j hj
    have hmem : (view.positions hashOf v).contains j = true := List.contains_iff_mem.mpr hj
    show (view.bits j || (view.positions hashOf v).contains j) = true
    rw [hmem, Bool.or_true]

theorem BloomView.query_of_matches (h : view1.Matches view2) (value : α) {bits : Nat → Bool} :
    ({ view1 with bits } : BloomView α).query hashOf value =
      ({ view2 with bits } : BloomView α).query hashOf value := by
  have hbits : ({ view1 with bits } : BloomView α).Matches { view2 with bits } := h
  rw [query, query, hbits.positions_eq]

theorem BloomView.Sound.union (h1 : view1.Sound hashOf) (h2 : view2.Sound hashOf)
    (hm : view1.Matches view2) : (view1.union view2).Sound hashOf := by
  intro v hv
  rcases hv with hv | hv
  · refine query_mono (fun j hj => ?_) (h1 v hv)
    show (view1.bits j || view2.bits j) = true
    rw [hj, Bool.true_or]
  · refine (query_of_matches hm v).trans ?_
    refine query_mono (fun j hj => ?_) (h2 v hv)
    show (view1.bits j || view2.bits j) = true
    rw [hj, Bool.or_true]

theorem BloomView.Sound.intersection (h1 : view1.Sound hashOf) (h2 : view2.Sound hashOf)
    (hm : view1.Matches view2) : (view1.intersection view2).Sound hashOf := by
  rintro v ⟨hv1, hv2⟩
  have hq1 := h1 v hv1
  have hq2 := h2 v hv2
  rw [query, List.all_eq_true] at *
  intro j hj
  have hj2 : j ∈ view2.positions hashOf v := by
    rw [← hm.positions_eq]
    exact hj
  show (view1.bits j && view2.bits j) = true
  rw [hq1 j hj, hq2 j hj2]
  rfl

/-- The bits of a filter with the same values are taken over. -/
theorem BloomView.Sound.load (h2 : view2.Sound hashOf) (hm : view1.Matches view2) :
    (view1.load view2).Sound hashOf :=
  fun v hv => (query_of_matches hm v).trans (h2 v hv)

end Soundness

inductive BloomCall (α : Type) where
  | new (tableSize : TableSize) (hashFunc numFunctions : Nat) (structOk tableOk : Bool)
  | insert (filter : Nat) (value : α)
  | query (filter : Nat) (value : α)
  | read (filter : Nat)
  | load (filter array : Nat)
  | union (filter1 filter2 : Nat) (structOk tableOk : Bool)
  | intersection (filter1 filter2 : Nat) (structOk tableOk : Bool)
  | free (filter : Nat)

inductive BloomAnswer where
  | filter (new : Option Nat)
  | done
  | result (ret : Bool)
  | notMade

/-- The filters by number, and what was read from filters, each with the values that its filter
was created with. -/
structure BloomState where
  filters : List (Option BloomFilter)
  arrays : List (Option BloomFilter)

def addFilter (st : BloomState) : Option BloomFilter → BloomAnswer × BloomState
  | some new => (.filter (some st.filters.length), { st with filters := st.filters ++ [some new] })
  | none => (.filter none, st)

/-- A call on a filter that is not there is not made. -/
def onFilter (st : BloomState) (slot : Option (Option BloomFilter))
    (k : BloomFilter → Option (BloomAnswer × BloomState)) : Option (BloomAnswer × BloomState) :=
  match slot.join with
  | some f => k f
  | none => some (.notMade, st)

section Runs

variable {α : Type} (hashOf : Nat → α → UInt64)

/-- One call. What was read is loaded only into a filter that was created with the same
values. -/
def bloomCall (st : BloomState) : BloomCall α → Option (BloomAnswer × BloomState)
  | .new tableSize hashFunc numFunctions structOk tableOk =>
    some (addFilter st (bloomFilterNew tableSize.val hashFunc numFunctions structOk tableOk))
  | .insert filter value => onFilter st st.filters[filter]? fun f => do
    let f ← bloomFilterInsert f (hashOf f.hashFunc value)
    some (.done, { st with filters := st.filters.set filter (some f) })
  | .query filter value => onFilter st st.filters[filter]? fun f => do
    some (.result (← bloomFilterQuery f (hashOf f.hashFunc value)), st)
  | .read filter => onFilter st st.filters[filter]? fun f => do
    let array ← bloomFilterRead f (List.replicate (arraySize f.tableSize) 0)
    some (.done, { st with arrays := st.arrays ++ [some { f with table := array }] })
  | .load filter array => onFilter st st.filters[filter]? fun f =>
    onFilter st st.arrays[array]? fun saved =>
      if sameValues f saved then do
        let f ← bloomFilterLoad f saved.table
        some (.done, { st with filters := st.filters.set filter (some f) })
      else some (.notMade, st)
  | .union filter1 filter2 structOk tableOk => onFilter st st.filters[filter1]? fun f1 =>
    onFilter st st.filters[filter2]? fun f2 => do
      some (addFilter st (← bloomFilterUnion f1 f2 structOk tableOk))
  | .intersection filter1 filter2 structOk tableOk => onFilter st st.filters[filter1]? fun f1 =>
    onFilter st st.filters[filter2]? fun f2 => do
      some (addFilter st (← bloomFilterIntersection f1 f2 structOk tableOk))
  | .free filter => onFilter st st.filters[filter]? fun _ =>
    some (.done, { st with filters := st.filters.set filter none })

structure BloomViews (α : Type) where
  filters : List (Option (BloomView α))
  arrays : List (Option (BloomView α))

/-- All that a call is about is there, and fits. -/
def Ready (vs : BloomViews α) : BloomCall α → Prop
  | .new .. => True
  | .insert filter _ | .query filter _ | .read filter | .free filter =>
    ∃ v, vs.filters[filter]?.join = some v
  | .load filter array => ∃ v saved, vs.filters[filter]?.join = some v ∧
    vs.arrays[array]?.join = some saved ∧ v.Matches saved
  | .union filter1 filter2 _ _ | .intersection filter1 filter2 _ _ =>
    ∃ v1 v2, vs.filters[filter1]?.join = some v1 ∧ vs.filters[filter2]?.join = some v2

/-- What a call answers, and what the filters hold after it. -/
inductive BloomMeaning : BloomViews α → BloomCall α → BloomAnswer → BloomViews α → Prop
  | notMade {vs call} (hnot : ¬ Ready vs call) : BloomMeaning vs call .notMade vs
  | new {vs size hashFunc k} (hfew : k ≤ 64) :
      BloomMeaning vs (.new size hashFunc k true true) (.filter (some vs.filters.length))
        { vs with filters := vs.filters ++ [some ⟨hashFunc, size, k, fun _ => false, ∅⟩] }
  | newFails {vs size hashFunc k structOk tableOk}
      (hwhy : 64 < k ∨ structOk = false ∨ tableOk = false) :
      BloomMeaning vs (.new size hashFunc k structOk tableOk) (.filter none) vs
  | insert {vs filter v value} (hv : vs.filters[filter]?.join = some v) :
      BloomMeaning vs (.insert filter value) .done
        { vs with filters := vs.filters.set filter (some (v.insert hashOf value)) }
  | query {vs filter v value} (hv : vs.filters[filter]?.join = some v) :
      BloomMeaning vs (.query filter value) (.result (v.query hashOf value)) vs
  | read {vs filter v} (hv : vs.filters[filter]?.join = some v) :
      BloomMeaning vs (.read filter) .done { vs with arrays := vs.arrays ++ [some v] }
  | load {vs filter array v saved} (hv : vs.filters[filter]?.join = some v)
      (hsaved : vs.arrays[array]?.join = some saved) (hm : v.Matches saved) :
      BloomMeaning vs (.load filter array) .done
        { vs with filters := vs.filters.set filter (some (v.load saved)) }
  | union {vs filter1 filter2 v1 v2} (hv1 : vs.filters[filter1]?.join = some v1)
      (hv2 : vs.filters[filter2]?.join = some v2) (hm : v1.Matches v2) :
      BloomMeaning vs (.union filter1 filter2 true true) (.filter (some vs.filters.length))
        { vs with filters := vs.filters ++ [some (v1.union v2)] }
  | unionFails {vs filter1 filter2 v1 v2 structOk tableOk}
      (hv1 : vs.filters[filter1]?.join = some v1) (hv2 : vs.filters[filter2]?.join = some v2)
      (hwhy : ¬ v1.Matches v2 ∨ structOk = false ∨ tableOk = false) :
      BloomMeaning vs (.union filter1 filter2 structOk tableOk) (.filter none) vs
  | intersection {vs filter1 filter2 v1 v2} (hv1 : vs.filters[filter1]?.join = some v1)
      (hv2 : vs.filters[filter2]?.join = some v2) (hm : v1.Matches v2) :
      BloomMeaning vs (.intersection filter1 filter2 true true)
        (.filter (some vs.filters.length))
        { vs with filters := vs.filters ++ [some (v1.intersection v2)] }
  | intersectionFails {vs filter1 filter2 v1 v2 structOk tableOk}
      (hv1 : vs.filters[filter1]?.join = some v1) (hv2 : vs.filters[filter2]?.join = some v2)
      (hwhy : ¬ v1.Matches v2 ∨ structOk = false ∨ tableOk = false) :
      BloomMeaning vs (.intersection filter1 filter2 structOk tableOk) (.filter none) vs
  | free {vs filter v} (hv : vs.filters[filter]?.join = some v) :
      BloomMeaning vs (.free filter) .done { vs with filters := vs.filters.set filter none }

/-- A filter with these bits, that denies nothing it may not deny. -/
def BloomAgrees (f : BloomFilter) (v : BloomView α) : Prop := BloomHolds f v ∧ v.Sound hashOf

structure BloomRep (st : BloomState) (vs : BloomViews α) : Prop where
  filters : Slots (BloomAgrees hashOf) st.filters vs.filters
  arrays : Slots (BloomAgrees hashOf) st.arrays vs.arrays

end Runs

section Calls

variable {α : Type} {hashOf : Nat → α → UInt64} {st : BloomState} {vs : BloomViews α}

theorem addFilter_spec (h : BloomRep hashOf st vs) {call : BloomCall α}
    {new : Option BloomFilter}
    (hnew : (new = none ∧ BloomMeaning hashOf vs call (.filter none) vs) ∨
      ∃ f v, new = some f ∧ BloomAgrees hashOf f v ∧
        BloomMeaning hashOf vs call (.filter (some vs.filters.length))
          { vs with filters := vs.filters ++ [some v] }) :
    ∃ r st' vs', some (addFilter st new) = some (r, st') ∧ BloomMeaning hashOf vs call r vs' ∧
      BloomRep hashOf st' vs' := by
  rcases hnew with ⟨rfl, hm⟩ | ⟨f, v, rfl, hf, hm⟩
  · exact ⟨_, _, _, rfl, hm, h⟩
  · rw [← h.filters.length] at hm
    exact ⟨_, _, _, rfl, hm, h.filters.push hf, h.arrays⟩

/-- A call on a filter: it is there, or no call is made. -/
theorem onFilter_spec {ss : List (Option BloomFilter)} {ts : List (Option (BloomView α))}
    (hss : Slots (BloomAgrees hashOf) ss ts) (h : BloomRep hashOf st vs) {i : Nat}
    {call : BloomCall α} (hnone : ts[i]?.join = none → ¬ Ready vs call)
    {k : BloomFilter → Option (BloomAnswer × BloomState)}
    (hk : ∀ f v, ts[i]?.join = some v → BloomAgrees hashOf f v →
      ∃ r st' vs', k f = some (r, st') ∧ BloomMeaning hashOf vs call r vs' ∧
        BloomRep hashOf st' vs') :
    ∃ r st' vs', onFilter st ss[i]? k = some (r, st') ∧ BloomMeaning hashOf vs call r vs' ∧
      BloomRep hashOf st' vs' := by
  rw [onFilter]
  rcases hss.cases i with ⟨hs, ht⟩ | ⟨f, v, hs, ht, hfv⟩
  · rw [hs]
    exact ⟨_, st, vs, rfl, .notMade (hnone ht), h⟩
  · rw [hs]
    exact hk f v ht hfv

theorem combine_call_spec {op : UInt8 → UInt8 → UInt8} {p : Bool → Bool → Bool}
    (hop : ∀ b b' i, bitOf (op b b') i = p (bitOf b i) (bitOf b' i)) (hp : p false false = false)
    (h : BloomRep hashOf st vs) {call : BloomCall α} {f1 f2 : BloomFilter} {v1 v2 v : BloomView α}
    (h1 : BloomHolds f1 v1) (h2 : BloomHolds f2 v2) {structOk tableOk : Bool}
    (hv : v = { v1 with bits := fun j => p (v1.bits j) (v2.bits j), certain := v.certain })
    (hsound : v1.Matches v2 → v.Sound hashOf)
    (hfails : (¬ v1.Matches v2 ∨ structOk = false ∨ tableOk = false) →
      BloomMeaning hashOf vs call (.filter none) vs)
    (hok : v1.Matches v2 → structOk = true → tableOk = true →
      BloomMeaning hashOf vs call (.filter (some vs.filters.length))
        { vs with filters := vs.filters ++ [some v] }) :
    ∃ r st' vs', (do
        let new ← bloomFilterCombine op f1 f2 structOk tableOk
        some (addFilter st new)) = some (r, st') ∧ BloomMeaning hashOf vs call r vs' ∧
      BloomRep hashOf st' vs' := by
  rcases bloomFilterCombine_spec h1 h2 hop hp v.certain structOk tableOk with
    ⟨heq, hwhy⟩ | ⟨f, heq, hm, hs, ht, hf⟩
  · rw [heq]
    exact addFilter_spec h (.inl ⟨rfl, hfails hwhy⟩)
  · rw [heq]
    rw [← hv] at hf
    exact addFilter_spec h (.inr ⟨f, v, rfl, ⟨hf, hsound hm⟩, hok hm hs ht⟩)

theorem bloomCall_spec (st : BloomState) (vs : BloomViews α) (call : BloomCall α)
    (h : BloomRep hashOf st vs) :
    ∃ r st' vs', bloomCall hashOf st call = some (r, st') ∧ BloomMeaning hashOf vs call r vs' ∧
      BloomRep hashOf st' vs' := by
  have hnone : ∀ {i : Nat}, vs.filters[i]?.join = none → ∀ v, vs.filters[i]?.join ≠ some v := by
    intro i hi v hv
    rw [hi] at hv
    cases hv
  cases call with
  | new size hashFunc k structOk tableOk =>
    refine addFilter_spec h ?_
    rcases bloomFilterNew_spec α size hashFunc k structOk tableOk with
      ⟨heq, hwhy⟩ | ⟨f, heq, hfew, rfl, rfl, hf⟩
    · exact .inl ⟨heq, .newFails hwhy⟩
    · exact .inr ⟨f, _, heq, ⟨hf, BloomView.sound_empty hashFunc k size⟩, .new hfew⟩
  | insert i value =>
    refine onFilter_spec h.filters h (fun hi => ?_) fun f v hv hf => ?_
    · rintro ⟨v, hv⟩
      exact hnone hi v hv
    · obtain ⟨f', heq, hf'⟩ := bloomFilterInsert_spec hashOf hf.1 value
      rw [hf.1.hashFunc, heq]
      exact ⟨_, _, _, rfl, .insert hv, h.filters.put ⟨hf', hf.2.insert value⟩, h.arrays⟩
  | query i value =>
    refine onFilter_spec h.filters h (fun hi => ?_) fun f v hv hf => ?_
    · rintro ⟨v, hv⟩
      exact hnone hi v hv
    · have heq := bloomFilterQuery_eq hashOf hf.1 value
      rw [hf.1.hashFunc, heq]
      exact ⟨_, _, _, rfl, .query hv, h⟩
  | read i =>
    refine onFilter_spec h.filters h (fun hi => ?_) fun f v hv hf => ?_
    · rintro ⟨v, hv⟩
      exact hnone hi v hv
    · have hlen : (List.replicate (arraySize f.tableSize) (0 : UInt8)).length =
          arraySize v.tableSize.val := by rw [List.length_replicate, hf.1.tableSize]
      rw [bloomFilterRead_eq hf.1 hlen]
      exact ⟨_, _, _, rfl, .read hv, h.filters, h.arrays.push hf⟩
  | load i j =>
    refine onFilter_spec h.filters h (fun hi => ?_) fun f v hv hf => ?_
    · rintro ⟨v, saved, hv, -⟩
      exact hnone hi v hv
    refine onFilter_spec h.arrays h (fun hj => ?_) fun saved w hw hsaved => ?_
    · rintro ⟨v, saved, -, hsaved, -⟩
      rw [hj] at hsaved
      cases hsaved
    split
    · next heq =>
      have hm := (sameValues_iff hf.1 hsaved.1).mp heq
      obtain ⟨f', heq', hf'⟩ := bloomFilterLoad_spec hsaved.1 hf.1 hm.1
      rw [heq']
      exact ⟨_, _, _, rfl, .load hv hw hm, h.filters.put ⟨hf', hsaved.2.load hm⟩, h.arrays⟩
    · next hne =>
      refine ⟨_, st, vs, rfl, .notMade ?_, h⟩
      rintro ⟨v', w', hv', hw', hm⟩
      rw [hv] at hv'
      rw [hw] at hw'
      cases hv'
      cases hw'
      exact hne ((sameValues_iff hf.1 hsaved.1).mpr hm)
  | union i j structOk tableOk =>
    refine onFilter_spec h.filters h (fun hi => ?_) fun f1 v1 hv1 h1 => ?_
    · rintro ⟨v1, v2, hv1, -⟩
      exact hnone hi v1 hv1
    refine onFilter_spec h.filters h (fun hj => ?_) fun f2 v2 hv2 h2 => ?_
    · rintro ⟨v1, v2, -, hv2⟩
      exact hnone hj v2 hv2
    refine combine_call_spec (p := (· || ·)) (fun _ _ _ => bitOf_or) rfl h h1.1 h2.1
      (v := v1.union v2) rfl (h1.2.union h2.2) ?_ ?_
    · exact .unionFails hv1 hv2
    · rintro hm rfl rfl
      exact .union hv1 hv2 hm
  | intersection i j structOk tableOk =>
    refine onFilter_spec h.filters h (fun hi => ?_) fun f1 v1 hv1 h1 => ?_
    · rintro ⟨v1, v2, hv1, -⟩
      exact hnone hi v1 hv1
    refine onFilter_spec h.filters h (fun hj => ?_) fun f2 v2 hv2 h2 => ?_
    · rintro ⟨v1, v2, -, hv2⟩
      exact hnone hj v2 hv2
    refine combine_call_spec (p := (· && ·)) (fun _ _ _ => bitOf_and) rfl h h1.1 h2.1
      (v := v1.intersection v2) rfl (h1.2.intersection h2.2) ?_ ?_
    · exact .intersectionFails hv1 hv2
    · rintro hm rfl rfl
      exact .intersection hv1 hv2 hm
  | free i =>
    refine onFilter_spec h.filters h (fun hi => ?_) fun f v hv hf => ?_
    · rintro ⟨v, hv⟩
      exact hnone hi v hv
    · exact ⟨_, _, _, rfl, .free hv, h.filters.put trivial, h.arrays⟩

end Calls

/-- Whatever calls are made on however many filters, whichever allocations fail and whatever the
hash functions are, nothing is read or written outside a table and each answer is right for the
bits of the filters; and a filter that is asked next for a value that it may not deny does not
deny it: one inserted into it or into a filter it was united from, one inserted into both
filters it is the intersection of, or one of a filter whose bits it has loaded. -/
theorem bloomFilter_never_denies {α : Type} (hashOf : Nat → α → UInt64)
    (calls : List (BloomCall α)) :
    ∃ rs st vs, answers (bloomCall hashOf) ⟨[], []⟩ calls = some (rs, st) ∧
      Allows (BloomMeaning hashOf) ⟨[], []⟩ calls rs vs ∧
      ∀ (i : Nat) (v : BloomView α), vs.filters[i]?.join = some v → ∀ value ∈ v.certain,
        bloomCall hashOf st (.query i value) = some (.result true, st) := by
  have hnew : BloomRep hashOf ⟨[], []⟩ ⟨[], []⟩ := ⟨.empty, .empty⟩
  obtain ⟨rs, st, vs, heq, hall, h⟩ := exists_answers bloomCall_spec hnew calls
  refine ⟨rs, st, vs, heq, hall, fun i v hv value hvalue => ?_⟩
  rcases h.filters.cases i with ⟨-, hnone⟩ | ⟨f, v', hf, hv', hholds, hsound⟩
  · rw [hnone] at hv
    cases hv
  · obtain rfl : v' = v := Option.some.inj (hv'.symm.trans hv)
    have hquery := bloomFilterQuery_eq hashOf hholds value
    rw [hsound value hvalue] at hquery
    simp only [bloomCall, onFilter, hf, hholds.hashFunc, hquery, Option.bind_eq_bind,
      Option.bind_some]

/-- A size is good for a filter with any function at all just if it is not zero and rounding it
up to bytes does not overflow: else the first insertion of any value divides by zero or writes
behind an array of no bytes. -/
theorem bloomFilterInsert_new_iff {tableSize numFunctions : Nat} (hsize : tableSize < 2 ^ 32)
    (hpos : 0 < numFunctions) (hmax : numFunctions ≤ 64) (hashFunc : Nat) (hash : UInt64) :
    ((bloomFilterNew tableSize hashFunc numFunctions true true).bind fun filter =>
        bloomFilterInsert filter hash).isSome = true ↔
      0 < tableSize ∧ tableSize < 2 ^ 32 - 7 := by
  have hsalts : ¬ salts.length < numFunctions := Nat.not_lt.mpr hmax
  rw [bloomFilterNew, if_neg hsalts]
  constructor
  · intro h
    obtain ⟨k, rfl⟩ := Nat.exists_eq_succ_of_ne_zero (Nat.ne_of_gt hpos)
    by_contra hbad
    obtain ⟨filter, hfilter⟩ : ∃ filter : BloomFilter, filter =
        ⟨hashFunc, List.replicate (arraySize tableSize) 0, tableSize, k + 1⟩ := ⟨_, rfl⟩
    have hround : ((bloomIndex filter hash 0).bind fun index => setBit filter.table index) =
        none := by
      rcases Nat.eq_zero_or_pos tableSize with h0 | hpos'
      · have hindex : bloomIndex filter hash 0 = none := by
          rw [hfilter]
          exact if_pos h0
        rw [hindex, Option.bind_none]
      · have htable : filter.table = [] := by
          have hzero : arraySize tableSize = 0 := by
            rw [arraySize]
            omega
          rw [hfilter, hzero]
          rfl
        rw [htable]
        cases bloomIndex filter hash 0 <;> rfl
    -- the first round fails, and with it the call
    have hfail : bloomFilterInsert filter hash = none := by
      have hnum : filter.numFunctions = k + 1 := by rw [hfilter]
      rw [bloomFilterInsert, hnum, List.range_succ_eq_map, List.foldlM_cons]
      simp only [Option.bind_eq_bind, hround, Option.bind_none]
    simp only [Bool.and_true, if_true, Option.bind_some] at h
    rw [← Nat.succ_eq_add_one] at hfilter
    rw [← hfilter, hfail] at h
    cases h
  · rintro ⟨h0, hlt⟩
    obtain ⟨filter, hf, hholds⟩ : ∃ filter, bloomFilterNew tableSize hashFunc numFunctions true
        true = some filter ∧ BloomHolds filter
          (⟨hashFunc, ⟨tableSize, h0, hlt⟩, numFunctions, fun _ => false, ∅⟩ : BloomView Unit) := by
      rcases bloomFilterNew_spec Unit ⟨tableSize, h0, hlt⟩ hashFunc numFunctions true true with
        ⟨-, hwhy⟩ | ⟨filter, hf, -, -, -, hholds⟩
      · rcases hwhy with hwhy | hwhy | hwhy
        · omega
        · cases hwhy
        · cases hwhy
      · exact ⟨filter, hf, hholds⟩
    obtain ⟨filter', heq, -⟩ := bloomFilterInsert_spec (fun _ _ => hash) hholds ()
    rw [bloomFilterNew, if_neg hsalts] at hf
    rw [hf, Option.bind_some, heq]
    rfl

theorem bloomFilterInsert_new_iff_top :
    (2 ^ 32 - 1 < 2 ^ 32 ∧ 0 < 3 ∧ 3 ≤ 64) ∧
      (((bloomFilterNew (2 ^ 32 - 1) 0 3 true true).bind fun filter =>
          bloomFilterInsert filter 5).isSome = true ↔
        0 < 2 ^ 32 - 1 ∧ 2 ^ 32 - 1 < 2 ^ 32 - 7) :=
  ⟨by omega, bloomFilterInsert_new_iff (by omega) (by omega) (by omega) 0 5⟩

end BaseCode.Comm
