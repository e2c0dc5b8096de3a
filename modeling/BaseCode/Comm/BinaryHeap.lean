import Mathlib.Algebra.Group.Nat.Defs
import BaseCode.Foundation.HeapOrder
import BaseCode.Foundation.Machines

/-!
# The binary heap

`src/comm/binary-heap.c`: values in an array that is doubled when it is full. A new value is
percolated up from the end of the array, and the last value down from the front when the first
one is taken. A step that would read or write outside the array, read a cell that was never
written, or overflow an `int` is a fault, `none`.
-/

namespace BaseCode.Comm
open Foundation

inductive BinaryHeapType where
  | min
  | max
  deriving DecidableEq

/-- `struct _BinaryHeap` without its type and its comparison; a cell of the array is `none`
until it is written. The values `α` are pointers other than `BINARY_HEAP_NULL`. -/
structure BinaryHeap (α : Type) where
  values : List (Option α)
  numValues : Nat
  allocedSize : Nat

variable {α : Type}

def binaryHeapCmp (heapType : BinaryHeapType) (compare : α → α → Int) (data1 data2 : α) : Int :=
  match heapType with
  | .min => compare data1 data2
  | .max => negInt (compare data1 data2)

def readCell (values : List (Option α)) (index : Nat) : Option α := values[index]?.join

def writeCell (values : List (Option α)) (index : Nat) (value : α) : Option (List (Option α)) :=
  if index < values.length then some (values.set index (some value)) else none

/-- Memory for 16 values. -/
def binaryHeapNew : BinaryHeap α := ⟨List.replicate 16 none, 0, 16⟩

section

variable (cmp : α → α → Int)

/-- The loop that looks for the place of a value, from `index` up, and the write that ends it. -/
def percolateUp (values : List (Option α)) (value : α) (index : Nat) : Option (List (Option α)) :=
  if h : 0 < index then do
    let above ← readCell values ((index - 1) / 2)
    if cmp above value < 0 then writeCell values index value
    else
      let values ← writeCell values index above
      percolateUp values value ((index - 1) / 2)
  else writeCell values index value
termination_by index

/-- `none` of the second kind: the array is full and could not be enlarged. -/
def binaryHeapReserve (heap : BinaryHeap α) (reallocOk : Bool) : Option (Option (BinaryHeap α)) :=
  if heap.allocedSize ≤ heap.numValues then
    let newsize := heap.allocedSize * 2
    if newsize < 2 ^ 31 then
      if reallocOk then
        some (some { heap with
          values := heap.values ++ List.replicate (newsize - heap.values.length) none
          allocedSize := newsize })
      else some none
    else none
  else some (some heap)

def binaryHeapInsert (heap : BinaryHeap α) (value : α) (reallocOk : Bool) :
    Option (Bool × BinaryHeap α) := do
  match ← binaryHeapReserve heap reallocOk with
  | none => some (false, heap)
  | some heap =>
    let values ← percolateUp cmp heap.values value heap.numValues
    some (true, { heap with values, numValues := heap.numValues + 1 })

/-- There is a child and it comes before the value. -/
def childBelow (values : List (Option α)) (numValues : Nat) (value : α) (child : Nat) :
    Option Bool :=
  if child < numValues then do some (decide (0 < cmp value (← readCell values child)))
  else some false

/-- The child to go down to, if the value cannot stay at `index`. -/
def nextIndex (values : List (Option α)) (numValues : Nat) (newValue : α) (index : Nat) :
    Option (Option Nat) :=
  let child1 := index * 2 + 1
  let child2 := index * 2 + 2
  if child2 < 2 ^ 31 then do
    if ← childBelow cmp values numValues newValue child1 then
      let value1 ← readCell values child1
      if ← childBelow cmp values numValues value1 child2 then some (some child2)
      else some (some child1)
    else if ← childBelow cmp values numValues newValue child2 then some (some child2)
    else some none
  else none

/-- The loop that looks for the place of a value, from `index` down, in at most so many rounds. -/
def percolateDown (numValues : Nat) (newValue : α) :
    Nat → List (Option α) → Nat → Option (List (Option α))
  | 0, _, _ => none
  | rounds + 1, values, index => do
    match ← nextIndex cmp values numValues newValue index with
    | some next =>
      let below ← readCell values next
      let values ← writeCell values index below
      percolateDown numValues newValue rounds values next
    | none => writeCell values index newValue

/-- The value is `none` for an empty heap. -/
def binaryHeapPop (heap : BinaryHeap α) : Option (Option α × BinaryHeap α) :=
  if heap.numValues = 0 then some (none, heap)
  else do
    let result ← readCell heap.values 0
    let newValue ← readCell heap.values (heap.numValues - 1)
    let numValues := heap.numValues - 1
    let values ← percolateDown cmp numValues newValue (numValues + 1) heap.values 0
    some (some result, { heap with values, numValues })

end

def binaryHeapNumEntries (heap : BinaryHeap α) : Nat := heap.numValues

/-- The array has these values in its first `n` cells, but for the one at `hole`. -/
structure Agrees (values : List (Option α)) (w : Nat → α) (n hole : Nat) : Prop where
  room : n ≤ values.length
  cell : ∀ i < n, i ≠ hole → values[i]? = some (some (w i))

section Cells

variable {values : List (Option α)} {w : Nat → α} {n hole i : Nat}

theorem Agrees.read (h : Agrees values w n hole) (hi : i < n) (hne : i ≠ hole) :
    readCell values i = some (w i) := by
  rw [readCell, h.cell i hi hne]
  rfl

/-- The value that belongs into the hole is written. -/
theorem Agrees.fill (h : Agrees values w n hole) (hlen : hole < values.length) (k : Nat) :
    ∃ values', writeCell values hole (w hole) = some values' ∧ Agrees values' w n k ∧
      values'.length = values.length := by
  refine ⟨values.set hole (some (w hole)), if_pos hlen, ⟨?_, fun i hi _ => ?_⟩, List.length_set⟩
  · rw [List.length_set]
    exact h.room
  · rw [List.getElem?_set]
    split
    · next heq => rw [heq]
    · next hne => exact h.cell i hi (Ne.symm hne)

/-- The value at `i` is copied into the hole, and leaves a hole behind. -/
theorem Agrees.move (h : Agrees values w n hole) (hhole : hole < n) (i : Nat) :
    ∃ values', writeCell values hole (w i) = some values' ∧
      Agrees values' (exchange w hole i) n i ∧ values'.length = values.length := by
  have hlen : hole < values.length := Nat.lt_of_lt_of_le hhole h.room
  refine ⟨values.set hole (some (w i)), if_pos hlen, ⟨?_, fun j hj hji => ?_⟩, List.length_set⟩
  · rw [List.length_set]
    exact h.room
  · rw [List.getElem?_set]
    split
    · next heq =>
      subst heq
      rw [exchange_left]
    · next hjh =>
      rw [exchange_of_ne (Ne.symm hjh) hji]
      exact h.cell j hj (Ne.symm hjh)

end Cells

section Percolate

variable {c : Comparator α} {values : List (Option α)} {w : Nat → α} {n index : Nat}

/-- What the loops make of the array. -/
def Settled (c : Comparator α) (values : List (Option α)) (w : Nat → α) (n : Nat)
    (values' : List (Option α)) : Prop :=
  ∃ w', Agrees values' w' n n ∧ HeapOrdered c w' n ∧ content w' n = content w n ∧
    values'.length = values.length

theorem percolateUp_spec (h : Agrees values w n index) (ho : UpTo c w n index) (hlt : index < n) :
    ∃ values', percolateUp c.compare values (w index) index = some values' ∧
      Settled c values w n values' := by
  induction index using Nat.strongRecOn generalizing values w with
  | ind index ih =>
    have hlen : index < values.length := Nat.lt_of_lt_of_le hlt h.room
    rw [percolateUp]
    split
    · next hpos =>
      have hp := parent_lt hpos
      have hread : readCell values ((index - 1) / 2) = some (w (parent index)) :=
        h.read (Nat.lt_trans hp hlt) (Nat.ne_of_lt hp)
      simp only [hread, Option.bind_eq_bind, Option.bind_some]
      split
      · next hbefore =>
        obtain ⟨values', hw, h', hlen'⟩ := h.fill hlen n
        exact ⟨values', hw, w, h', ho.done fun _ => Comparator.le_of_lt hbefore, rfl, hlen'⟩
      · next hbefore =>
        have hle := Comparator.not_lt_iff.mp hbefore
        obtain ⟨values', hw, h', hlen'⟩ := h.move hlt (parent index)
        obtain ⟨values'', heq, w'', h'', ho'', hc'', hlen''⟩ :=
          ih (parent index) hp h' (ho.up hpos hlt hle) (Nat.lt_trans hp hlt)
        rw [exchange_right] at heq
        rw [content_exchange hlt (Nat.lt_trans hp hlt)] at hc''
        simp only [hw, Option.bind_some]
        exact ⟨values'', heq, w'', h'', ho'', hc'', hlen''.trans hlen'⟩
    · next hzero =>
      obtain ⟨values', hw, h', hlen'⟩ := h.fill hlen n
      exact ⟨values', hw, w, h', ho.done fun hpos => absurd hpos hzero, rfl, hlen'⟩

theorem childBelow_eq (h : Agrees values w n index) (value : α) {child : Nat}
    (hne : child ≠ index) : childBelow c.compare values n value child =
      some (decide (child < n ∧ 0 < c.compare value (w child))) := by
  rw [childBelow]
  split
  · next hlt =>
    rw [h.read hlt hne]
    simp [hlt]
  · next hlt => simp [hlt]

/-- The value may stay, or goes down to a first child that comes before it. -/
theorem nextIndex_spec (h : Agrees values w n index) (hint : index * 2 + 2 < 2 ^ 31) :
    (nextIndex c.compare values n (w index) index = some none ∧
        ∀ i, 0 < i → i < n → parent i = index → c.Le (w index) (w i)) ∨
      ∃ next, nextIndex c.compare values n (w index) index = some (some next) ∧ 0 < next ∧
        next < n ∧ parent next = index ∧ c.Le (w next) (w index) ∧
        ∀ i, 0 < i → i < n → parent i = index → c.Le (w next) (w i) := by
  have hchild : ∀ i, 0 < i → parent i = index → i = index * 2 + 1 ∨ i = index * 2 + 2 := by
    intro i hi hp
    rw [parent] at hp
    omega
  have hp1 : parent (index * 2 + 1) = index := by rw [parent]; omega
  have hp2 : parent (index * 2 + 2) = index := by rw [parent]; omega
  simp only [nextIndex, if_pos hint, Option.bind_eq_bind]
  rw [childBelow_eq h _ (by omega), Option.bind_some]
  by_cases h1 : index * 2 + 1 < n ∧ 0 < c.compare (w index) (w (index * 2 + 1))
  · -- the first child comes before the value; the second may come before the first
    have hle1 := Comparator.le_of_pos h1.2
    rw [decide_eq_true h1, if_pos rfl, h.read h1.1 (by omega), Option.bind_some,
      childBelow_eq h _ (by omega), Option.bind_some]
    by_cases h2 : index * 2 + 2 < n ∧ 0 < c.compare (w (index * 2 + 1)) (w (index * 2 + 2))
    · have hle2 := Comparator.le_of_pos h2.2
      rw [decide_eq_true h2, if_pos rfl]
      refine .inr ⟨_, rfl, by omega, h2.1, hp2, Comparator.le_trans hle2 hle1, ?_⟩
      intro i hi hin hpi
      rcases hchild i hi hpi with rfl | rfl
      · exact hle2
      · exact Comparator.le_refl _
    · rw [decide_eq_false h2, if_neg Bool.false_ne_true]
      refine .inr ⟨_, rfl, by omega, h1.1, hp1, hle1, ?_⟩
      intro i hi hin hpi
      rcases hchild i hi hpi with rfl | rfl
      · exact Comparator.le_refl _
      · exact Int.not_lt.mp fun hlt => h2 ⟨hin, hlt⟩
  · rw [decide_eq_false h1, if_neg Bool.false_ne_true, childBelow_eq h _ (by omega),
      Option.bind_some]
    have hle1 : index * 2 + 1 < n → c.Le (w index) (w (index * 2 + 1)) := fun hlt =>
      Int.not_lt.mp fun hpos => h1 ⟨hlt, hpos⟩
    by_cases h2 : index * 2 + 2 < n ∧ 0 < c.compare (w index) (w (index * 2 + 2))
    · have hle2 := Comparator.le_of_pos h2.2
      rw [decide_eq_true h2, if_pos rfl]
      refine .inr ⟨_, rfl, by omega, h2.1, hp2, hle2, ?_⟩
      intro i hi hin hpi
      rcases hchild i hi hpi with rfl | rfl
      · exact Comparator.le_trans hle2 (hle1 hin)
      · exact Comparator.le_refl _
    · rw [decide_eq_false h2, if_neg Bool.false_ne_true]
      refine .inl ⟨rfl, ?_⟩
      intro i hi hin hpi
      rcases hchild i hi hpi with rfl | rfl
      · exact hle1 hin
      · exact Int.not_lt.mp fun hpos => h2 ⟨hin, hpos⟩

theorem percolateDown_spec {rounds : Nat} (h : Agrees values w n index)
    (ho : DownFrom c w n index) (hlen : index < values.length) (hint : n ≤ 2 ^ 30 - 1)
    (hindex : index < n ∨ index = 0) (hrounds : n < index + rounds + 1 ∧ 0 < rounds) :
    ∃ values', percolateDown c.compare n (w index) rounds values index = some values' ∧
      Settled c values w n values' := by
  induction rounds generalizing values w index with
  | zero => omega
  | succ rounds ih =>
    rw [percolateDown]
    rcases nextIndex_spec (c := c) h (by omega) with
      ⟨heq, hle⟩ | ⟨next, heq, hpos, hlt, hp, hle, hfirst⟩
    · obtain ⟨values', hw, h', hlen'⟩ := h.fill hlen n
      simp only [heq, Option.bind_eq_bind, Option.bind_some]
      exact ⟨values', hw, w, h', ho.done hle, rfl, hlen'⟩
    · have hpn := parent_lt hpos
      rw [hp] at hpn
      have hin : index < n := Nat.lt_trans hpn hlt
      obtain ⟨values', hw, h', hlen'⟩ := h.move hin next
      obtain ⟨values'', heq', w'', h'', ho'', hc'', hlen''⟩ :=
        ih h' (ho.down hpos hlt hp hle hfirst) (by have := h.room; omega) (.inl hlt) (by omega)
      rw [exchange_right] at heq'
      rw [content_exchange hin hlt] at hc''
      simp only [heq, Option.bind_eq_bind, Option.bind_some, h.read hlt (Nat.ne_of_gt hpn), hw]
      exact ⟨values'', heq', w'', h'', ho'', hc'', hlen''.trans hlen'⟩

end Percolate

inductive BinaryHeapCall (α : Type) where
  | insert (value : α) (reallocOk : Bool)
  | pop
  | numEntries

inductive BinaryHeapAnswer (α : Type) where
  | inserted (result : Bool)
  | popped (value : Option α)
  | entries (n : Nat)

def binaryHeapCall (heapType : BinaryHeapType) (compare : α → α → Int) (heap : BinaryHeap α) :
    BinaryHeapCall α → Option (BinaryHeapAnswer α × BinaryHeap α)
  | .insert value reallocOk => do
    let (result, heap) ← binaryHeapInsert (binaryHeapCmp heapType compare) heap value reallocOk
    some (.inserted result, heap)
  | .pop => do
    let (value, heap) ← binaryHeapPop (binaryHeapCmp heapType compare) heap
    some (.popped value, heap)
  | .numEntries => some (.entries (binaryHeapNumEntries heap), heap)

/-- The order in which a heap of a type gives out values. -/
def BinaryHeapType.order (heapType : BinaryHeapType) (c : Comparator α) : Comparator α :=
  match heapType with
  | .min => c
  | .max => c.neg

theorem binaryHeapCmp_eq {heapType : BinaryHeapType} {c : Comparator α}
    (hneg : heapType = .max → c.Negatable) :
    binaryHeapCmp heapType c.compare = (heapType.order c).compare := by
  cases heapType with
  | min => rfl
  | max =>
    funext data1 data2
    exact (hneg rfl).negInt_compare data1 data2

/-- What a call answers on the values `vs`, and the values after it. An insertion fails only if
the array is full, at 16 values or 32 and so on, and cannot be enlarged. -/
inductive BinaryHeapMeaning (c : Comparator α) :
    Multiset α → BinaryHeapCall α → BinaryHeapAnswer α → Multiset α → Prop
  | insert {vs value reallocOk} :
      BinaryHeapMeaning c vs (.insert value reallocOk) (.inserted true) (value ::ₘ vs)
  | insertFails {vs value k} (hfull : vs.card = 16 * 2 ^ k) :
      BinaryHeapMeaning c vs (.insert value false) (.inserted false) vs
  | pop {vs value} (hleast : ∀ x ∈ vs, c.Le value x) :
      BinaryHeapMeaning c (value ::ₘ vs) .pop (.popped (some value)) vs
  | popEmpty : BinaryHeapMeaning c 0 .pop (.popped none) 0
  | numEntries {vs} : BinaryHeapMeaning c vs .numEntries (.entries vs.card) vs

/-- A heap with these values; if there is any value at all, the array stands for a function. -/
structure BinaryHeapHolds (c : Comparator α) (heap : BinaryHeap α) (vs : Multiset α) : Prop where
  alloced : heap.allocedSize = heap.values.length
  size : ∃ k, heap.allocedSize = 16 * 2 ^ k
  count : heap.numValues = vs.card
  cells : Nonempty α → ∃ w, Agrees heap.values w heap.numValues heap.numValues ∧
    HeapOrdered c w heap.numValues ∧ content w heap.numValues = vs

theorem BinaryHeapHolds.new (c : Comparator α) :
    BinaryHeapHolds c (binaryHeapNew : BinaryHeap α) 0 where
  alloced := List.length_replicate.symm
  size := ⟨0, rfl⟩
  count := rfl
  cells := by
    rintro ⟨a⟩
    exact ⟨fun _ => a, ⟨Nat.zero_le _, fun _ hi => absurd hi (Nat.not_lt_zero _)⟩,
      fun _ _ hi => absurd hi (Nat.not_lt_zero _), rfl⟩

section Calls

variable {c : Comparator α} {heap : BinaryHeap α} {vs : Multiset α}

theorem BinaryHeapHolds.room (h : BinaryHeapHolds c heap vs) :
    heap.numValues ≤ heap.values.length := by
  rcases Nat.eq_zero_or_pos heap.numValues with h0 | hpos
  · omega
  · rw [h.count] at hpos
    obtain ⟨a, -⟩ := Multiset.card_pos_iff_exists_mem.mp hpos
    obtain ⟨w, hw, -⟩ := h.cells ⟨a⟩
    exact hw.room

/-- There is room for another value, or the array was full and stays as it is. -/
theorem binaryHeapReserve_spec (h : BinaryHeapHolds c heap vs) (hcard : vs.card < 2 ^ 30)
    (reallocOk : Bool) :
    (binaryHeapReserve heap reallocOk = some none ∧ reallocOk = false ∧
        ∃ k, vs.card = 16 * 2 ^ k) ∨
      ∃ heap', binaryHeapReserve heap reallocOk = some (some heap') ∧
        heap'.numValues < heap'.values.length ∧ BinaryHeapHolds c heap' vs := by
  have hroom := h.room
  obtain ⟨k, hk⟩ := h.size
  rw [binaryHeapReserve]
  split
  · next hfull =>
    have heq : heap.numValues = heap.allocedSize := Nat.le_antisymm (h.alloced ▸ hroom) hfull
    have hint : heap.allocedSize * 2 < 2 ^ 31 := by
      rw [← heq, h.count]
      omega
    simp only [if_pos hint]
    cases reallocOk with
    | false => exact .inl ⟨rfl, rfl, k, by rw [← h.count, heq, hk]⟩
    | true =>
      have hpos : 0 < heap.allocedSize := by
        rw [hk]
        have := Nat.two_pow_pos k
        omega
      have hlen : (heap.values ++ List.replicate (heap.allocedSize * 2 - heap.values.length)
          none).length = heap.allocedSize * 2 := by
        rw [List.length_append, List.length_replicate, ← h.alloced]
        omega
      refine .inr ⟨_, rfl, ?_, hlen.symm, ⟨k + 1, ?_⟩, h.count, fun hne => ?_⟩
      · rw [hlen]
        show heap.numValues < _
        omega
      · show heap.allocedSize * 2 = _
        rw [hk, Nat.pow_succ, Nat.mul_assoc]
      · obtain ⟨w, hw, ho, hc⟩ := h.cells hne
        refine ⟨w, ⟨by rw [hlen]; show heap.numValues ≤ _; omega, fun i hi hne => ?_⟩, ho, hc⟩
        rw [List.getElem?_append_left (Nat.lt_of_lt_of_le hi hroom)]
        exact hw.cell i hi hne
  · next hroom' => exact .inr ⟨heap, rfl, by rw [← h.alloced]; omega, h⟩

theorem binaryHeapInsert_spec (h : BinaryHeapHolds c heap vs) (hcard : vs.card < 2 ^ 30)
    (value : α) (reallocOk : Bool) :
    ∃ result heap' vs', binaryHeapInsert c.compare heap value reallocOk = some (result, heap') ∧
      BinaryHeapMeaning c vs (.insert value reallocOk) (.inserted result) vs' ∧
      BinaryHeapHolds c heap' vs' := by
  rcases binaryHeapReserve_spec h hcard reallocOk with
    ⟨heq, rfl, k, hk⟩ | ⟨heap', heq, hlt, h'⟩
  · refine ⟨false, heap, vs, ?_, .insertFails hk, h⟩
    rw [binaryHeapInsert, heq]
    rfl
  · obtain ⟨w, hw, ho, hc⟩ := h'.cells ⟨value⟩
    -- the tree with the value at its end
    have hsame : ∀ i < heap'.numValues,
        Function.update w heap'.numValues value i = w i := fun i hi =>
      Function.update_of_ne (Nat.ne_of_lt hi) _ _
    have hagrees : Agrees heap'.values (Function.update w heap'.numValues value)
        (heap'.numValues + 1) heap'.numValues := by
      refine ⟨hlt, fun i hi hne => ?_⟩
      rw [hsame i (by omega)]
      exact hw.cell i (by omega) hne
    have hup : UpTo c (Function.update w heap'.numValues value) (heap'.numValues + 1)
        heap'.numValues := by
      refine ⟨fun i hpos hi hne => ?_, fun _ i hpos hi hp => ?_⟩
      · have hp := parent_lt hpos
        rw [hsame i (by omega), hsame (parent i) (by omega)]
        exact ho i hpos (by omega)
      · have hlt' := parent_lt hpos
        omega
    obtain ⟨values', heq', w', hw', ho', hc', hlen'⟩ :=
      percolateUp_spec hagrees hup (Nat.lt_succ_self _)
    have hcontent : content w' (heap'.numValues + 1) = value ::ₘ vs := by
      rw [hc', content_succ, Function.update_self, content_congr hsame, hc]
    rw [Function.update_self] at heq'
    refine ⟨true, ⟨values', heap'.numValues + 1, heap'.allocedSize⟩, value ::ₘ vs, ?_, .insert,
      h'.alloced.trans hlen'.symm, h'.size, ?_, fun _ => ⟨w', hw', ho', hcontent⟩⟩
    · simp only [binaryHeapInsert, heq, heq', Option.bind_eq_bind, Option.bind_some]
    · rw [Multiset.card_cons, ← h'.count]

theorem binaryHeapPop_spec (h : BinaryHeapHolds c heap vs) (hcard : vs.card < 2 ^ 30) :
    ∃ value heap' vs', binaryHeapPop c.compare heap = some (value, heap') ∧
      BinaryHeapMeaning c vs .pop (.popped value) vs' ∧ BinaryHeapHolds c heap' vs' := by
  rw [binaryHeapPop]
  split
  · next h0 =>
    rw [h.count, Multiset.card_eq_zero] at h0
    subst h0
    exact ⟨none, heap, 0, rfl, .popEmpty, h⟩
  · next hne =>
    obtain ⟨n, hn⟩ := Nat.exists_eq_succ_of_ne_zero hne
    have hpos : 0 < vs.card := by
      rw [← h.count, hn]
      exact Nat.succ_pos n
    obtain ⟨a, -⟩ := Multiset.card_pos_iff_exists_mem.mp hpos
    obtain ⟨w, hw, ho, hc⟩ := h.cells ⟨a⟩
    have hcount := h.count
    rw [hn] at hw ho hc hcount
    -- the first value to the end, the last one to the front
    have hfirst : readCell heap.values 0 = some (w 0) := hw.read (Nat.succ_pos n) (by omega)
    have hlast : readCell heap.values n = some (exchange w 0 n 0) := by
      rw [exchange_left]
      exact hw.read (Nat.lt_succ_self n) (by omega)
    have hsame : ∀ i, 0 < i → i < n → exchange w 0 n i = w i := fun i hi hin =>
      exchange_of_ne (Nat.ne_of_gt hi) (Nat.ne_of_lt hin)
    have hagrees : Agrees heap.values (exchange w 0 n) n 0 := by
      refine ⟨by have := hw.room; omega, fun i hi hi0 => ?_⟩
      rw [hsame i (Nat.pos_of_ne_zero hi0) hi]
      exact hw.cell i (by omega) (by omega)
    have hdown : DownFrom c (exchange w 0 n) n 0 := by
      refine ⟨fun i hi hin hp => ?_, fun h => absurd h (Nat.lt_irrefl 0)⟩
      have hlt := parent_lt hi
      rw [hsame i hi hin, hsame (parent i) (Nat.pos_of_ne_zero hp) (by omega)]
      exact ho i hi (by omega)
    have hvs : vs = w 0 ::ₘ content (exchange w 0 n) n := by
      rw [← hc, ← content_exchange (Nat.succ_pos n) (Nat.lt_succ_self n), content_succ,
        exchange_right]
    have hrounds : n < 0 + (n + 1) + 1 ∧ 0 < n + 1 := by omega
    obtain ⟨values', heq, w', hw', ho', hc', hlen'⟩ := percolateDown_spec hagrees hdown
      (Nat.lt_of_lt_of_le (Nat.succ_pos n) hw.room) (by omega) (.inr rfl) hrounds
    have hleast : ∀ x ∈ content (exchange w 0 n) n, c.Le (w 0) x := by
      intro x hx
      have hmem : x ∈ content w (n + 1) := by
        rw [hc, hvs]
        exact Multiset.mem_cons_of_mem hx
      obtain ⟨i, hi, rfl⟩ := mem_content.mp hmem
      exact ho.least hi
    refine ⟨some (w 0), ⟨values', n, heap.allocedSize⟩, content (exchange w 0 n) n, ?_, ?_, ?_⟩
    · simp only [hn, Nat.succ_eq_add_one, Nat.add_sub_cancel, hfirst, hlast, heq,
        Option.bind_eq_bind, Option.bind_some]
    · rw [hvs]
      exact .pop hleast
    · exact ⟨h.alloced.trans hlen'.symm, h.size, card_content.symm, fun _ => ⟨w', hw', ho', hc'⟩⟩

theorem binaryHeapCall_spec {heapType : BinaryHeapType} {c : Comparator α}
    (hneg : heapType = .max → c.Negatable) (heap : BinaryHeap α) (vs : Multiset α)
    (call : BinaryHeapCall α) (h : BinaryHeapHolds (heapType.order c) heap vs)
    (hcard : vs.card < 2 ^ 30) :
    ∃ r heap' vs', binaryHeapCall heapType c.compare heap call = some (r, heap') ∧
      BinaryHeapMeaning (heapType.order c) vs call r vs' ∧
      BinaryHeapHolds (heapType.order c) heap' vs' := by
  cases call with
  | insert value reallocOk =>
    obtain ⟨result, heap', vs', heq, hm, h'⟩ := binaryHeapInsert_spec h hcard value reallocOk
    refine ⟨_, heap', vs', ?_, hm, h'⟩
    rw [binaryHeapCall, binaryHeapCmp_eq hneg, heq]
    rfl
  | pop =>
    obtain ⟨value, heap', vs', heq, hm, h'⟩ := binaryHeapPop_spec h hcard
    refine ⟨_, heap', vs', ?_, hm, h'⟩
    rw [binaryHeapCall, binaryHeapCmp_eq hneg, heq]
    rfl
  | numEntries =>
    refine ⟨_, heap, vs, rfl, ?_, h⟩
    rw [binaryHeapNumEntries, h.count]
    exact .numEntries

end Calls

theorem BinaryHeapMeaning.card_le {c : Comparator α} {vs vs' : Multiset α}
    {call : BinaryHeapCall α} {r : BinaryHeapAnswer α} (h : BinaryHeapMeaning c vs call r vs') :
    vs'.card ≤ vs.card + 1 := by
  cases h with
  | pop => rw [Multiset.card_cons]; omega
  | insert => rw [Multiset.card_cons]
  | insertFails | popEmpty | numEntries => exact Nat.le_succ _

/-- Whatever calls are made, at most as many as there can be values, and whichever allocations
fail, nothing is read or written outside the array or before it was written, no `int`
overflows, and every value that is taken comes before all that are left. A maximum heap negates
what the comparison returns, so there this must not be the least `int`. -/
theorem binaryHeap_answers_allowed (heapType : BinaryHeapType) (c : Comparator α)
    (hneg : heapType = .max → c.Negatable) (calls : List (BinaryHeapCall α))
    (hlen : calls.length ≤ 2 ^ 30) :
    ∃ rs heap vs, answers (binaryHeapCall heapType c.compare) binaryHeapNew calls =
        some (rs, heap) ∧
      Allows (BinaryHeapMeaning (heapType.order c)) 0 calls rs vs ∧
      BinaryHeapHolds (heapType.order c) heap vs :=
  exists_answers_within (binaryHeapCall_spec hneg) (fun _ _ _ _ h => h.card_le)
    (.new _) calls (by rw [Multiset.card_zero]; omega)

theorem binaryHeap_answers_allowed_max :
    ∃ rs heap vs, answers (binaryHeapCall .max Comparator.ints.compare) binaryHeapNew
        [.insert 3 true, .insert 5 true, .insert 4 true, .insert 5 false, .pop, .pop] =
          some (rs, heap) ∧
      Allows (BinaryHeapMeaning (BinaryHeapType.max.order Comparator.ints)) 0
        [.insert 3 true, .insert 5 true, .insert 4 true, .insert 5 false, .pop, .pop] rs vs ∧
      BinaryHeapHolds (BinaryHeapType.max.order Comparator.ints) heap vs :=
  binaryHeap_answers_allowed .max Comparator.ints (fun _ => Comparator.negatable_ints) _ (by simp)

end BaseCode.Comm
