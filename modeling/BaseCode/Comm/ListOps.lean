import BaseCode.Foundation.Ledger
import BaseCode.Foundation.Machines
import BaseCode.Comm.ListSort

/-!
# Runs of the linked list

The rest of `src/comm/list.c` on entries in an arena, and whole runs of its interface. A list
stands for the sequence of its values. Every entry allocated is in the list, freed once, or was
unlinked by `list_remove_entry`, which in this repository leaves the entry to nobody. The
functions that count entries in an `int` fault where it overflows.
-/

namespace BaseCode.Comm
open Foundation

variable {α : Type}

/-- The new entry, or `none` for `NULL`, and the list. -/
def listPrepend (l : ListHeap α) (data : α) (mallocOk : Bool) :
    Option (Option Nat × ListHeap α) :=
  if mallocOk then do
    let newentry := l.entries.next
    let A ← setNextPrev (l.entries.alloc ⟨data, none, none⟩) l.list (some newentry)
    some (some newentry, ⟨A.set newentry ⟨data, none, l.list⟩, some newentry⟩)
  else some (none, l)

/-- The loop of `list_free`. -/
def freeEntries : Nat → Arena (ListEntry α) → Option Nat → Option (Arena (ListEntry α))
  | _, A, none => some A
  | 0, _, some _ => none
  | fuel + 1, A, some entry => do
    let e ← A.cells entry
    freeEntries fuel (A.free entry) e.next

/-- `list_free`, after which the caller's pointer is `NULL`. -/
def listFree (l : ListHeap α) : Option (ListHeap α) := do
  let A ← freeEntries l.entries.next l.entries l.list
  some ⟨A, none⟩

/-- The loop of `list_nth_entry`. -/
def nthEntry (A : Arena (ListEntry α)) : Nat → Option Nat → Option (Option Nat)
  | 0, entry => some entry
  | _ + 1, none => some none
  | n + 1, some entry => do
    let e ← A.cells entry
    nthEntry A n e.next

def listNthEntry (l : ListHeap α) (n : Int) : Option (Option Nat) :=
  if n < 0 then some none else nthEntry l.entries n.toNat l.list

/-- `none` inside for `LIST_NULL`. -/
def listNthData (l : ListHeap α) (n : Int) : Option (Option α) := do
  match ← listNthEntry l n with
  | none => some none
  | some entry =>
    let e ← l.entries.cells entry
    some (some e.data)

/-- The loop of `list_length`. -/
def countEntries (A : Arena (ListEntry α)) : Nat → Option Nat → Int → Option Int
  | _, none, length => some length
  | 0, some _, _ => none
  | fuel + 1, some entry, length => do
    let length ← countUp length
    let e ← A.cells entry
    countEntries A fuel e.next length

def listLength (l : ListHeap α) : Option Int := countEntries l.entries l.entries.next l.list 0

/-- The loop of `list_to_array`, for the number of turns that is left. -/
def copyEntries (A : Arena (ListEntry α)) : Nat → Option Nat → Option (List α)
  | 0, _ => some []
  | _ + 1, none => none
  | n + 1, some rover => do
    let e ← A.cells rover
    let rest ← copyEntries A n e.next
    some (e.data :: rest)

/-- The array, or `none` inside for `NULL`. -/
def listToArray (l : ListHeap α) (mallocOk : Bool) : Option (Option (List α)) := do
  let listlen ← listLength l
  if mallocOk then do
    let array ← copyEntries l.entries listlen.toNat l.list
    some (some array)
  else some none

/-- `list_remove_data` takes an entry out of the list. -/
def listUnlink (l : ListHeap α) (rover : Nat) : Option (ListHeap α) := do
  let e ← l.entries.cells rover
  match e.prev with
  | none =>
    let A ← setNextPrev l.entries e.next none
    some ⟨A, e.next⟩
  | some p =>
    let pe ← l.entries.cells p
    let A := l.entries.set p { pe with next := e.next }
    let e ← A.cells rover
    let A ← setNextPrev A e.next e.prev
    some ⟨A, l.list⟩

/-- The loop of `list_remove_data`. -/
def removeLoop (callback : α → Bool) : Nat → ListHeap α → Option Nat → Int →
    Option (Int × ListHeap α)
  | _, l, none, entriesRemoved => some (entriesRemoved, l)
  | 0, _, some _, _ => none
  | fuel + 1, l, some rover, entriesRemoved => do
    let e ← l.entries.cells rover
    if callback e.data then
      let l ← listUnlink l rover
      let entriesRemoved ← countUp entriesRemoved
      removeLoop callback fuel ⟨l.entries.free rover, l.list⟩ e.next entriesRemoved
    else removeLoop callback fuel l e.next entriesRemoved

def listRemoveData (l : ListHeap α) (callback : α → Bool) : Option (Int × ListHeap α) :=
  removeLoop callback l.entries.next l l.list 0

section Specs

variable {A : Arena (ListEntry α)} {l : ListHeap α} {front first : Option Nat}
  {items as bs : List (Nat × α)} {lost : List Nat}

/-- The entries at these addresses, with these values, are the list; the other live entries are
lost. -/
structure ListHeap.Has (l : ListHeap α) (items : List (Nat × α)) (lost : List Nat) : Prop where
  chain : Chain l.entries.cells l.list (items.map Prod.fst)
  data : ∀ i ∈ items, dataAt l.entries i.1 = some i.2
  held : Holds l.entries (items.map Prod.fst ++ lost)

theorem has_empty : (ListHeap.empty : ListHeap α).Has [] [] :=
  ⟨⟨rfl, List.nodup_nil⟩, by simp, .empty⟩

theorem ListHeap.Has.lt (h : l.Has items lost) : ∀ a ∈ items.map Prod.fst, a < l.entries.next :=
  fun _ ha => h.held.lt_next (List.mem_append_left _ ha)

theorem ListHeap.Has.length_le (h : l.Has items lost) : items.length ≤ l.entries.next := by
  simpa using length_le_next h.chain.nodup h.lt

/-- The data at the entries of a segment, as the loops read them. -/
def Reads (A : Arena (ListEntry α)) (front first : Option Nat) (items : List (Nat × α)) : Prop :=
  Segment A.cells front first (items.map Prod.fst) none ∧
    ∀ i ∈ items, dataAt A i.1 = some i.2

theorem reads_nil : Reads A front first ([] : List (Nat × α)) ↔ first = none := by
  simp [Reads, Segment]

theorem reads_cons {i : Nat × α} (h : Reads A front first (i :: items)) :
    first = some i.1 ∧ ∃ prev next, A.cells i.1 = some ⟨i.2, prev, next⟩ ∧
      Reads A (some i.1) next items := by
  obtain ⟨⟨rfl, c, hc, -, hrest⟩, hdata⟩ := h
  have hd : c.data = i.2 := by simpa [dataAt, hc] using hdata i List.mem_cons_self
  exact ⟨rfl, c.prev, c.next, by rw [hc, ← hd], hrest,
    fun j hj => hdata j (List.mem_cons_of_mem _ hj)⟩

theorem ListHeap.Has.reads (h : l.Has items lost) : Reads l.entries none l.list items :=
  ⟨h.chain.segment, h.data⟩

theorem nthEntry_eq (h : Reads A front first items) (n : Nat) :
    nthEntry A n first = some (items[n]?.map Prod.fst) := by
  induction items generalizing front first n with
  | nil =>
    obtain rfl := reads_nil.mp h
    cases n <;> rfl
  | cons i items ih =>
    obtain ⟨rfl, prev, next, hc, hrest⟩ := reads_cons h
    cases n with
    | zero => rfl
    | succ n =>
      simp only [nthEntry, hc, Option.bind_eq_bind, Option.bind_some, List.getElem?_cons_succ]
      exact ih hrest n

theorem countEntries_eq (h : Reads A front first items) {fuel : Nat}
    (hfuel : items.length ≤ fuel) {n : Int} (hn : n + items.length < 2 ^ 31) :
    countEntries A fuel first n = some (n + items.length) := by
  induction items generalizing front first fuel n with
  | nil =>
    obtain rfl := reads_nil.mp h
    cases fuel <;> simp [countEntries]
  | cons i items ih =>
    obtain ⟨rfl, prev, next, hc, hrest⟩ := reads_cons h
    obtain ⟨fuel, rfl⟩ := Nat.exists_eq_succ_of_ne_zero (Nat.ne_of_gt (Nat.zero_lt_of_lt hfuel))
    rw [List.length_cons] at hn
    have hup : countUp n = some (n + 1) := countUp_eq (by omega)
    simp only [countEntries, hup, hc, Option.bind_eq_bind, Option.bind_some]
    rw [ih hrest (Nat.le_of_succ_le_succ hfuel) (by omega), List.length_cons]
    congr 1
    omega

/-- A count that comes to its end is the length. -/
theorem eq_of_countEntries (h : Reads A front first items) {fuel : Nat} {n m : Int}
    (hm : countEntries A fuel first n = some m) : m = n + items.length := by
  induction items generalizing front first fuel n with
  | nil =>
    obtain rfl := reads_nil.mp h
    cases fuel <;> simpa [countEntries] using hm.symm
  | cons i items ih =>
    obtain ⟨rfl, prev, next, hc, hrest⟩ := reads_cons h
    cases fuel with
    | zero => cases hm
    | succ fuel =>
      simp only [countEntries, hc, Option.bind_eq_bind, Option.bind_eq_some_iff] at hm
      obtain ⟨k, hk, e, he, hm⟩ := hm
      cases he
      rw [ih hrest hm, eq_of_countUp hk, List.length_cons]
      omega

theorem copyEntries_eq (h : Reads A front first items) :
    copyEntries A items.length first = some (items.map Prod.snd) := by
  induction items generalizing front first with
  | nil => rfl
  | cons i items ih =>
    obtain ⟨rfl, prev, next, hc, hrest⟩ := reads_cons h
    simp only [List.length_cons, copyEntries, hc, ih hrest, Option.bind_eq_bind, Option.bind_some,
      List.map_cons]

theorem listLength_eq (h : l.Has items lost) (hlen : items.length < 2 ^ 31) :
    listLength l = some (items.length : Int) := by
  rw [listLength, countEntries_eq h.reads h.length_le (by omega), Int.zero_add]

theorem eq_of_listLength (h : l.Has items lost) {n : Int} (hn : listLength l = some n) :
    n = items.length := by
  rw [eq_of_countEntries h.reads hn, Int.zero_add]

/-- An array of all values, or a failed allocation, where the length is counted to its end. -/
theorem listToArray_eq (h : l.Has items lost) {n : Int} (hn : listLength l = some n)
    (mallocOk : Bool) :
    listToArray l mallocOk = some (if mallocOk then some (items.map Prod.snd) else none) := by
  obtain rfl := eq_of_listLength h hn
  cases mallocOk with
  | false => simp [listToArray, hn]
  | true =>
    simp only [listToArray, hn, Int.toNat_natCast, copyEntries_eq h.reads, Option.bind_eq_bind,
      Option.bind_some, if_true]

theorem listNthEntry_eq (h : l.Has items lost) (n : Int) :
    listNthEntry l n =
      some (if n < 0 then none else items[n.toNat]?.map Prod.fst) := by
  simp only [listNthEntry]
  split
  · rfl
  · exact nthEntry_eq h.reads _

theorem listNthData_eq (h : l.Has items lost) (n : Int) :
    listNthData l n = some (if n < 0 then none else items[n.toNat]?.map Prod.snd) := by
  simp only [listNthData, listNthEntry_eq h, Option.bind_eq_bind, Option.bind_some]
  by_cases hn : n < 0
  · simp only [if_pos hn]
  simp only [if_neg hn]
  cases hi : items[n.toNat]? with
  | none => rfl
  | some i =>
    obtain ⟨c, hc, hcd⟩ := Option.map_eq_some_iff.mp (h.data i (List.mem_of_getElem? hi))
    simp only [Option.map_some, hc, hcd, Option.bind_some]

theorem live_iff_dataAt {a : Nat} : A.Live a ↔ (dataAt A a).isSome = true := by
  simp [Arena.Live, dataAt]

/-- The ledger does not see links. -/
theorem holds_of_dataAt {A' : Arena (ListEntry α)} {L : List Nat} (h : Holds A L)
    (hnext : A'.next = A.next) (hfrees : A'.frees = A.frees) (hdata : dataAt A' = dataAt A) :
    Holds A' L :=
  h.of_live hnext hfrees fun a => by rw [live_iff_dataAt, live_iff_dataAt, hdata]

theorem dataAt_alloc (A : Arena (ListEntry α)) (e : ListEntry α) :
    dataAt (A.alloc e) = Function.update (dataAt A) A.next (some e.data) := by
  funext b
  by_cases hb : b = A.next
  · simp [dataAt, Arena.alloc, hb]
  · simp [dataAt, Arena.alloc, Function.update_of_ne hb]

/-- A list with one more entry, whose address is new. -/
theorem has_of_alloc {l' : ListHeap α} {d : α} (h : l.Has (as ++ bs) lost)
    (hchain : Chain l'.entries.cells l'.list (as.map Prod.fst ++ l.entries.next :: bs.map Prod.fst))
    (hnext : l'.entries.next = l.entries.next + 1) (hfrees : l'.entries.frees = l.entries.frees)
    (hdata : dataAt l'.entries = Function.update (dataAt l.entries) l.entries.next (some d)) :
    l'.Has (as ++ (l.entries.next, d) :: bs) lost := by
  refine ⟨by simpa using hchain, fun i hi => ?_, ?_⟩
  · rw [hdata]
    have hmem : i = (l.entries.next, d) ∨ i ∈ as ++ bs := by
      simp only [List.mem_append, List.mem_cons] at hi ⊢
      tauto
    rcases hmem with rfl | hmem
    · exact Function.update_self ..
    · rw [Function.update_of_ne (Nat.ne_of_lt (h.lt _ (List.mem_map_of_mem hmem)))]
      exact h.data i hmem
  · refine (holds_of_dataAt (h.held.alloc ⟨d, none, none⟩) hnext hfrees
      (hdata.trans (dataAt_alloc l.entries ⟨d, none, none⟩).symm)).perm ?_
    simp only [List.map_append, List.map_cons, List.append_assoc, List.cons_append]
    exact List.perm_middle.symm

theorem listAppend_frees {d : α} {r : Option Nat} {l' : ListHeap α}
    (h : listAppend l d true = some (r, l')) : l'.entries.frees = l.entries.frees := by
  simp only [listAppend, if_true] at h
  split at h
  · cases h
    rfl
  · simp only [Option.bind_eq_bind, Option.bind_eq_some_iff] at h
    obtain ⟨rover, -, e, -, heq⟩ := h
    cases heq
    rfl

theorem listAppend_has (h : l.Has items lost) (d : α) :
    ∃ l', listAppend l d true = some (some l.entries.next, l') ∧
      l'.Has (items ++ [(l.entries.next, d)]) lost := by
  obtain ⟨l', heq, hchain, hnext, hdata⟩ := listAppend_spec h.chain h.lt d
  refine ⟨l', heq, ?_⟩
  rw [← List.append_nil items] at h
  exact has_of_alloc h hchain hnext (listAppend_frees heq) hdata

theorem listPrepend_has (h : l.Has items lost) (d : α) :
    ∃ l', listPrepend l d true = some (some l.entries.next, l') ∧
      l'.Has ((l.entries.next, d) :: items) lost := by
  have hnew : l.entries.next ∉ items.map Prod.fst := fun hmem => Nat.lt_irrefl _ (h.lt _ hmem)
  have hne : l.list ≠ some l.entries.next := fun heq => hnew (h.chain.mem_of_head heq)
  have hlive : ∀ n, l.list = some n → (l.entries.alloc ⟨d, none, none⟩).Live n := fun n hn =>
    Arena.live_alloc.mpr (.inr (live_head h.chain n hn))
  obtain ⟨A, hA, hcells, hrel⟩ := setNextPrev_relinked hlive (items.map Prod.fst)
    (some l.entries.next) fun n hn => h.chain.mem_of_head hn
  have hcell : A.cells l.entries.next = some ⟨d, none, none⟩ := by
    rw [hrel.frame _ hnew]
    exact Function.update_self ..
  have hset := Relinked.set hcell none l.list
  refine ⟨⟨A.set l.entries.next ⟨d, none, l.list⟩, some l.entries.next⟩, ?_, ?_⟩
  · simp only [listPrepend, if_true, hA, Option.bind_eq_bind, Option.bind_some]
  · refine has_of_alloc (show l.Has ([] ++ items) lost from h) ?_ hrel.next_eq hrel.frees_eq ?_
    · have hheap : (A.set l.entries.next ⟨d, none, l.list⟩).cells =
          setPrev (Function.update l.entries.cells l.entries.next (some ⟨d, none, l.list⟩)) l.list
            (some l.entries.next) := by
        funext b
        by_cases hb : b = l.entries.next
        · subst hb
          rw [setPrev_of_ne hne, Function.update_self]
          exact Function.update_self ..
        · simp only [Arena.set, Function.update_of_ne hb, hcells, setPrev, Arena.alloc]
      rw [hheap]
      exact h.chain.prepend hnew
    · exact (hset.data_eq.trans hrel.data_eq).trans (dataAt_alloc _ _)

theorem listRemoveEntry_frees {entry : Option Nat} {r : Int} {l' : ListHeap α}
    (h : listRemoveEntry l entry = some (r, l')) : l'.entries.frees = l.entries.frees := by
  have hset : ∀ (A A' : Arena (ListEntry α)) next prev, setNextPrev A next prev = some A' →
      A'.frees = A.frees := by
    intro A A' next prev hA
    cases next with
    | none =>
      cases hA
      rfl
    | some n =>
      simp only [setNextPrev, Option.bind_eq_bind, Option.bind_eq_some_iff] at hA
      obtain ⟨e, -, heq⟩ := hA
      cases heq
      rfl
  simp only [listRemoveEntry] at h
  split at h
  · simp only [Option.bind_eq_bind, Option.bind_eq_some_iff] at h
    obtain ⟨e, -, h⟩ := h
    split at h
    · simp only [Option.bind_eq_some_iff] at h
      obtain ⟨A, hA, heq⟩ := h
      cases heq
      exact hset _ _ _ _ hA
    · simp only [Option.bind_eq_some_iff] at h
      obtain ⟨pe, -, e', -, A, hA, heq⟩ := h
      cases heq
      exact (hset _ _ _ _ hA : A.frees = _)
  · cases h
    rfl

/-- The entry is out of the list and still allocated. -/
theorem listRemoveEntry_has {i : Nat × α} (h : l.Has (as ++ i :: bs) lost) :
    ∃ l', listRemoveEntry l (some i.1) = some (1, l') ∧ l'.Has (as ++ bs) (i.1 :: lost) := by
  have hchain := h.chain
  rw [List.map_append, List.map_cons] at hchain
  obtain ⟨l', heq, hchain', hnext, hdata⟩ := listRemoveEntry_spec hchain
  refine ⟨l', heq, by rwa [List.map_append], fun j hj => ?_, ?_⟩
  · rw [hdata]
    refine h.data j ?_
    simp only [List.mem_append, List.mem_cons] at hj ⊢
    tauto
  · refine (holds_of_dataAt h.held hnext (listRemoveEntry_frees heq) hdata).perm ?_
    simp only [List.map_append, List.map_cons, List.append_assoc, List.cons_append]
    refine List.perm_middle.trans ?_
    rw [← List.append_assoc, ← List.append_assoc]
    exact List.perm_middle.symm

/-- An entry that is out of the list is freed. -/
theorem ListHeap.Has.free {a : Nat} (h : l.Has items (a :: lost)) :
    (⟨l.entries.free a, l.list⟩ : ListHeap α).Has items lost := by
  have hne : ∀ i ∈ items, i.1 ≠ a := fun i hi heq =>
    (List.nodup_append.mp h.held.nodup).2.2 i.1 (List.mem_map_of_mem hi) a List.mem_cons_self heq
  refine ⟨⟨h.chain.segment.congr fun b hb => ?_, h.chain.nodup⟩, fun i hi => ?_, ?_⟩
  · obtain ⟨i, hi, rfl⟩ := List.mem_map.mp hb
    exact Function.update_of_ne (hne i hi) ..
  · rw [← h.data i hi]
    simp only [dataAt, Arena.free, Function.update_of_ne (hne i hi)]
  · exact (h.held.perm List.perm_middle).free

/-- Both functions unlink an entry in the same way. -/
theorem listRemoveEntry_eq_unlink {first : Nat} (h : l.list = some first) (rover : Nat) :
    listRemoveEntry l (some rover) = (listUnlink l rover).map fun l' => (1, l') := by
  simp only [listRemoveEntry, listUnlink, h, Option.bind_eq_bind, Option.map_bind]
  refine congrArg _ (funext fun e => ?_)
  cases hp : e.prev with
  | none => simp only [Function.comp_def, hp, Option.map_bind, Option.map_some]
  | some p => simp only [Function.comp_def, hp, Option.map_bind, Option.map_some]

theorem listUnlink_has {i : Nat × α} (h : l.Has (as ++ i :: bs) lost) :
    ∃ l', listUnlink l i.1 = some l' ∧ l'.Has (as ++ bs) (i.1 :: lost) := by
  obtain ⟨first, hfirst⟩ : ∃ first, l.list = some first := by
    rw [← Option.ne_none_iff_exists']
    intro hnone
    have hnil := h.chain
    rw [hnone] at hnil
    exact absurd hnil.eq_nil (by simp)
  obtain ⟨l', heq, h'⟩ := listRemoveEntry_has h
  rw [listRemoveEntry_eq_unlink hfirst, Option.map_eq_some_iff] at heq
  obtain ⟨l'', heq, hl⟩ := heq
  cases hl
  exact ⟨l', heq, h'⟩

/-- An entry in the list, and where its `next` leads. -/
theorem ListHeap.Has.cell {i : Nat × α} (h : l.Has (as ++ i :: bs) lost) :
    ∃ prev, l.entries.cells i.1 = some ⟨i.2, prev, bs.head?.map Prod.fst⟩ := by
  have hseg := h.chain.segment
  rw [List.map_append, List.map_cons] at hseg
  obtain ⟨c, hc, -, -, hrest⟩ := hseg.split
  have hd : c.data = i.2 := by
    simpa [dataAt, hc] using h.data i (List.mem_append_right _ List.mem_cons_self)
  have hn : c.next = bs.head?.map Prod.fst := by
    cases bs with
    | nil => exact hrest
    | cons j bs => exact hrest.1
  exact ⟨c.prev, by rw [hc, ← hd, ← hn]⟩

/-- The loop keeps the entries that the callback refuses, or the count of the others overflows. -/
theorem removeLoop_spec (callback : α → Bool) (h : l.Has (as ++ bs) lost) {fuel : Nat}
    (hfuel : bs.length ≤ fuel) (n : Int) :
    (removeLoop callback fuel l (bs.head?.map Prod.fst) n = none ∧
      2 ^ 31 ≤ n + (bs.filter fun i => callback i.2).length) ∨
    ∃ l', removeLoop callback fuel l (bs.head?.map Prod.fst) n =
        some (n + (bs.filter fun i => callback i.2).length, l') ∧
      l'.Has (as ++ bs.filter fun i => !callback i.2) lost := by
  induction bs generalizing l as fuel n with
  | nil =>
    refine .inr ⟨l, ?_, h⟩
    cases fuel <;> simp [removeLoop]
  | cons i bs ih =>
    obtain ⟨fuel, rfl⟩ := Nat.exists_eq_succ_of_ne_zero (Nat.ne_of_gt (Nat.zero_lt_of_lt hfuel))
    have hfuel' : bs.length ≤ fuel := Nat.le_of_succ_le_succ hfuel
    obtain ⟨prev, hcell⟩ := h.cell
    simp only [List.head?_cons, Option.map_some, removeLoop, hcell, Option.bind_eq_bind,
      Option.bind_some]
    cases hq : callback i.2 with
    | true =>
      obtain ⟨l₁, hl₁, h₁⟩ := listUnlink_has h
      have hfilter : (((i :: bs).filter fun i => callback i.2).length : Int) =
          (bs.filter fun i => callback i.2).length + 1 := by
        simp [hq]
      rw [hfilter]
      cases hup : countUp n with
      | none =>
        left
        refine ⟨by simp [hl₁], ?_⟩
        by_contra hlt
        rw [countUp_eq (by omega)] at hup
        cases hup
      | some m =>
        obtain rfl := eq_of_countUp hup
        rcases ih h₁.free hfuel' (n + 1) with ⟨hnone, hlt⟩ | ⟨l', heq, h'⟩
        · left
          refine ⟨?_, by omega⟩
          simp only [if_true, hl₁, Option.bind_some, hnone]
        · right
          refine ⟨l', ?_, by simpa [hq] using h'⟩
          simp only [if_true, hl₁, Option.bind_some, heq]
          congr 2
          omega
    | false =>
      rw [← List.singleton_append, ← List.append_assoc] at h
      have hfilter : ((i :: bs).filter fun i => callback i.2) =
          bs.filter fun i => callback i.2 := by
        simp [hq]
      rw [hfilter]
      rcases ih h hfuel' n with ⟨hnone, hlt⟩ | ⟨l', heq, h'⟩
      · exact .inl ⟨by simp only [Bool.false_eq_true, if_false, hnone], hlt⟩
      · right
        refine ⟨l', ?_, by simpa [hq] using h'⟩
        simp only [Bool.false_eq_true, if_false, heq]

theorem listRemoveData_has (h : l.Has items lost) (callback : α → Bool) :
    (listRemoveData l callback = none ∧ 2 ^ 31 ≤ items.length) ∨
    ∃ l', listRemoveData l callback =
        some (((items.filter fun i => callback i.2).length : Int), l') ∧
      l'.Has (items.filter fun i => !callback i.2) lost := by
  have hhead : l.list = items.head?.map Prod.fst := by
    rw [h.chain.head_eq, List.head?_map]
  have h0 : l.Has ([] ++ items) lost := h
  rw [listRemoveData, hhead]
  rcases removeLoop_spec callback h0 h.length_le 0 with ⟨hnone, hlt⟩ | ⟨l', heq, h'⟩
  · have hle := List.length_filter_le (fun i : Nat × α => callback i.2) items
    exact .inl ⟨hnone, by omega⟩
  · exact .inr ⟨l', by rw [heq, Int.zero_add], h'⟩

/-- Each entry is freed once. -/
theorem freeEntries_spec (h : Segment A.cells front first (items.map Prod.fst) none)
    (hheld : Holds A (items.map Prod.fst ++ lost)) {fuel : Nat} (hfuel : items.length ≤ fuel) :
    ∃ A', freeEntries fuel A first = some A' ∧ Holds A' lost := by
  induction items generalizing A front first fuel with
  | nil =>
    obtain rfl : first = none := h
    refine ⟨A, ?_, hheld⟩
    cases fuel <;> rfl
  | cons i items ih =>
    obtain ⟨rfl, c, hc, -, hrest⟩ := h
    obtain ⟨fuel, rfl⟩ := Nat.exists_eq_succ_of_ne_zero (Nat.ne_of_gt (Nat.zero_lt_of_lt hfuel))
    have hi : i.1 ∉ items.map Prod.fst ++ lost := (List.nodup_cons.mp hheld.nodup).1
    have hrest' : Segment (A.free i.1).cells (some i.1) c.next (items.map Prod.fst) none :=
      hrest.congr fun b hb => Function.update_of_ne (by
        rintro rfl
        exact hi (List.mem_append_left _ hb)) ..
    obtain ⟨A', heq, hA'⟩ := ih hrest' hheld.free (Nat.le_of_succ_le_succ hfuel)
    refine ⟨A', ?_, hA'⟩
    simpa only [freeEntries, hc, Option.bind_eq_bind, Option.bind_some] using heq

theorem listFree_has (h : l.Has items lost) :
    ∃ l', listFree l = some l' ∧ l'.Has [] lost := by
  obtain ⟨A', heq, hA'⟩ := freeEntries_spec h.chain.segment h.held h.length_le
  refine ⟨⟨A', none⟩, ?_, ⟨rfl, List.nodup_nil⟩, by simp, hA'⟩
  simp only [listFree, heq, Option.bind_eq_bind, Option.bind_some]

theorem listSort_has (c : Comparator α) (h : l.Has items lost) :
    ∃ l' items', listSort c.compare l = some l' ∧ l'.Has items' lost ∧ items'.Perm items ∧
      (items'.map Prod.snd).Pairwise c.Le := by
  cases items with
  | nil =>
    obtain hnone : l.list = none := h.chain.segment
    refine ⟨l, [], ?_, h, .nil, .nil⟩
    simp only [listSort, hnone, listSortInternal, Option.bind_eq_bind, Option.bind_some]
    rw [← hnone]
  | cons i₀ items =>
    -- the values by address
    obtain ⟨d, hd⟩ : ∃ d : Nat → α, ∀ i ∈ i₀ :: items, dataAt l.entries i.1 = some (d i.1) ∧
        d i.1 = i.2 := by
      refine ⟨fun a => (dataAt l.entries a).getD i₀.2, fun i hi => ?_⟩
      simp only [h.data i hi, Option.getD_some, and_self]
    have hd' : ∀ a ∈ (i₀ :: items).map Prod.fst, dataAt l.entries a = some (d a) := by
      intro a ha
      obtain ⟨i, hi, rfl⟩ := List.mem_map.mp ha
      exact (hd i hi).1
    obtain ⟨l', nodes', heq, hchain, hperm, hsort, hrel⟩ := listSort_spec c hd' h.chain h.lt
    have hitems : (nodes'.map fun a => (a, d a)).Perm (i₀ :: items) := by
      have hmap := hperm.map fun a => (a, d a)
      rw [List.map_map] at hmap
      refine hmap.trans (List.Perm.of_eq ?_)
      rw [List.map_congr_left fun i hi => ?_, List.map_id]
      exact Prod.ext rfl (hd i hi).2
    have hfst : (nodes'.map fun a => (a, d a)).map Prod.fst = nodes' := by
      simp [Function.comp_def]
    have hsnd : (nodes'.map fun a => (a, d a)).map Prod.snd = nodes'.map d := by simp
    refine ⟨l', nodes'.map fun a => (a, d a), heq, ⟨?_, fun i hi => ?_, ?_⟩, hitems, ?_⟩
    · rwa [hfst]
    · rw [hrel.data_eq]
      exact h.data i (hitems.mem_iff.mp hi)
    · rw [hfst]
      exact (holds_of_dataAt h.held hrel.next_eq hrel.frees_eq hrel.data_eq).perm
        (hperm.symm.append_right _)
    · rw [hsnd, List.pairwise_map]
      exact hsort

end Specs

section Runs

/-- The calls of the interface, each with the outcome of its allocation. An entry to be removed
is named by its place in the list or by a search. -/
inductive ListCall (α : Type) where
  | prepend (data : α) (mallocOk : Bool)
  | append (data : α) (mallocOk : Bool)
  | nthData (n : Int)
  | length
  | toArray (mallocOk : Bool)
  | removeNth (n : Int)
  | removeFound (callback : α → Bool)
  | removeData (callback : α → Bool)
  | sort (c : Comparator α)
  | free

inductive ListAnswer (α : Type) where
  | entry (ok : Bool)
  | data (value : Option α)
  | number (n : Int)
  | array (values : Option (List α))
  | void

def listCall (l : ListHeap α) : ListCall α → Option (ListAnswer α × ListHeap α)
  | .prepend data mallocOk => do
    let (entry, l) ← listPrepend l data mallocOk
    some (.entry entry.isSome, l)
  | .append data mallocOk => do
    let (entry, l) ← listAppend l data mallocOk
    some (.entry entry.isSome, l)
  | .nthData n => do
    let value ← listNthData l n
    some (.data value, l)
  | .length => do
    let n ← listLength l
    some (.number n, l)
  | .toArray mallocOk => do
    let values ← listToArray l mallocOk
    some (.array values, l)
  | .removeNth n => do
    let entry ← listNthEntry l n
    let (result, l) ← listRemoveEntry l entry
    some (.number result, l)
  | .removeFound callback => do
    let entry ← listFindData l fun data => some (callback data)
    let (result, l) ← listRemoveEntry l entry
    some (.number result, l)
  | .removeData callback => do
    let (result, l) ← listRemoveData l callback
    some (.number result, l)
  | .sort c => do
    let l ← listSort c.compare l
    some (.void, l)
  | .free => do
    let l ← listFree l
    some (.void, l)

/-- The values in the list, and how many entries `list_remove_entry` has left to nobody. -/
structure ListState (α : Type) where
  values : List α
  lost : Nat

/-- What the calls mean on a sequence. -/
inductive ListMeaning :
    ListState α → ListCall α → ListAnswer α → ListState α → Prop
  | prepend {vs : List α} {n : Nat} {d : α} :
      ListMeaning ⟨vs, n⟩ (.prepend d true) (.entry true) ⟨d :: vs, n⟩
  | prependFails {s : ListState α} {d : α} :
      ListMeaning s (.prepend d false) (.entry false) s
  | append {vs : List α} {n : Nat} {d : α} :
      ListMeaning ⟨vs, n⟩ (.append d true) (.entry true) ⟨vs ++ [d], n⟩
  | appendFails {s : ListState α} {d : α} : ListMeaning s (.append d false) (.entry false) s
  | nthData {s : ListState α} {n : Int} :
      ListMeaning s (.nthData n) (.data (if n < 0 then none else s.values[n.toNat]?)) s
  | length {s : ListState α} : ListMeaning s .length (.number s.values.length) s
  | toArray {s : ListState α} : ListMeaning s (.toArray true) (.array (some s.values)) s
  | toArrayFails {s : ListState α} : ListMeaning s (.toArray false) (.array none) s
  | removeNth {as bs : List α} {n : Nat} {d : α} :
      ListMeaning ⟨as ++ d :: bs, n⟩ (.removeNth as.length) (.number 1) ⟨as ++ bs, n + 1⟩
  | removeNthMisses {s : ListState α} {i : Int} : (i < 0 ∨ s.values.length ≤ i) →
      ListMeaning s (.removeNth i) (.number 0) s
  | removeFound {as bs : List α} {n : Nat} {d : α} {callback : α → Bool} :
      (∀ a ∈ as, callback a = false) → callback d = true →
      ListMeaning ⟨as ++ d :: bs, n⟩ (.removeFound callback) (.number 1) ⟨as ++ bs, n + 1⟩
  | removeFoundMisses {s : ListState α} {callback : α → Bool} :
      (∀ a ∈ s.values, callback a = false) →
      ListMeaning s (.removeFound callback) (.number 0) s
  | removeData {vs : List α} {n : Nat} {callback : α → Bool} :
      ListMeaning ⟨vs, n⟩ (.removeData callback) (.number (vs.filter callback).length)
        ⟨vs.filter fun d => !callback d, n⟩
  | sort {vs vs' : List α} {n : Nat} {c : Comparator α} : vs'.Perm vs → vs'.Pairwise c.Le →
      ListMeaning ⟨vs, n⟩ (.sort c) .void ⟨vs', n⟩
  | free {vs : List α} {n : Nat} : ListMeaning ⟨vs, n⟩ .free .void ⟨[], n⟩

/-- The list holds these values; the live entries are its own and the lost ones, and no entry
was freed twice. -/
def ListHeap.Represents (l : ListHeap α) (s : ListState α) : Prop :=
  ∃ items lost, l.Has items lost ∧ items.map Prod.snd = s.values ∧ lost.length = s.lost

theorem represents_empty : (ListHeap.empty : ListHeap α).Represents ⟨[], 0⟩ :=
  ⟨[], [], has_empty, rfl, rfl⟩

variable {l : ListHeap α} {items : List (Nat × α)} {lost : List Nat}

theorem listRemoveEntry_none : listRemoveEntry l none = some (0, l) := by
  unfold listRemoveEntry
  cases l.list <;> rfl

theorem listFindData_eq (h : l.Has items lost) (callback : α → Bool) :
    listFindData l (fun data => some (callback data)) =
      some ((items.find? fun i => callback i.2).map Prod.fst) := by
  refine findData_eq (q := fun i : Nat × α => callback i.2) h.chain.segment (fun i hi => ?_)
    h.length_le
  rw [h.data i hi]
  rfl

/-- The entry at some place is unlinked and lost. -/
theorem remove_represents {as bs : List (Nat × α)} {i : Nat × α}
    (h : l.Has (as ++ i :: bs) lost) :
    ∃ l', listRemoveEntry l (some i.1) = some (1, l') ∧
      l'.Represents ⟨as.map Prod.snd ++ bs.map Prod.snd, lost.length + 1⟩ := by
  obtain ⟨l', heq, h'⟩ := listRemoveEntry_has h
  exact ⟨l', heq, as ++ bs, i.1 :: lost, h', by simp, rfl⟩

theorem removeNth_spec (h : l.Has items lost) (n : Int) :
    ∃ r l' s', listCall l (.removeNth n) = some (r, l') ∧
      ListMeaning ⟨items.map Prod.snd, lost.length⟩ (.removeNth n) r s' ∧ l'.Represents s' := by
  by_cases hn : n < 0
  · refine ⟨.number 0, l, _, ?_, .removeNthMisses (.inl hn), items, lost, h, rfl, rfl⟩
    simp only [listCall, listNthEntry_eq h, if_pos hn, listRemoveEntry_none, Option.bind_eq_bind,
      Option.bind_some]
  obtain ⟨k, rfl⟩ := Int.eq_ofNat_of_zero_le (Int.not_lt.mp hn)
  by_cases hk : k < items.length
  · have hsplit : items = items.take k ++ items[k] :: items.drop (k + 1) := by
      rw [← List.drop_eq_getElem_cons hk, List.take_append_drop]
    have hlen : ((items.take k).map Prod.snd).length = k := by
      rw [List.length_map, List.length_take, Nat.min_eq_left (Nat.le_of_lt hk)]
    have hentry : listNthEntry l k = some (some items[k].1) := by
      rw [listNthEntry_eq h, if_neg hn, Int.toNat_natCast, List.getElem?_eq_getElem hk,
        Option.map_some]
    have h' := h
    rw [hsplit] at h'
    obtain ⟨l', heq, hrep⟩ := remove_represents h'
    refine ⟨.number 1, l', _, ?_, ?_, hrep⟩
    · simp only [listCall, hentry, heq, Option.bind_eq_bind, Option.bind_some]
    · have hmean := @ListMeaning.removeNth _ ((items.take k).map Prod.snd)
        ((items.drop (k + 1)).map Prod.snd) lost.length items[k].2
      rw [hlen, ← List.map_cons (f := Prod.snd), ← List.map_append, ← hsplit] at hmean
      exact hmean
  · have hnone : listNthEntry l k = some none := by
      rw [listNthEntry_eq h, if_neg hn, Int.toNat_natCast,
        List.getElem?_eq_none (Nat.le_of_not_lt hk), Option.map_none]
    refine ⟨.number 0, l, _, ?_, .removeNthMisses (.inr ?_), items, lost, h, rfl, rfl⟩
    · simp only [listCall, hnone, listRemoveEntry_none, Option.bind_eq_bind, Option.bind_some]
    · simpa using Nat.le_of_not_lt hk

theorem removeFound_spec (h : l.Has items lost) (callback : α → Bool) :
    ∃ r l' s', listCall l (.removeFound callback) = some (r, l') ∧
      ListMeaning ⟨items.map Prod.snd, lost.length⟩ (.removeFound callback) r s' ∧
      l'.Represents s' := by
  cases hfind : items.find? fun i => callback i.2 with
  | none =>
    refine ⟨.number 0, l, _, ?_, .removeFoundMisses ?_, items, lost, h, rfl, rfl⟩
    · simp only [listCall, listFindData_eq h, hfind, Option.map_none, listRemoveEntry_none,
        Option.bind_eq_bind, Option.bind_some]
    · rw [List.find?_eq_none] at hfind
      intro a ha
      obtain ⟨i, hi, rfl⟩ := List.mem_map.mp ha
      simpa using hfind i hi
  | some i =>
    obtain ⟨hi, as, bs, rfl, has⟩ := List.find?_eq_some_iff_append.mp hfind
    obtain ⟨l', heq, hrep⟩ := remove_represents h
    refine ⟨.number 1, l', _, ?_, ?_, hrep⟩
    · simp only [listCall, listFindData_eq h, hfind, Option.map_some, heq, Option.bind_eq_bind,
        Option.bind_some]
    · rw [List.map_append, List.map_cons]
      refine .removeFound (fun a ha => ?_) hi
      obtain ⟨j, hj, rfl⟩ := List.mem_map.mp ha
      simpa using has j hj

/-- One call on a list that represents some state. It faults only where an `int` cannot count
the entries. -/
theorem listCall_spec (l : ListHeap α) (s : ListState α) (call : ListCall α)
    (h : l.Represents s) :
    (listCall l call = none ∧ 2 ^ 31 ≤ s.values.length) ∨
    ∃ r l' s', listCall l call = some (r, l') ∧ ListMeaning s call r s' ∧ l'.Represents s' := by
  obtain ⟨values, n⟩ := s
  obtain ⟨items, lost, h, rfl, rfl⟩ := h
  have hlength : (listLength l = none ∧ 2 ^ 31 ≤ (items.map Prod.snd).length) ∨
      listLength l = some (items.length : Int) := by
    rw [List.length_map]
    by_cases hlen : items.length < 2 ^ 31
    · exact .inr (listLength_eq h hlen)
    · cases hn : listLength l with
      | none => exact .inl ⟨rfl, Nat.le_of_not_lt hlen⟩
      | some n => exact .inr (by rw [eq_of_listLength h hn])
  cases call with
  | prepend data mallocOk =>
    right
    cases mallocOk with
    | false => exact ⟨_, l, _, rfl, .prependFails, items, lost, h, rfl, rfl⟩
    | true =>
      obtain ⟨l', heq, h'⟩ := listPrepend_has h data
      refine ⟨.entry true, l', _, ?_, .prepend, _, lost, h', rfl, rfl⟩
      simp only [listCall, heq, Option.bind_eq_bind, Option.bind_some, Option.isSome_some]
  | append data mallocOk =>
    right
    cases mallocOk with
    | false => exact ⟨_, l, _, rfl, .appendFails, items, lost, h, rfl, rfl⟩
    | true =>
      obtain ⟨l', heq, h'⟩ := listAppend_has h data
      refine ⟨.entry true, l', _, ?_, .append, _, lost, h', by simp, rfl⟩
      simp only [listCall, heq, Option.bind_eq_bind, Option.bind_some, Option.isSome_some]
  | nthData n =>
    right
    refine ⟨_, l, _, ?_, .nthData, items, lost, h, rfl, rfl⟩
    simp only [listCall, listNthData_eq h, Option.bind_eq_bind, Option.bind_some,
      List.getElem?_map]
  | length =>
    rcases hlength with ⟨hnone, hlen⟩ | hsome
    · exact .inl ⟨by simp only [listCall, hnone, Option.bind_eq_bind, Option.bind_none], hlen⟩
    · right
      refine ⟨_, l, _, ?_, .length, items, lost, h, rfl, rfl⟩
      simp only [listCall, hsome, Option.bind_eq_bind, Option.bind_some, List.length_map]
  | toArray mallocOk =>
    rcases hlength with ⟨hnone, hlen⟩ | hsome
    · exact .inl ⟨by simp only [listCall, listToArray, hnone, Option.bind_eq_bind,
        Option.bind_none], hlen⟩
    · right
      refine ⟨.array (if mallocOk then some (items.map Prod.snd) else none), l,
        ⟨items.map Prod.snd, lost.length⟩, ?_, ?_, items, lost, h, rfl, rfl⟩
      · simp only [listCall, listToArray_eq h hsome, Option.bind_eq_bind, Option.bind_some]
      · cases mallocOk with
        | false => exact .toArrayFails
        | true => exact .toArray
  | removeNth n => exact .inr (removeNth_spec h n)
  | removeFound callback => exact .inr (removeFound_spec h callback)
  | removeData callback =>
    rcases listRemoveData_has h callback with ⟨hnone, hlen⟩ | ⟨l', heq, h'⟩
    · left
      rw [List.length_map]
      exact ⟨by simp only [listCall, hnone, Option.bind_eq_bind, Option.bind_none], hlen⟩
    · right
      refine ⟨_, l', _, ?_, .removeData, _, lost, h', ?_, rfl⟩
      · simp only [listCall, heq, Option.bind_eq_bind, Option.bind_some, List.filter_map,
          List.length_map, Function.comp_def]
      · simp only [List.filter_map, Function.comp_def]
  | sort c =>
    right
    obtain ⟨l', items', heq, h', hperm, hsort⟩ := listSort_has c h
    refine ⟨.void, l', _, ?_, .sort (hperm.map _) hsort, items', lost, h', rfl, rfl⟩
    simp only [listCall, heq, Option.bind_eq_bind, Option.bind_some]
  | free =>
    right
    obtain ⟨l', heq, h'⟩ := listFree_has h
    refine ⟨.void, l', _, ?_, .free, [], lost, h', rfl, rfl⟩
    simp only [listCall, heq, Option.bind_eq_bind, Option.bind_some]

theorem listCall_total (l : ListHeap α) (s : ListState α) (call : ListCall α)
    (h : l.Represents s) (hlen : s.values.length < 2 ^ 31) :
    ∃ r l' s', listCall l call = some (r, l') ∧ ListMeaning s call r s' ∧ l'.Represents s' :=
  (listCall_spec l s call h).resolve_left fun hfault => Nat.not_lt.mpr hfault.2 hlen

theorem listCall_sound (l : ListHeap α) (s : ListState α) (call : ListCall α) (r : ListAnswer α)
    (l' : ListHeap α) (h : l.Represents s) (heq : listCall l call = some (r, l')) :
    ∃ s', ListMeaning s call r s' ∧ l'.Represents s' := by
  rcases listCall_spec l s call h with ⟨hnone, -⟩ | ⟨r', l'', s', heq', hm, h'⟩
  · rw [hnone] at heq
    cases heq
  · rw [heq] at heq'
    cases heq'
    exact ⟨s', hm, h'⟩

theorem ListMeaning.length_le {s s' : ListState α} {call : ListCall α} {r : ListAnswer α}
    (h : ListMeaning s call r s') : s'.values.length ≤ s.values.length + 1 := by
  cases h with
  | prepend => simp
  | append => simp
  | removeNth => simp; omega
  | removeFound => simp; omega
  | removeData => exact Nat.le_succ_of_le (List.length_filter_le _ _)
  | sort hperm => exact Nat.le_succ_of_le (Nat.le_of_eq hperm.length_eq)
  | free => exact Nat.zero_le _
  | prependFails | appendFails | nthData | length | toArray | toArrayFails | removeNthMisses
  | removeFoundMisses => exact Nat.le_succ _

/-- Whatever calls are made, fewer than an `int` can count, and whichever allocations fail, no
call follows a pointer to no entry, no loop runs on, each answer is right for the sequence built
so far, and every entry is in the list, freed once, or lost to `list_remove_entry`. -/
theorem list_answers_allowed (calls : List (ListCall α)) (hlen : calls.length < 2 ^ 31) :
    ∃ rs l s, answers listCall ListHeap.empty calls = some (rs, l) ∧
      Allows ListMeaning ⟨[], 0⟩ calls rs s ∧ l.Represents s :=
  exists_answers_within listCall_total (fun _ _ _ _ h => h.length_le) represents_empty calls
    (by rw [List.length_nil]; omega)

/-- The list is sorted both ways, and one of its entries is lost. -/
theorem list_answers_allowed_sorted :
    ∃ rs l s, answers listCall ListHeap.empty
        [.append 2 true, .prepend 3 true, .append 1 false, .append 1 true,
          .sort Comparator.ints, .toArray true, .sort Comparator.ints.neg, .removeNth 0,
          .removeData (· = 1), .length, .free] = some (rs, l) ∧
      Allows ListMeaning ⟨[], 0⟩
        [.append 2 true, .prepend 3 true, .append 1 false, .append 1 true,
          .sort Comparator.ints, .toArray true, .sort Comparator.ints.neg, .removeNth 0,
          .removeData (· = 1), .length, .free] rs s ∧ l.Represents s :=
  list_answers_allowed _ (by simp)

end Runs

end BaseCode.Comm
