import BaseCode.Comm.ListOps

/-!
# Iterating over the linked list

The iterator of `src/comm/list.c` holds the address of the pointer that leads to the current
entry, so that it can take the entry out of the list without a look at what is before it. The
entries it has passed and kept, the current one and those to come are the list at all times.
-/

namespace BaseCode.Comm
open Foundation

variable {α : Type}

/-- A `ListEntry **`: the list pointer, or the `next` field of an entry. -/
inductive ListSlot where
  | head
  | next (entry : Nat)
  deriving DecidableEq, Repr

def ListSlot.load (l : ListHeap α) : ListSlot → Option (Option Nat)
  | head => some l.list
  | next entry => do
    let e ← l.entries.cells entry
    some e.next

def ListSlot.store (l : ListHeap α) (value : Option Nat) : ListSlot → Option (ListHeap α)
  | head => some ⟨l.entries, value⟩
  | next entry => do
    let e ← l.entries.cells entry
    some ⟨l.entries.set entry { e with next := value }, l.list⟩

structure ListIterator where
  prevNext : ListSlot
  current : Option Nat
  deriving DecidableEq, Repr

def listIterate : ListIterator := ⟨.head, none⟩

/-- The current entry, or `none` inside where the code finds it unread, removed or past the
end. -/
def ListIterator.entry (l : ListHeap α) (iter : ListIterator) : Option (Option Nat) :=
  match iter.current with
  | none => some none
  | some a => do
    let next ← iter.prevNext.load l
    some (if next = some a then some a else none)

def listIterHasMore (l : ListHeap α) (iter : ListIterator) : Option Int := do
  match ← iter.entry l with
  | none =>
    let next ← iter.prevNext.load l
    some (if next = none then 0 else 1)
  | some current =>
    let e ← l.entries.cells current
    some (if e.next = none then 0 else 1)

/-- The value, or `none` inside for `LIST_NULL`, and the iterator. -/
def listIterNext (l : ListHeap α) (iter : ListIterator) : Option (Option α × ListIterator) := do
  let iter ← match ← iter.entry l with
    | none => do
      let next ← iter.prevNext.load l
      some (ListIterator.mk iter.prevNext next)
    | some current => do
      let e ← l.entries.cells current
      some (ListIterator.mk (.next current) e.next)
  match iter.current with
  | none => some (none, iter)
  | some current =>
    let e ← l.entries.cells current
    some (some e.data, iter)

def listIterRemove (l : ListHeap α) (iter : ListIterator) :
    Option (ListHeap α × ListIterator) := do
  match ← iter.entry l with
  | none => some (l, iter)
  | some current =>
    let e ← l.entries.cells current
    let l ← iter.prevNext.store l e.next
    let e ← l.entries.cells current
    let A ← setNextPrev l.entries e.next e.prev
    some (⟨A.free current, l.list⟩, ⟨iter.prevNext, none⟩)

inductive IterCall where
  | hasMore
  | next
  | remove

def iterCall (s : ListHeap α × ListIterator) :
    IterCall → Option (ListAnswer α × ListHeap α × ListIterator)
  | .hasMore => do
    let n ← listIterHasMore s.1 s.2
    some (.number n, s)
  | .next => do
    let (value, iter) ← listIterNext s.1 s.2
    some (.data value, s.1, iter)
  | .remove => do
    let s ← listIterRemove s.1 s.2
    some (.void, s)

/-- What has been passed and kept, the current value, and what is to come. -/
structure IterState (α : Type) where
  kept : List α
  current : Option α
  rest : List α

/-- What the calls mean on a sequence that is read once from front to back. -/
inductive IterMeaning : IterState α → IterCall → ListAnswer α → IterState α → Prop
  | noMore {ks : List α} {cur : Option α} :
      IterMeaning ⟨ks, cur, []⟩ .hasMore (.number 0) ⟨ks, cur, []⟩
  | hasMore {ks : List α} {cur : Option α} {d : α} {ds : List α} :
      IterMeaning ⟨ks, cur, d :: ds⟩ .hasMore (.number 1) ⟨ks, cur, d :: ds⟩
  | atEnd {ks : List α} {cur : Option α} :
      IterMeaning ⟨ks, cur, []⟩ .next (.data none) ⟨ks ++ cur.toList, none, []⟩
  | next {ks : List α} {cur : Option α} {d : α} {ds : List α} :
      IterMeaning ⟨ks, cur, d :: ds⟩ .next (.data (some d)) ⟨ks ++ cur.toList, some d, ds⟩
  | removeNothing {ks ds : List α} : IterMeaning ⟨ks, none, ds⟩ .remove .void ⟨ks, none, ds⟩
  | remove {ks ds : List α} {d : α} :
      IterMeaning ⟨ks, some d, ds⟩ .remove .void ⟨ks, none, ds⟩

section Specs

variable {l : ListHeap α} {as bs : List (Nat × α)} {lost : List Nat} {cur : Option (Nat × α)}

/-- The pointer that leads on from the entries `as`. -/
def slotAfter (as : List (Nat × α)) : ListSlot :=
  match as.getLast? with
  | none => .head
  | some i => .next i.1

theorem slotAfter_concat (as : List (Nat × α)) (i : Nat × α) :
    slotAfter (as ++ [i]) = .next i.1 := by
  simp [slotAfter]

theorem load_slotAfter (h : l.Has (as ++ bs) lost) :
    (slotAfter as).load l = some (bs.head?.map Prod.fst) := by
  rcases List.eq_nil_or_concat as with rfl | ⟨as, i, rfl⟩
  · have hhead := h.chain.head_eq
    rw [List.head?_map] at hhead
    simpa [slotAfter, ListSlot.load] using hhead
  · rw [List.concat_eq_append, List.append_assoc, List.singleton_append] at h
    obtain ⟨prev, hcell⟩ := h.cell
    rw [List.concat_eq_append, slotAfter_concat, ListSlot.load, hcell]
    rfl

/-- The iterator stands at `cur`, behind the entries `as`. -/
structure Stands (l : ListHeap α) (iter : ListIterator) (as : List (Nat × α))
    (cur : Option (Nat × α)) (bs : List (Nat × α)) (lost : List Nat) : Prop where
  has : l.Has (as ++ (cur.toList ++ bs)) lost
  slot : iter.prevNext = slotAfter as
  current : iter.current = cur.map Prod.fst

theorem Stands.entry {iter : ListIterator} (h : Stands l iter as cur bs lost) :
    iter.entry l = some (cur.map Prod.fst) := by
  obtain ⟨has, hslot, hcur⟩ := h
  cases cur with
  | none => simp only [ListIterator.entry, hcur, Option.map_none]
  | some i =>
    simp only [ListIterator.entry, hcur, Option.map_some, hslot, load_slotAfter has,
      Option.bind_eq_bind, Option.bind_some, Option.toList_some, List.singleton_append,
      List.head?_cons, if_true]

/-- Where the iterator goes next. -/
theorem Stands.after {iter : ListIterator} (h : Stands l iter as cur bs lost) :
    l.Has ((as ++ cur.toList) ++ bs) lost := by
  rw [List.append_assoc]
  exact h.has

theorem hasMore_eq {iter : ListIterator} (h : Stands l iter as cur bs lost) :
    listIterHasMore l iter = some (if bs = [] then 0 else 1) := by
  cases cur with
  | none =>
    have hload := load_slotAfter h.after
    simp only [Option.toList_none, List.append_nil] at hload
    simp [listIterHasMore, h.entry, h.slot, hload]
  | some i =>
    obtain ⟨prev, hcell⟩ := h.has.cell
    simp [listIterHasMore, h.entry, hcell]

theorem listIterNext_spec {iter : ListIterator} (h : Stands l iter as cur bs lost) :
    ∃ iter', listIterNext l iter = some (bs.head?.map Prod.snd, iter') ∧
      Stands l iter' (as ++ cur.toList) bs.head? bs.tail lost := by
  have hafter := h.after
  have hhas : l.Has ((as ++ cur.toList) ++ (bs.head?.toList ++ bs.tail)) lost := by
    cases bs with
    | nil => exact hafter
    | cons j bs => exact hafter
  refine ⟨⟨slotAfter (as ++ cur.toList), bs.head?.map Prod.fst⟩, ?_, hhas, rfl, rfl⟩
  have hunread : ∀ slot, (ListIterator.mk slot none).entry l = some none := fun _ => rfl
  have hmove : listIterNext l iter = listIterNext l ⟨slotAfter (as ++ cur.toList), none⟩ := by
    cases cur with
    | none =>
      rw [Option.toList_none, List.append_nil]
      simp only [listIterNext, h.entry, hunread, h.slot, Option.map_none]
    | some i =>
      obtain ⟨prev, hcell⟩ : ∃ prev, l.entries.cells i.1 =
        some ⟨i.2, prev, bs.head?.map Prod.fst⟩ := h.has.cell
      have hload := load_slotAfter hafter
      rw [Option.toList_some, slotAfter_concat] at hload ⊢
      simp only [listIterNext, h.entry, hunread, Option.map_some, hcell, hload,
        Option.bind_eq_bind, Option.bind_some]
  rw [hmove]
  have hload := load_slotAfter hafter
  simp only [listIterNext, ListIterator.entry, hload, Option.bind_eq_bind, Option.bind_some]
  cases bs with
  | nil => rfl
  | cons j bs =>
    obtain ⟨prev, hcell⟩ := hafter.cell
    simp only [List.head?_cons, Option.map_some, hcell, Option.bind_some]

theorem ListHeap.Has.cell_prev {i : Nat × α} {c : ListEntry α} (h : l.Has (as ++ i :: bs) lost)
    (hc : l.entries.cells i.1 = some c) : c.prev = as.getLast?.map Prod.fst := by
  have hseg := h.chain.segment
  rw [List.map_append, List.map_cons] at hseg
  obtain ⟨c', hc', hprev, -, -⟩ := hseg.split
  obtain rfl : c' = c := Option.some.inj (hc'.symm.trans hc)
  rw [hprev]
  rcases List.eq_nil_or_concat as with rfl | ⟨as, j, rfl⟩
  · rfl
  · simp

/-- What the iterator does to take an entry out is what `list_remove_data` does. -/
theorem store_eq_unlink {i : Nat × α} {c : ListEntry α} (h : l.Has (as ++ i :: bs) lost)
    (hc : l.entries.cells i.1 = some c) :
    (do
      let l ← (slotAfter as).store l c.next
      let e ← l.entries.cells i.1
      let A ← setNextPrev l.entries e.next e.prev
      some (ListHeap.mk A l.list)) = listUnlink l i.1 := by
  have hprev := h.cell_prev hc
  rcases List.eq_nil_or_concat as with rfl | ⟨as, j, rfl⟩
  · have hnone : c.prev = none := hprev
    simp [slotAfter, ListSlot.store, listUnlink, hc, hnone]
  · rw [List.concat_eq_append] at *
    have hsome : c.prev = some j.1 := by
      rw [hprev]
      simp
    simp [slotAfter_concat, ListSlot.store, listUnlink, hc, hsome, Option.bind_assoc]

theorem listIterRemove_spec {iter : ListIterator} {i : Nat × α}
    (h : Stands l iter as (some i) bs lost) :
    ∃ l', listIterRemove l iter = some (l', ⟨iter.prevNext, none⟩) ∧
      Stands l' ⟨iter.prevNext, none⟩ as none bs lost := by
  obtain ⟨prev, hcell⟩ := h.has.cell
  have hunlink := store_eq_unlink h.has hcell
  obtain ⟨l', hl', hhas⟩ := listUnlink_has h.has
  rw [hl'] at hunlink
  simp only [Option.bind_eq_bind, Option.bind_eq_some_iff] at hunlink
  obtain ⟨l₁, hl₁, e, he, A, hA, heq⟩ := hunlink
  cases heq
  refine ⟨⟨A.free i.1, l₁.list⟩, ?_, hhas.free, h.slot, rfl⟩
  simp only [listIterRemove, h.entry, Option.map_some, hcell, h.slot, hl₁, he, hA,
    Option.bind_eq_bind, Option.bind_some]

/-- The iterator and the list, as a sequence that is being read. -/
def Iterates (n : Nat) (s : ListHeap α × ListIterator) (st : IterState α) : Prop :=
  ∃ as cur bs lost, Stands s.1 s.2 as cur bs lost ∧ lost.length = n ∧
    st = ⟨as.map Prod.snd, cur.map Prod.snd, bs.map Prod.snd⟩

theorem iterCall_spec (n : Nat) (s : ListHeap α × ListIterator) (st : IterState α)
    (call : IterCall) (h : Iterates n s st) :
    ∃ r s' st', iterCall s call = some (r, s') ∧ IterMeaning st call r st' ∧ Iterates n s' st' := by
  obtain ⟨as, cur, bs, lost, h, hn, rfl⟩ := h
  cases call with
  | hasMore =>
    refine ⟨.number (if bs = [] then 0 else 1), s, _, ?_, ?_, as, cur, bs, lost, h, hn, rfl⟩
    · simp only [iterCall, hasMore_eq h, Option.bind_eq_bind, Option.bind_some]
    · cases bs with
      | nil => exact .noMore
      | cons j bs => exact .hasMore
  | next =>
    obtain ⟨iter', heq, h'⟩ := listIterNext_spec h
    refine ⟨.data (bs.head?.map Prod.snd), (s.1, iter'), _, ?_, ?_, _, _, _, lost, h', hn, rfl⟩
    · simp only [iterCall, heq, Option.bind_eq_bind, Option.bind_some]
    · have hk : (as ++ cur.toList).map Prod.snd =
          as.map Prod.snd ++ (cur.map Prod.snd).toList := by
        cases cur <;> simp
      rw [hk]
      cases bs with
      | nil => exact .atEnd
      | cons j bs => exact .next
  | remove =>
    cases cur with
    | none =>
      refine ⟨.void, s, _, ?_, .removeNothing, as, none, bs, lost, h, hn, rfl⟩
      simp only [iterCall, listIterRemove, h.entry, Option.map_none, Option.bind_eq_bind,
        Option.bind_some]
    | some i =>
      obtain ⟨l', heq, h'⟩ := listIterRemove_spec h
      refine ⟨.void, (l', ⟨s.2.prevNext, none⟩), _, ?_, .remove, as, none, bs, lost, h', hn, rfl⟩
      simp only [iterCall, heq, Option.bind_eq_bind, Option.bind_some]

/-- An iteration over any list that calls have built, with the three iterator calls in any
order: it reads each value once, from front to back, takes out exactly the values that were
current at a removal, and frees their entries. Fewer calls than an `int` can count do build a
list; beyond that a call that counts more entries than that faults. -/
theorem listIter_answers_allowed (calls : List (ListCall α)) (iterCalls : List IterCall) :
    (calls.length < 2 ^ 31 →
      ∃ rs l, answers listCall (ListHeap.empty : ListHeap α) calls = some (rs, l)) ∧
    ∀ rs l, answers listCall ListHeap.empty calls = some (rs, l) →
      ∃ rs' l' iter st s, answers iterCall (l, listIterate) iterCalls = some (rs', l', iter) ∧
        Allows ListMeaning ⟨[], 0⟩ calls rs s ∧
        Allows IterMeaning ⟨[], none, s.values⟩ iterCalls rs' st ∧
        l'.Represents ⟨st.kept ++ (st.current.toList ++ st.rest), s.lost⟩ := by
  constructor
  · intro hlen
    have hempty : (ListHeap.empty : ListHeap α).Represents ⟨[], 0⟩ := represents_empty
    obtain ⟨rs, l, -, hrun, -⟩ := exists_answers_within listCall_total
      (fun _ _ _ _ h => h.length_le) hempty calls (by rw [List.length_nil]; omega)
    exact ⟨rs, l, hrun⟩
  · intro rs l hrun
    obtain ⟨s, hall, items, lost, hhas, hvalues, hlost⟩ :=
      allows_of_answers listCall_sound represents_empty hrun
    have hstart : Iterates s.lost (l, listIterate) ⟨[], none, s.values⟩ :=
      ⟨[], none, items, lost, ⟨hhas, rfl, rfl⟩, hlost, by rw [← hvalues]; rfl⟩
    obtain ⟨rs', ⟨l', iter⟩, st, hrun', hall', as, cur, bs, lost', hst, hn, rfl⟩ :=
      exists_answers (iterCall_spec s.lost) hstart iterCalls
    refine ⟨rs', l', iter, _, s, hrun', hall, hall', _, lost', hst.has, ?_, hn⟩
    cases cur <;> simp

end Specs

end BaseCode.Comm
