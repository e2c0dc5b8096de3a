import BaseCode.Comm.ListOps

/-!
# The double-ended queue

`src/comm/queue.c`: entries linked both ways, with a pointer to the first and one to the last.
Taking an entry off an end is the unlinking of the linked list, done without looking at the
other side; what it does to the two pointers is the queue's own.
-/

namespace BaseCode.Comm
open Foundation

/-- The entries allocated so far, `head` and `tail`. -/
structure Queue (α : Type) where
  entries : Arena (Link α)
  head : Option Nat
  tail : Option Nat

variable {α : Type}

def queueNew : Queue α := ⟨.empty, none, none⟩

def queueIsEmpty (queue : Queue α) : Bool := queue.head.isNone

def queuePushHead (queue : Queue α) (data : α) (mallocOk : Bool) : Option (Bool × Queue α) :=
  if mallocOk then
    let newEntry := queue.entries.next
    let A := queue.entries.alloc ⟨data, none, queue.head⟩
    match queue.head with
    | none => some (true, ⟨A, some newEntry, some newEntry⟩)
    | some head => do
      let e ← A.cells head
      some (true, ⟨A.set head { e with prev := some newEntry }, some newEntry, queue.tail⟩)
  else some (false, queue)

def queuePushTail (queue : Queue α) (data : α) (mallocOk : Bool) : Option (Bool × Queue α) :=
  if mallocOk then
    let newEntry := queue.entries.next
    let A := queue.entries.alloc ⟨data, queue.tail, none⟩
    match queue.tail with
    | none => some (true, ⟨A, some newEntry, some newEntry⟩)
    | some tail => do
      let e ← A.cells tail
      some (true, ⟨A.set tail { e with next := some newEntry }, queue.head, some newEntry⟩)
  else some (false, queue)

/-- The value is `none` for an empty queue. -/
def queuePopHead (queue : Queue α) : Option (Option α × Queue α) :=
  if queueIsEmpty queue then some (none, queue)
  else do
    let entry ← queue.head
    let e ← queue.entries.cells entry
    match e.next with
    | none => some (some e.data, ⟨queue.entries.free entry, none, none⟩)
    | some head =>
      let n ← queue.entries.cells head
      let A := queue.entries.set head { n with prev := none }
      some (some e.data, ⟨A.free entry, some head, queue.tail⟩)

def queuePopTail (queue : Queue α) : Option (Option α × Queue α) :=
  if queueIsEmpty queue then some (none, queue)
  else do
    let entry ← queue.tail
    let e ← queue.entries.cells entry
    match e.prev with
    | none => some (some e.data, ⟨queue.entries.free entry, none, none⟩)
    | some tail =>
      let p ← queue.entries.cells tail
      let A := queue.entries.set tail { p with next := none }
      some (some e.data, ⟨A.free entry, queue.head, some tail⟩)

def queuePeekHead (queue : Queue α) : Option (Option α) :=
  if queueIsEmpty queue then some none
  else do
    let head ← queue.head
    let e ← queue.entries.cells head
    some (some e.data)

def queuePeekTail (queue : Queue α) : Option (Option α) :=
  if queueIsEmpty queue then some none
  else do
    let tail ← queue.tail
    let e ← queue.entries.cells tail
    some (some e.data)

/-- The loop of `queue_free`, in at most so many rounds. -/
def queueDrain : Nat → Queue α → Option (Queue α)
  | 0, queue => if queueIsEmpty queue then some queue else none
  | rounds + 1, queue =>
    if queueIsEmpty queue then some queue
    else do
      let (_, queue) ← queuePopHead queue
      queueDrain rounds queue

def queueFree (queue : Queue α) : Option (Queue α) := queueDrain queue.entries.next queue

/-- The list that starts at the head. -/
def Queue.list (queue : Queue α) : ListHeap α := ⟨queue.entries, queue.head⟩

/-- The queue is a chain of these entries, and of no others, that ends at `tail`. -/
structure QueueHolds (queue : Queue α) (items : List (Nat × α)) : Prop where
  list : queue.list.Has items []
  tail : queue.tail = lastOr none (items.map Prod.fst)

section Operations

variable {queue : Queue α} {items as : List (Nat × α)} {i : Nat × α}

theorem holds_queueNew : QueueHolds (queueNew : Queue α) [] := ⟨has_empty, rfl⟩

theorem QueueHolds.isEmpty_iff (h : QueueHolds queue items) :
    queueIsEmpty queue = true ↔ items = [] := by
  have hhead : queue.head = (items.map Prod.fst).head? := h.list.chain.head_eq
  rw [queueIsEmpty, hhead]
  cases items <;> simp

/-- The first entry; the entry behind it starts the rest. -/
theorem QueueHolds.first (h : QueueHolds queue (i :: items)) :
    queueIsEmpty queue = false ∧ queue.head = some i.1 ∧
      queue.entries.cells i.1 = some ⟨i.2, none, items.head?.map Prod.fst⟩ := by
  have hlist : queue.list.Has ([] ++ i :: items) [] := h.list
  obtain ⟨prev, hc⟩ := hlist.cell
  have hhead : queue.head = some i.1 := h.list.chain.head_eq
  have hprev : prev = none := h.list.chain.head_prev hhead hc
  refine ⟨?_, hhead, by rw [← hprev]; exact hc⟩
  rw [queueIsEmpty, hhead]
  rfl

/-- The last entry; the entry before it ends the rest. -/
theorem QueueHolds.last (h : QueueHolds queue (as ++ [i])) :
    queueIsEmpty queue = false ∧ queue.tail = some i.1 ∧
      queue.entries.cells i.1 = some ⟨i.2, lastOr none (as.map Prod.fst), none⟩ := by
  have hempty : queueIsEmpty queue ≠ true := fun he =>
    absurd (h.isEmpty_iff.mp he) (List.append_ne_nil_of_right_ne_nil _ (List.cons_ne_nil _ _))
  have htail := h.tail
  rw [List.map_append, List.map_singleton, lastOr_append_singleton] at htail
  obtain ⟨prev, hc⟩ := h.list.cell
  have hchain := h.list.chain.segment
  rw [List.map_append] at hchain
  obtain ⟨c, hc', hprev, -⟩ := hchain.split
  obtain rfl : c = ⟨i.2, prev, none⟩ := Option.some.inj (hc'.symm.trans hc)
  exact ⟨Bool.eq_false_iff.mpr hempty, htail, by rw [← hprev]; exact hc⟩

theorem queuePushHead_spec (h : QueueHolds queue items) (data : α) :
    ∃ queue', queuePushHead queue data true = some (true, queue') ∧
      QueueHolds queue' ((queue.entries.next, data) :: items) := by
  have hnew : queue.entries.next ∉ items.map Prod.fst := fun hmem =>
    Nat.lt_irrefl _ (h.list.lt _ hmem)
  have hchain := h.list.chain.prepend (d := data) hnew
  cases items with
  | nil =>
    have hhead : queue.head = none := h.list.chain.head_eq
    refine ⟨⟨queue.entries.alloc ⟨data, none, queue.head⟩, some queue.entries.next,
      some queue.entries.next⟩, ?_, ⟨?_, rfl⟩⟩
    · simp only [queuePushHead, if_true, hhead]
    · refine has_of_alloc (show queue.list.Has ([] ++ []) [] from h.list) ?_ rfl rfl
        (dataAt_alloc _ _)
      rw [show queue.list.list = none from hhead, setPrev_none] at hchain
      rw [hhead]
      exact hchain
  | cons i items =>
    obtain ⟨-, hhead, hc⟩ := h.first
    have hne : i.1 ≠ queue.entries.next := fun heq =>
      hnew (heq ▸ List.mem_cons_self)
    have hc' : (queue.entries.alloc ⟨data, none, queue.head⟩).cells i.1 =
        some ⟨i.2, none, items.head?.map Prod.fst⟩ := by
      rw [← hc]
      exact Function.update_of_ne hne ..
    obtain ⟨A, hA⟩ : ∃ A, A = (queue.entries.alloc ⟨data, none, queue.head⟩).set i.1
      ⟨i.2, some queue.entries.next, items.head?.map Prod.fst⟩ := ⟨_, rfl⟩
    have hcells : A.cells = setPrev (queue.entries.alloc ⟨data, none, queue.head⟩).cells
        (some i.1) (some queue.entries.next) := by
      rw [hA]
      exact cells_set_prev hc'
    refine ⟨⟨A, some queue.entries.next, queue.tail⟩, ?_, ⟨?_, h.tail⟩⟩
    · rw [hhead] at hc' hA
      simp only [queuePushHead, if_true, hhead, hc', hA, Option.bind_eq_bind, Option.bind_some]
    · refine has_of_alloc (show queue.list.Has ([] ++ i :: items) [] from h.list) ?_
        (by rw [hA]; rfl) (by rw [hA]; rfl) ?_
      · show Chain A.cells _ _
        rw [hcells, hhead]
        rw [show queue.list.list = some i.1 from hhead] at hchain
        exact hchain
      · refine Eq.trans ?_ (dataAt_alloc queue.entries ⟨data, none, queue.head⟩)
        funext a
        show (A.cells a).map Link.data = _
        rw [hcells, map_data_setPrev]
        rfl

theorem queuePushTail_spec (h : QueueHolds queue items) (data : α) :
    ∃ queue', queuePushTail queue data true = some (true, queue') ∧
      QueueHolds queue' (items ++ [(queue.entries.next, data)]) := by
  have hnew : queue.entries.next ∉ items.map Prod.fst := fun hmem =>
    Nat.lt_irrefl _ (h.list.lt _ hmem)
  have hchain := h.list.chain.append (d := data) hnew h.tail.symm
  have hitems : queue.list.Has (items ++ []) [] := by
    rw [List.append_nil]
    exact h.list
  have hlast : lastOr none ((items ++ [(queue.entries.next, data)]).map Prod.fst) =
      some queue.entries.next := by
    rw [List.map_append, List.map_singleton, lastOr_append_singleton]
  rcases List.eq_nil_or_concat items with rfl | ⟨as, i, rfl⟩
  · have htail : queue.tail = none := h.tail
    refine ⟨⟨queue.entries.alloc ⟨data, queue.tail, none⟩, some queue.entries.next,
      some queue.entries.next⟩, ?_, ⟨?_, rfl⟩⟩
    · simp only [queuePushTail, if_true, htail]
    · refine has_of_alloc hitems ?_ rfl rfl (dataAt_alloc _ _)
      rw [htail, if_pos rfl, setNext_none] at hchain
      rw [htail]
      exact hchain
  · rw [List.concat_eq_append] at *
    obtain ⟨-, htail, hc⟩ := h.last
    have hne : i.1 ≠ queue.entries.next := fun heq =>
      hnew (heq ▸ List.mem_map_of_mem (List.mem_append_right _ (List.mem_singleton_self i)))
    have hc' : (queue.entries.alloc ⟨data, queue.tail, none⟩).cells i.1 =
        some ⟨i.2, lastOr none (as.map Prod.fst), none⟩ := by
      rw [← hc]
      exact Function.update_of_ne hne ..
    obtain ⟨A, hA⟩ : ∃ A, A = (queue.entries.alloc ⟨data, queue.tail, none⟩).set i.1
      ⟨i.2, lastOr none (as.map Prod.fst), some queue.entries.next⟩ := ⟨_, rfl⟩
    have hcells : A.cells = setNext (queue.entries.alloc ⟨data, queue.tail, none⟩).cells
        (some i.1) (some queue.entries.next) := by
      rw [hA]
      exact cells_set_next hc'
    refine ⟨⟨A, queue.head, some queue.entries.next⟩, ?_, ⟨?_, hlast.symm⟩⟩
    · rw [htail] at hc' hA
      simp only [queuePushTail, if_true, htail, hc', hA, Option.bind_eq_bind, Option.bind_some]
    · refine has_of_alloc hitems ?_ (by rw [hA]; rfl) (by rw [hA]; rfl) ?_
      · show Chain A.cells _ _
        rw [htail, if_neg (by simp)] at hchain
        rw [hcells, htail]
        exact hchain
      · refine Eq.trans ?_ (dataAt_alloc queue.entries ⟨data, queue.tail, none⟩)
        funext a
        show (A.cells a).map Link.data = _
        rw [hcells, map_data_setNext]
        rfl

/-- The first entry is unlinked and freed. -/
theorem queuePopHead_spec (h : QueueHolds queue (i :: items)) :
    ∃ queue', queuePopHead queue = some (some i.2, queue') ∧ QueueHolds queue' items := by
  obtain ⟨hempty, hhead, hc⟩ := h.first
  have hlist : queue.list.Has ([] ++ i :: items) [] := h.list
  obtain ⟨l', heq, h'⟩ := listUnlink_has hlist
  have hcell : queue.list.entries.cells i.1 = some ⟨i.2, none, items.head?.map Prod.fst⟩ := hc
  simp only [listUnlink, hcell, Option.bind_eq_bind, Option.bind_some] at heq
  have htail := h.tail
  simp only [queuePopHead, hempty, Bool.false_eq_true, if_false, hhead, hc, Option.bind_eq_bind,
    Option.bind_some]
  cases items with
  | nil =>
    obtain rfl : l' = ⟨queue.entries, none⟩ := (Option.some.inj heq).symm
    exact ⟨⟨queue.entries.free i.1, none, none⟩, rfl, h'.free, rfl⟩
  | cons j items =>
    obtain ⟨A, hA, hl⟩ := Option.bind_eq_some_iff.mp heq
    cases hl
    obtain ⟨n, hn, hA⟩ := Option.bind_eq_some_iff.mp hA
    cases hA
    have hn' : queue.entries.cells j.1 = some n := hn
    refine ⟨⟨(queue.entries.set j.1 { n with prev := none }).free i.1, some j.1, queue.tail⟩,
      ?_, h'.free, htail⟩
    simp only [List.head?_cons, Option.map_some, hn', Option.bind_some]

/-- The last entry is unlinked and freed. -/
theorem queuePopTail_spec (h : QueueHolds queue (as ++ [i])) :
    ∃ queue', queuePopTail queue = some (some i.2, queue') ∧ QueueHolds queue' as := by
  obtain ⟨hempty, htail, hc⟩ := h.last
  obtain ⟨l', heq, h'⟩ := listUnlink_has h.list
  rw [List.append_nil] at h'
  have hcell : queue.list.entries.cells i.1 = some ⟨i.2, lastOr none (as.map Prod.fst), none⟩ := hc
  simp only [listUnlink, hcell, Option.bind_eq_bind, Option.bind_some] at heq
  simp only [queuePopTail, hempty, Bool.false_eq_true, if_false, htail, hc, Option.bind_eq_bind,
    Option.bind_some]
  cases hp : lastOr none (as.map Prod.fst) with
  | none =>
    rw [hp] at heq
    obtain rfl : l' = ⟨queue.entries, none⟩ := (Option.some.inj heq).symm
    have has : as = [] := List.map_eq_nil_iff.mp h'.chain.eq_nil
    subst has
    exact ⟨⟨queue.entries.free i.1, none, none⟩, rfl, h'.free, rfl⟩
  | some p =>
    rw [hp] at heq
    obtain ⟨pe, hpe, heq⟩ := Option.bind_eq_some_iff.mp heq
    have hpe' : queue.entries.cells p = some pe := hpe
    -- the entry before the last is another one, so the last is what it was
    have hne : i.1 ≠ p := by
      rintro rfl
      obtain ⟨as', has⟩ := exists_of_lastOr hp
      have hnodup := h.list.chain.nodup
      rw [List.map_append, has] at hnodup
      exact (List.nodup_append.mp hnodup).2.2 i.1 (by simp) i.1 (by simp) rfl
    have hagain : (queue.entries.set p { pe with next := none }).cells i.1 =
        some ⟨i.2, some p, none⟩ := by
      rw [← hp, ← hc]
      exact Function.update_of_ne hne ..
    have hl : l' = ⟨queue.entries.set p { pe with next := none }, queue.head⟩ := by
      have hget : (queue.list.entries.set p { pe with next := none }).cells i.1 =
          some ⟨i.2, some p, none⟩ := hagain
      simp only [hget, Option.bind_some, setNextPrev] at heq
      exact (Option.some.inj heq).symm
    subst hl
    refine ⟨⟨(queue.entries.set p { pe with next := none }).free i.1, queue.head, some p⟩, ?_,
      h'.free, hp.symm⟩
    simp only [hpe', Option.bind_some]

theorem queuePeekHead_eq (h : QueueHolds queue items) :
    queuePeekHead queue = some (items.head?.map Prod.snd) := by
  rw [queuePeekHead]
  cases items with
  | nil => rw [if_pos (h.isEmpty_iff.mpr rfl)]; rfl
  | cons i items =>
    obtain ⟨hempty, hhead, hc⟩ := h.first
    simp only [hempty, hhead, hc, Bool.false_eq_true, if_false, Option.bind_eq_bind,
      Option.bind_some, List.head?_cons, Option.map_some]

theorem queuePeekTail_eq (h : QueueHolds queue items) :
    queuePeekTail queue = some (items.getLast?.map Prod.snd) := by
  rw [queuePeekTail]
  rcases List.eq_nil_or_concat items with rfl | ⟨as, i, rfl⟩
  · rw [if_pos (h.isEmpty_iff.mpr rfl)]
    rfl
  · rw [List.concat_eq_append] at *
    obtain ⟨hempty, htail, hc⟩ := h.last
    simp only [hempty, htail, hc, Bool.false_eq_true, if_false, Option.bind_eq_bind,
      Option.bind_some, List.getLast?_append, List.getLast?_singleton, Option.some_or,
      Option.map_some]

/-- Each entry is freed once. -/
theorem queueDrain_spec {rounds : Nat} (h : QueueHolds queue items)
    (hrounds : items.length ≤ rounds) :
    ∃ queue', queueDrain rounds queue = some queue' ∧ QueueHolds queue' [] := by
  induction items generalizing queue rounds with
  | nil =>
    have hempty := h.isEmpty_iff.mpr rfl
    refine ⟨queue, ?_, h⟩
    cases rounds <;> rw [queueDrain, if_pos hempty]
  | cons i items ih =>
    obtain ⟨rounds, rfl⟩ := Nat.exists_eq_succ_of_ne_zero (Nat.ne_of_gt (Nat.zero_lt_of_lt hrounds))
    obtain ⟨queue₁, heq, h₁⟩ := queuePopHead_spec h
    obtain ⟨queue₂, heq', h₂⟩ := ih h₁ (Nat.le_of_succ_le_succ hrounds)
    refine ⟨queue₂, ?_, h₂⟩
    rw [queueDrain, h.first.1]
    simp only [Bool.false_eq_true, if_false, heq, heq', Option.bind_eq_bind, Option.bind_some]

end Operations

inductive QueueCall (α : Type) where
  | pushHead (data : α) (mallocOk : Bool)
  | pushTail (data : α) (mallocOk : Bool)
  | popHead
  | popTail
  | peekHead
  | peekTail
  | isEmpty

inductive QueueAnswer (α : Type) where
  | pushed (result : Bool)
  | value (data : Option α)
  | empty (result : Bool)

def queueCall (queue : Queue α) : QueueCall α → Option (QueueAnswer α × Queue α)
  | .pushHead data mallocOk => do
    let (result, queue) ← queuePushHead queue data mallocOk
    some (.pushed result, queue)
  | .pushTail data mallocOk => do
    let (result, queue) ← queuePushTail queue data mallocOk
    some (.pushed result, queue)
  | .popHead => do
    let (data, queue) ← queuePopHead queue
    some (.value data, queue)
  | .popTail => do
    let (data, queue) ← queuePopTail queue
    some (.value data, queue)
  | .peekHead => do some (.value (← queuePeekHead queue), queue)
  | .peekTail => do some (.value (← queuePeekTail queue), queue)
  | .isEmpty => some (.empty (queueIsEmpty queue), queue)

/-- What a call answers on a sequence of values, and the sequence after it. -/
def queueMeaning : List α → QueueCall α → QueueAnswer α → List α → Prop
  | vs, .pushHead data mallocOk, r, vs' =>
    r = .pushed mallocOk ∧ vs' = if mallocOk then data :: vs else vs
  | vs, .pushTail data mallocOk, r, vs' =>
    r = .pushed mallocOk ∧ vs' = if mallocOk then vs ++ [data] else vs
  | vs, .popHead, r, vs' => r = .value vs.head? ∧ vs' = vs.tail
  | vs, .popTail, r, vs' => r = .value vs.getLast? ∧ vs' = vs.dropLast
  | vs, .peekHead, r, vs' => r = .value vs.head? ∧ vs' = vs
  | vs, .peekTail, r, vs' => r = .value vs.getLast? ∧ vs' = vs
  | vs, .isEmpty, r, vs' => r = .empty vs.isEmpty ∧ vs' = vs

/-- The queue has these values, at some addresses. -/
def Queue.Represents (queue : Queue α) (vs : List α) : Prop :=
  ∃ items, QueueHolds queue items ∧ items.map Prod.snd = vs

theorem queueCall_spec (queue : Queue α) (vs : List α) (call : QueueCall α)
    (h : queue.Represents vs) :
    ∃ r queue' vs', queueCall queue call = some (r, queue') ∧ queueMeaning vs call r vs' ∧
      queue'.Represents vs' := by
  obtain ⟨items, h, rfl⟩ := h
  cases call with
  | pushHead data mallocOk =>
    cases mallocOk with
    | false => exact ⟨_, queue, _, rfl, ⟨rfl, rfl⟩, items, h, rfl⟩
    | true =>
      obtain ⟨queue', heq, h'⟩ := queuePushHead_spec h data
      refine ⟨.pushed true, queue', data :: items.map Prod.snd, ?_, ⟨rfl, rfl⟩, _, h', rfl⟩
      rw [queueCall, heq]
      rfl
  | pushTail data mallocOk =>
    cases mallocOk with
    | false => exact ⟨_, queue, _, rfl, ⟨rfl, rfl⟩, items, h, rfl⟩
    | true =>
      obtain ⟨queue', heq, h'⟩ := queuePushTail_spec h data
      refine ⟨.pushed true, queue', items.map Prod.snd ++ [data], ?_, ⟨rfl, rfl⟩, _, h', ?_⟩
      · rw [queueCall, heq]
        rfl
      · rw [List.map_append]
        rfl
  | popHead =>
    cases items with
    | nil =>
      refine ⟨.value none, queue, [], ?_, ⟨rfl, rfl⟩, [], h, rfl⟩
      rw [queueCall, queuePopHead, if_pos (h.isEmpty_iff.mpr rfl)]
      rfl
    | cons i items =>
      obtain ⟨queue', heq, h'⟩ := queuePopHead_spec h
      refine ⟨.value (some i.2), queue', items.map Prod.snd, ?_, ⟨rfl, rfl⟩, _, h', rfl⟩
      rw [queueCall, heq]
      rfl
  | popTail =>
    rcases List.eq_nil_or_concat items with rfl | ⟨as, i, rfl⟩
    · refine ⟨.value none, queue, [], ?_, ⟨rfl, rfl⟩, [], h, rfl⟩
      rw [queueCall, queuePopTail, if_pos (h.isEmpty_iff.mpr rfl)]
      rfl
    · rw [List.concat_eq_append] at *
      obtain ⟨queue', heq, h'⟩ := queuePopTail_spec h
      refine ⟨.value (some i.2), queue', as.map Prod.snd, ?_, ⟨?_, ?_⟩, _, h', rfl⟩
      · rw [queueCall, heq]
        rfl
      · rw [List.map_append, List.map_singleton, List.getLast?_append, List.getLast?_singleton,
          Option.some_or]
      · rw [List.map_append, List.map_singleton, List.dropLast_concat]
  | peekHead =>
    refine ⟨_, queue, _, ?_, ⟨rfl, rfl⟩, items, h, rfl⟩
    rw [queueCall, queuePeekHead_eq h, List.head?_map]
    rfl
  | peekTail =>
    refine ⟨_, queue, _, ?_, ⟨rfl, rfl⟩, items, h, rfl⟩
    rw [queueCall, queuePeekTail_eq h, List.getLast?_map]
    rfl
  | isEmpty =>
    refine ⟨_, queue, _, rfl, ⟨?_, rfl⟩, items, h, rfl⟩
    have hempty := h.isEmpty_iff
    cases items with
    | nil => rw [hempty.mpr rfl]; rfl
    | cons i items => rw [h.first.1]; rfl

/-- Whatever calls are made and whichever allocations fail, no null or freed entry is touched
and the queue answers as a sequence does; `queue_free` then ends, no entry is left allocated,
and none was freed twice. -/
theorem queue_answers_frees_all (calls : List (QueueCall α)) :
    ∃ rs queue vs, answers queueCall queueNew calls = some (rs, queue) ∧
      Allows queueMeaning [] calls rs vs ∧ queue.Represents vs ∧
      ∃ queue', queueFree queue = some queue' ∧ (∀ a, ¬ queue'.entries.Live a) ∧
        queue'.entries.frees.Nodup := by
  obtain ⟨rs, queue, vs, heq, hall, h⟩ :=
    exists_answers queueCall_spec ⟨[], holds_queueNew, rfl⟩ calls
  refine ⟨rs, queue, vs, heq, hall, h, ?_⟩
  obtain ⟨items, h, -⟩ := h
  obtain ⟨queue', hfree, h'⟩ := queueDrain_spec h h.list.length_le
  refine ⟨queue', hfree, fun a ha => ?_, h'.list.held.sound.once⟩
  have hmem := (h'.list.held.live a).mp ha
  cases hmem

end BaseCode.Comm
