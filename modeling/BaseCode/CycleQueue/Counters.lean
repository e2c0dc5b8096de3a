import BaseCode.CycleQueue.Model
import BaseCode.Foundation.Runs

/-!
# Index arithmetic and counters

The indices stay below `size`, and the bytes between them are the bytes accepted and
not yet delivered. `Indexed` says so in natural numbers; each operation is described
once in those terms, for any chunk whose end index does not wrap in `uint32_t`.
-/

namespace BaseCode.CycleQueue
open Foundation

/-- The number of bytes between `tail` and `head`, going round the end of the buffer. -/
def used (q : CycleQueuePri) : Nat :=
  if q.tail.toNat ≤ q.head.toNat then q.head.toNat - q.tail.toNat
  else q.size.toNat - q.tail.toNat + q.head.toNat

/-- Both indices are cells of the buffer. -/
def Indexed (q : CycleQueuePri) : Prop :=
  q.head.toNat < q.size.toNat ∧ q.tail.toNat < q.size.toNat

theorem used_lt {q : CycleQueuePri} (h : Indexed q) : used q < q.size.toNat := by
  obtain ⟨hh, ht⟩ := h
  simp only [used]
  split <;> omega

theorem getDataSize_toNat {q : CycleQueuePri} (h : Indexed q) :
    (cycleQueueGetDataSize q).toNat = used q := by
  obtain ⟨hh, ht⟩ := h
  have hs := q.size.toNat_lt
  simp only [cycleQueueGetDataSize, used]
  simp only [UInt32.le_iff_toNat_le]
  split
  · rw [UInt32.toNat_sub]
    omega
  · rw [UInt32.toNat_add, UInt32.toNat_sub]
    omega

theorem getFreeSize_toNat {q : CycleQueuePri} (h : Indexed q) :
    (cycleQueueGetFreeSize q).toNat = q.size.toNat - 1 - used q := by
  obtain ⟨hh, ht⟩ := h
  have hs := q.size.toNat_lt
  have h1 : (1 : UInt32).toNat = 1 := rfl
  simp only [cycleQueueGetFreeSize, used]
  simp only [UInt32.lt_iff_toNat_lt, ← UInt32.toNat_inj]
  split
  · rw [UInt32.toNat_sub]
    split <;> omega
  · split
    · rw [UInt32.toNat_sub, UInt32.toNat_sub, UInt32.toNat_sub, if_pos (by omega)]
      omega
    · rw [UInt32.toNat_sub, UInt32.toNat_sub, if_neg (by omega)]
      omega

/-- An index moved on by at most one round comes back below `size`. -/
theorem advance_toNat {pos len size : UInt32} (hp : pos.toNat < size.toNat)
    (hl : len.toNat < size.toNat) (hw : pos.toNat + len.toNat < 2 ^ 32) :
    ((pos + len) % size).toNat =
      if pos.toNat + len.toNat < size.toNat then pos.toNat + len.toNat
      else pos.toNat + len.toNat - size.toNat := by
  rw [UInt32.toNat_mod, UInt32.toNat_add, Nat.mod_eq_of_lt hw]
  split
  · next h => exact Nat.mod_eq_of_lt h
  · next h => rw [Nat.mod_eq_sub_mod (by omega), Nat.mod_eq_of_lt (by omega)]

/-- A write of a non-`NULL` chunk is accepted exactly when it fits; an accepted chunk
moves `head` only, a refused one moves nothing. -/
theorem write_cases {q : CycleQueuePri} (h : Indexed q) (data : Bytes) (len : UInt32) :
    (len.toNat ≤ q.size.toNat - 1 - used q ∧ cycleQueueWrite q (some data) len = (0, { q with
        buf := (splitCopies q.head len q.size).foldl (copyIn data) q.buf
        head := (q.head + len) % q.size })) ∨
      (q.size.toNat - 1 - used q < len.toNat ∧
        cycleQueueWrite q (some data) len = (-1, q)) := by
  have hf := getFreeSize_toNat h
  simp only [cycleQueueWrite, UInt32.lt_iff_toNat_lt, hf]
  by_cases hl : q.size.toNat - 1 - used q < len.toNat
  · exact .inr ⟨hl, if_pos hl⟩
  · exact .inl ⟨by omega, if_neg hl⟩

/-- The number of bytes a read with room for `n` takes. -/
def readLen (q : CycleQueuePri) (n : UInt32) : UInt32 :=
  if cycleQueueGetDataSize q < n then cycleQueueGetDataSize q else n

theorem readLen_toNat {q : CycleQueuePri} (h : Indexed q) (n : UInt32) :
    (readLen q n).toNat = min n.toNat (used q) := by
  have hd := getDataSize_toNat h
  simp only [readLen, UInt32.lt_iff_toNat_lt, hd]
  split
  · omega
  · omega

/-- A read with no room fails and changes nothing, one on an empty queue reports zero
bytes, and any other takes `readLen` bytes and moves `tail` only. -/
theorem read_cases {q : CycleQueuePri} (h : Indexed q) (out : Bytes) (n : UInt32) :
    (n = 0 ∧ cycleQueueRead q (some out) (some n) = ⟨-1, some out, some n, q⟩) ∨
    (n ≠ 0 ∧ used q = 0 ∧
      cycleQueueRead q (some out) (some n) = ⟨0, some out, some 0, q⟩) ∨
    (n ≠ 0 ∧ used q ≠ 0 ∧ cycleQueueRead q (some out) (some n) =
      ⟨0, some ((splitCopies q.tail (readLen q n) q.size).foldl (copyOut q.buf) out),
        some (readLen q n), { q with tail := (q.tail + readLen q n) % q.size }⟩) := by
  have hd : cycleQueueGetDataSize q = 0 ↔ used q = 0 := by
    rw [← UInt32.toNat_inj, getDataSize_toNat h]
    rfl
  simp only [cycleQueueRead, hd]
  by_cases hn : n = 0
  · exact .inl ⟨hn, if_pos hn⟩
  · by_cases hu : used q = 0
    · exact .inr (.inl ⟨hn, hu, by rw [if_neg hn, if_pos hu]⟩)
    · exact .inr (.inr ⟨hn, hu, by rw [if_neg hn, if_neg hu]; rfl⟩)

theorem write_indexed {q : CycleQueuePri} (h : Indexed q) {len : UInt32} (buf : Bytes)
    (hl : len.toNat ≤ q.size.toNat - 1 - used q) (hw : q.head.toNat + len.toNat < 2 ^ 32) :
    Indexed { q with buf := buf, head := (q.head + len) % q.size } ∧
      used { q with buf := buf, head := (q.head + len) % q.size } = used q + len.toNat := by
  have hu := used_lt h
  obtain ⟨hh, ht⟩ := h
  have ha := advance_toNat hh (by omega : len.toNat < q.size.toNat) hw
  refine ⟨⟨?_, ht⟩, ?_⟩
  · simp only [ha]
    split <;> omega
  · -- `head` is before or behind `tail`, and the new `head` wraps or not
    simp only [used] at hl hu ⊢
    simp only [ha]
    split_ifs at hl hu ⊢ <;> omega

theorem read_indexed {q : CycleQueuePri} (h : Indexed q) {len : UInt32}
    (hl : len.toNat ≤ used q) (hw : q.tail.toNat + len.toNat < 2 ^ 32) :
    Indexed { q with tail := (q.tail + len) % q.size } ∧
      used { q with tail := (q.tail + len) % q.size } + len.toNat = used q := by
  have hu := used_lt h
  obtain ⟨hh, ht⟩ := h
  have ha := advance_toNat ht (by omega : len.toNat < q.size.toNat) hw
  refine ⟨⟨hh, ?_⟩, ?_⟩
  · simp only [ha]
    split <;> omega
  · simp only [used] at hl hu ⊢
    simp only [ha]
    split_ifs at hl hu ⊢ <;> omega

/-- One call on the queue, with the caller's arrays. -/
inductive Op where
  | write (data : Bytes) (dataLen : UInt32)
  | read (buf : Bytes) (bufLen : UInt32)

/-- A queue together with what its callers have seen: the bytes of the writes that
returned 0 and the bytes the reads delivered, both in call order. -/
structure Session where
  queue : CycleQueuePri
  accepted : List UInt8
  delivered : List UInt8

/-- The bytes a read hands over: the first `*buf_len` bytes of the caller's buffer, if it
returned 0. -/
def readBytes (r : ReadResult) : List UInt8 :=
  match r.ret, r.buf, r.bufLen with
  | 0, some out, some n => takeBytes out n.toNat
  | _, _, _ => []

def exec (s : Session) : Op → Session
  | .write data len =>
    let r := cycleQueueWrite s.queue (some data) len
    { s with
      queue := r.2
      accepted := if r.1 = 0 then s.accepted ++ takeBytes data len.toNat else s.accepted }
  | .read buf n =>
    let r := cycleQueueRead s.queue (some buf) (some n)
    { s with queue := r.thiz, delivered := s.delivered ++ readBytes r }

def newSession (q : CycleQueuePri) : Session := ⟨q, [], []⟩

/-- All runs on a queue that `cycle_queue_create(size)` returned. -/
def sessions (size : UInt32) : System Session Op where
  Init s := ∃ q, cycleQueueCreate size true true = some q ∧ s = newSession q
  Step s op s' := s' = exec s op

@[simp] theorem takeBytes_length (b : Bytes) (n : Nat) : (takeBytes b n).length = n := by
  simp [takeBytes]

theorem create_eq {size : UInt32} {q : CycleQueuePri}
    (h : cycleQueueCreate size true true = some q) :
    0 < size.toNat ∧ q = ⟨0, 0, size, fun _ => 0⟩ := by
  simp only [cycleQueueCreate] at h
  split at h
  · next hs => exact ⟨UInt32.lt_iff_toNat_lt.mp hs, by simpa using h.symm⟩
  · cases h

/-- The counter invariant: the indices are cells, and the bytes between them are the
accepted bytes not yet delivered. -/
structure Counted (size : UInt32) (s : Session) : Prop where
  size_eq : s.queue.size = size
  indexed : Indexed s.queue
  count : s.accepted.length = s.delivered.length + used s.queue

theorem counted_init {size : UInt32} {s : Session} (h : (sessions size).Init s) :
    Counted size s := by
  obtain ⟨q, hq, rfl⟩ := h
  obtain ⟨hs, rfl⟩ := create_eq hq
  exact ⟨rfl, ⟨hs, hs⟩, by simp [newSession, used]⟩

/-- The end index of a chunk fits in `uint32_t`: of an accepted write, or of the bytes a
read takes. -/
def EndFits (s : Session) : Op → Prop
  | .write _ len => len.toNat ≤ (cycleQueueGetFreeSize s.queue).toNat →
      s.queue.head.toNat + len.toNat < 2 ^ 32
  | .read _ n => s.queue.tail.toNat + min n.toNat (cycleQueueGetDataSize s.queue).toNat < 2 ^ 32

instance (s : Session) : (op : Op) → Decidable (EndFits s op)
  | .write _ _ => inferInstanceAs (Decidable (_ → _))
  | .read _ _ => inferInstanceAs (Decidable (_ < _))

theorem counted_exec {size : UInt32} {s : Session} (h : Counted size s) (op : Op)
    (hfit : EndFits s op) : Counted size (exec s op) := by
  obtain ⟨hs, hi, hc⟩ := h
  cases op with
  | write data len =>
    simp only [EndFits, getFreeSize_toNat hi] at hfit
    obtain ⟨hl, hw⟩ | ⟨hl, hw⟩ := write_cases hi data len
    · obtain ⟨hi', hu'⟩ := write_indexed hi
        ((splitCopies s.queue.head len s.queue.size).foldl (copyIn data) s.queue.buf) hl (hfit hl)
      refine ⟨?_, ?_, ?_⟩
      · simpa only [exec, hw] using hs
      · simpa only [exec, hw] using hi'
      · simp only [exec, hw, if_true, List.length_append, takeBytes_length, hu']
        omega
    · have he : exec s (.write data len) = s := by simp [exec, hw]
      rw [he]
      exact ⟨hs, hi, hc⟩
  | read out n =>
    simp only [EndFits, getDataSize_toNat hi, ← readLen_toNat hi] at hfit
    have hlen := readLen_toNat hi n
    obtain ⟨-, hr⟩ | ⟨-, -, hr⟩ | ⟨-, -, hr⟩ := read_cases hi out n
    -- no room offered, nothing queued, or bytes taken
    · have he : exec s (.read out n) = s := by simp [exec, hr, readBytes]
      rw [he]
      exact ⟨hs, hi, hc⟩
    · have he : exec s (.read out n) = s := by simp [exec, hr, readBytes, takeBytes]
      rw [he]
      exact ⟨hs, hi, hc⟩
    · obtain ⟨hi', hu'⟩ := read_indexed hi (by omega) hfit
      refine ⟨?_, ?_, ?_⟩
      · simpa only [exec, hr] using hs
      · simpa only [exec, hr] using hi'
      · simp only [exec, hr, readBytes, List.length_append, takeBytes_length]
        omega

/-- Up to `2 ^ 31` cells no end index wraps. -/
theorem endFits_of_size_le {size : UInt32} (hsize : size.toNat ≤ 2 ^ 31) {s : Session}
    (h : Counted size s) (op : Op) : EndFits s op := by
  obtain ⟨rfl, hi, -⟩ := h
  have hu := used_lt hi
  cases op with
  | write data len =>
    rw [EndFits, getFreeSize_toNat hi]
    have := hi.1
    omega
  | read out n =>
    rw [EndFits, getDataSize_toNat hi]
    have := hi.2
    omega

theorem counted_reachable {size : UInt32} (hsize : size.toNat ≤ 2 ^ 31) {s : Session}
    (h : (sessions size).Reachable s) : Counted size s := by
  refine h.invariant (fun _ => counted_init) ?_
  rintro s op _ hc rfl
  exact counted_exec hc op (endFits_of_size_le hsize hc op)

/-- Over every run on a queue of at most `2 ^ 31` cells the indices are cells, the two
size functions report the bytes still queued and the room left beside one spare cell, a
write is accepted exactly when it fits and is otherwise without effect, and a read takes
as many bytes as there are, up to the room offered. -/
theorem counters_exact {size : UInt32} (hsize : size.toNat ≤ 2 ^ 31) {s : Session}
    (h : (sessions size).Reachable s) :
    s.queue.size = size ∧ s.queue.head < size ∧ s.queue.tail < size ∧
    s.delivered.length ≤ s.accepted.length ∧
    (cycleQueueGetDataSize s.queue).toNat = s.accepted.length - s.delivered.length ∧
    (cycleQueueGetFreeSize s.queue).toNat + (cycleQueueGetDataSize s.queue).toNat =
      size.toNat - 1 ∧
    (∀ data len, (cycleQueueWrite s.queue (some data) len).1 = 0 ↔
      len ≤ cycleQueueGetFreeSize s.queue) ∧
    (∀ data len, ¬ len ≤ cycleQueueGetFreeSize s.queue →
      cycleQueueWrite s.queue (some data) len = (-1, s.queue)) ∧
    (∀ out n, 0 < n → (cycleQueueRead s.queue (some out) (some n)).ret = 0 ∧
      (cycleQueueRead s.queue (some out) (some n)).bufLen =
        some (min n (cycleQueueGetDataSize s.queue))) ∧
    (∀ out, cycleQueueRead s.queue (some out) (some 0) = ⟨-1, some out, some 0, s.queue⟩) := by
  obtain ⟨hs, hi, hc⟩ := counted_reachable hsize h
  have hd := getDataSize_toNat hi
  have hf := getFreeSize_toNat hi
  have hu := used_lt hi
  have hfits : ∀ len : UInt32, len ≤ cycleQueueGetFreeSize s.queue ↔
      len.toNat ≤ s.queue.size.toNat - 1 - used s.queue := by
    intro len
    rw [UInt32.le_iff_toNat_le, hf]
  refine ⟨hs, ?_, ?_, by omega, by omega, by rw [← hs]; omega, ?_, ?_, ?_, ?_⟩
  · rw [UInt32.lt_iff_toNat_lt, ← hs]
    exact hi.1
  · rw [UInt32.lt_iff_toNat_lt, ← hs]
    exact hi.2
  · intro data len
    rw [hfits]
    obtain ⟨hl, hw⟩ | ⟨hl, hw⟩ := write_cases hi data len
    · simpa [hw] using hl
    · simpa [hw] using hl
  · intro data len hl
    rw [hfits] at hl
    obtain ⟨hl', -⟩ | ⟨-, hw⟩ := write_cases hi data len
    · exact absurd hl' hl
    · exact hw
  · intro out n hn
    have hmin : min n (cycleQueueGetDataSize s.queue) = readLen s.queue n := by
      rw [← UInt32.toNat_inj, readLen_toNat hi, ← hd]
      show (if n ≤ cycleQueueGetDataSize s.queue then n
        else cycleQueueGetDataSize s.queue).toNat = _
      simp only [UInt32.le_iff_toNat_le]
      split <;> omega
    obtain ⟨rfl, -⟩ | ⟨-, hu0, hr⟩ | ⟨-, -, hr⟩ := read_cases hi out n
    · exact absurd hn (by decide)
    · have hz : readLen s.queue n = 0 := by
        rw [← UInt32.toNat_inj, readLen_toNat hi, hu0]
        simp
      rw [hr, hmin, hz]
      exact ⟨rfl, rfl⟩
    · rw [hr, hmin]
      exact ⟨rfl, rfl⟩
  · intro out
    rfl

theorem exec_step (size : UInt32) (s : Session) (op : Op) :
    (sessions size).Step s op (exec s op) := rfl

/-- Six bytes written to a queue of eight cells, four of them read back. -/
theorem counters_exact_eight : ∃ s, (sessions 8).Reachable s ∧
    (cycleQueueGetDataSize s.queue).toNat = 6 - 4 ∧
    (cycleQueueGetFreeSize s.queue).toNat + (cycleQueueGetDataSize s.queue).toNat = 8 - 1 := by
  have h0 : (sessions 8).Reachable (newSession ⟨0, 0, 8, fun _ => 0⟩) := .init ⟨_, rfl, rfl⟩
  have h := h0.run (exec_step 8) [.write (fun i => UInt8.ofNat i) 6, .read (fun _ => 0) 4]
  obtain ⟨-, -, -, -, hd, hf, -⟩ := counters_exact (by decide) h
  exact ⟨_, h, hd, hf⟩

end BaseCode.CycleQueue
