import BaseCode.CycleQueue.Stream

/-!
# The bounds of the copies

Whether a chunk is copied in one piece or in two is decided on `head + data_len` or
`tail + read_len` in `uint32_t`. Where this sum wraps, the chunk is taken to end below
`size` and copied in one piece past the end of the buffer. On a queue of at most `2 ^ 31`
cells it never wraps; on any larger queue three calls are enough to make it.
-/

namespace BaseCode.CycleQueue
open Foundation

/-- The chunk a call copies, as its first index and its length, if it comes to the copying:
for a write that fits, and for a read with room that finds something. -/
def chunk (q : CycleQueuePri) : Op → Option (UInt32 × UInt32)
  | .write _ len => if cycleQueueGetFreeSize q < len then none else some (q.head, len)
  | .read _ n =>
    if n = 0 then none
    else if cycleQueueGetDataSize q = 0 then none
    else some (q.tail, readLen q n)

/-- The copies a call makes. -/
def copies (q : CycleQueuePri) (op : Op) : List Copy :=
  match chunk q op with
  | some (pos, len) => splitCopies pos len q.size
  | none => []

/-- A write changes the buffer by its copies. -/
theorem write_copies (q : CycleQueuePri) (data : Bytes) (len : UInt32) :
    (cycleQueueWrite q (some data) len).2.buf =
      (copies q (.write data len)).foldl (copyIn data) q.buf := by
  simp only [cycleQueueWrite, copies, chunk]
  by_cases h : cycleQueueGetFreeSize q < len
  · simp only [if_pos h, List.foldl_nil]
  · simp only [if_neg h]

/-- A read changes the caller's buffer by its copies. -/
theorem read_copies (q : CycleQueuePri) (out : Bytes) (n : UInt32) :
    (cycleQueueRead q (some out) (some n)).buf =
      some ((copies q (.read out n)).foldl (copyOut q.buf) out) := by
  simp only [cycleQueueRead, copies, chunk]
  by_cases hn : n = 0
  · simp only [if_pos hn, List.foldl_nil]
  · by_cases hd : cycleQueueGetDataSize q = 0
    · simp only [if_neg hn, if_pos hd, List.foldl_nil]
    · simp only [if_neg hn, if_neg hd]
      rfl

/-- The length of the caller's array: `data_len`, or `*buf_len` at the call. -/
def Op.room : Op → Nat
  | .write _ len => len.toNat
  | .read _ n => n.toNat

/-- The copies of a chunk touch cells of the buffer and bytes of the caller's array only,
and the differences they are computed from do not underflow: `size - 1`, and where the
chunk is cut, `part1 = size - 1 - pos` and `len - part1`. -/
structure ChunkFits (pos len size : UInt32) (room : Nat) : Prop where
  cells : ∀ c ∈ splitCopies pos len size, c.cell + c.len ≤ size.toNat
  user : ∀ c ∈ splitCopies pos len size, c.user + c.len ≤ room
  size_pos : 1 ≤ size
  lengths : ¬ pos + len ≤ size - 1 → pos ≤ size - 1 ∧ size - 1 - pos ≤ len

/-- The copies of a call stay in bounds. -/
def InBounds (q : CycleQueuePri) (op : Op) : Prop :=
  ∀ pos len, chunk q op = some (pos, len) → ChunkFits pos len q.size op.room

section Chunks

variable {pos len size : UInt32} {room : Nat}

/-- A chunk whose end index wraps is copied in one piece. -/
theorem splitCopies_of_wraps (hp : pos.toNat < size.toNat) (hl : len.toNat < size.toNat)
    (hw : 2 ^ 32 ≤ pos.toNat + len.toNat) :
    splitCopies pos len size = [⟨pos.toNat, 0, len.toNat⟩] := by
  have hs := size.toNat_lt
  rw [splitCopies, if_pos]
  rw [UInt32.le_iff_toNat_le, UInt32.toNat_add, last_toNat (Nat.zero_lt_of_lt hp)]
  omega

theorem chunkFits_iff (hp : pos.toNat < size.toNat) (hl : len.toNat < size.toNat)
    (hr : len.toNat ≤ room) :
    ChunkFits pos len size room ↔ pos.toNat + len.toNat < 2 ^ 32 := by
  have hs := size.toNat_lt
  constructor
  · intro h
    by_contra hw
    -- the one copy starts at `pos` and ends beyond every `uint32_t`
    have hcell := h.cells ⟨pos.toNat, 0, len.toNat⟩
      (by rw [splitCopies_of_wraps hp hl (by omega)]; exact List.mem_singleton_self _)
    simp only at hcell
    omega
  · intro hw
    have hlengths : ¬ pos + len ≤ size - 1 → pos ≤ size - 1 ∧ size - 1 - pos ≤ len := by
      simp only [UInt32.le_iff_toNat_le, UInt32.toNat_add, part_toNat hp,
        last_toNat (Nat.zero_lt_of_lt hp)]
      omega
    have hpos : 1 ≤ size := UInt32.le_iff_toNat_le.mpr (Nat.zero_lt_of_lt hp)
    obtain ⟨h, hc⟩ | ⟨h, hc⟩ := splitCopies_cases hp hw
    · refine ⟨?_, ?_, hpos, hlengths⟩
      · simp only [hc, List.forall_mem_singleton]
        omega
      · simp only [hc, List.forall_mem_singleton]
        omega
    · refine ⟨?_, ?_, hpos, hlengths⟩
      · simp only [hc, List.forall_mem_cons, List.not_mem_nil, false_imp_iff, implies_true,
          and_true]
        omega
      · simp only [hc, List.forall_mem_cons, List.not_mem_nil, false_imp_iff, implies_true,
          and_true]
        omega

end Chunks

theorem inBounds_of_none {q : CycleQueuePri} {op : Op} (h : chunk q op = none) :
    InBounds q op := by
  intro pos len hc
  rw [h] at hc
  cases hc

theorem inBounds_of_some {q : CycleQueuePri} {op : Op} {pos len : UInt32}
    (h : chunk q op = some (pos, len)) :
    InBounds q op ↔ ChunkFits pos len q.size op.room := by
  refine ⟨fun hb => hb pos len h, fun hf pos' len' h' => ?_⟩
  rw [h] at h'
  cases h'
  exact hf

/-- A call stays in bounds exactly when the end index of its chunk fits in `uint32_t`. -/
theorem inBounds_iff_endFits {s : Session} (h : Indexed s.queue) (op : Op) :
    InBounds s.queue op ↔ EndFits s op := by
  have hu := used_lt h
  cases op with
  | write data len =>
    have hf := getFreeSize_toNat h
    by_cases hl : cycleQueueGetFreeSize s.queue < len
    · -- refused: nothing is copied
      have hc : chunk s.queue (.write data len) = none := if_pos hl
      rw [UInt32.lt_iff_toNat_lt] at hl
      refine iff_of_true (inBounds_of_none hc) ?_
      simp only [EndFits]
      omega
    · have hc : chunk s.queue (.write data len) = some (s.queue.head, len) := if_neg hl
      rw [UInt32.lt_iff_toNat_lt] at hl
      have hlt : len.toNat < s.queue.size.toNat := by omega
      rw [inBounds_of_some hc, Op.room, chunkFits_iff h.1 hlt (Nat.le_refl _)]
      simp only [EndFits]
      omega
  | read out n =>
    have hd := getDataSize_toNat h
    have hlen := readLen_toNat h n
    have ht := s.queue.tail.toNat_lt
    simp only [EndFits, hd, ← hlen]
    by_cases hn : n = 0
    · have hc : chunk s.queue (.read out n) = none := if_pos hn
      have hz : readLen s.queue n = 0 := by
        rw [← UInt32.toNat_inj, hlen, hn]
        exact Nat.zero_min _
      exact iff_of_true (inBounds_of_none hc) (by simpa [hz] using ht)
    · by_cases hz : cycleQueueGetDataSize s.queue = 0
      · have hc : chunk s.queue (.read out n) = none := by
          simp only [chunk, if_neg hn, if_pos hz]
        have hl0 : readLen s.queue n = 0 := by
          rw [← UInt32.toNat_inj, hlen, ← hd, hz]
          exact Nat.min_zero _
        exact iff_of_true (inBounds_of_none hc) (by simpa [hl0] using ht)
      · have hc : chunk s.queue (.read out n) = some (s.queue.tail, readLen s.queue n) := by
          simp only [chunk, if_neg hn, if_neg hz]
        rw [inBounds_of_some hc, Op.room]
        exact chunkFits_iff h.2 (by omega) (by omega)

/-- Filling an empty queue whose indices are at 0. -/
theorem exec_fill {size : UInt32} (hsize : 1 < size.toNat) {s : Session} (hs : s.queue.size = size)
    (hh : s.queue.head = 0) (ht : s.queue.tail = 0) (data : Bytes) :
    (exec s (.write data (size - 1))).queue.size = size ∧
      (exec s (.write data (size - 1))).queue.head = size - 1 ∧
      (exec s (.write data (size - 1))).queue.tail = 0 := by
  have hlen := last_toNat (Nat.zero_lt_of_lt hsize)
  have hi : Indexed s.queue := by
    rw [Indexed, hs, hh, ht, UInt32.toNat_zero]
    omega
  have hu : used s.queue = 0 := by simp [used, hh, ht]
  obtain ⟨-, hw⟩ | ⟨hfull, -⟩ := write_cases hi data (size - 1)
  · simp only [exec, hw]
    refine ⟨hs, ?_, ht⟩
    rw [hh, hs, ← UInt32.toNat_inj, UInt32.zero_add, UInt32.toNat_mod, hlen]
    exact Nat.mod_eq_of_lt (by omega)
  · rw [hu, hs] at hfull
    omega

/-- Emptying a full queue whose `tail` is at 0. -/
theorem exec_drain {size : UInt32} (hsize : 1 < size.toNat) {s : Session} (hs : s.queue.size = size)
    (hh : s.queue.head = size - 1) (ht : s.queue.tail = 0) (out : Bytes) :
    (exec s (.read out (size - 1))).queue.size = size ∧
      (exec s (.read out (size - 1))).queue.head = size - 1 ∧
      (exec s (.read out (size - 1))).queue.tail = size - 1 := by
  have hlen := last_toNat (Nat.zero_lt_of_lt hsize)
  have hi : Indexed s.queue := by
    rw [Indexed, hs, hh, ht, UInt32.toNat_zero]
    omega
  have hu : used s.queue = size.toNat - 1 := by simp [used, hh, ht, hlen]
  obtain ⟨hz, -⟩ | ⟨-, hz, -⟩ | ⟨-, -, hr⟩ := read_cases hi out (size - 1)
  · rw [← UInt32.toNat_inj, hlen, UInt32.toNat_zero] at hz
    omega
  · omega
  · simp only [exec, hr]
    refine ⟨hs, hh, ?_⟩
    rw [ht, hs, ← UInt32.toNat_inj, UInt32.zero_add, UInt32.toNat_mod, readLen_toNat hi, hu, hlen,
      Nat.min_self]
    exact Nat.mod_eq_of_lt (by omega)

/-- A queue of more than one cell can be empty with both indices at the last cell: everything
that fits was written and read back. -/
theorem reachable_last (size : UInt32) (hsize : 1 < size.toNat) :
    ∃ s, (sessions size).Reachable s ∧ s.queue.size = size ∧ s.queue.head = size - 1 ∧
      s.queue.tail = size - 1 := by
  have hcreate : cycleQueueCreate size true true = some ⟨0, 0, size, fun _ => 0⟩ := by
    rw [cycleQueueCreate, if_pos (UInt32.lt_iff_toNat_lt.mpr (Nat.lt_trans Nat.one_pos hsize))]
    rfl
  have h0 : (sessions size).Reachable (newSession ⟨0, 0, size, fun _ => 0⟩) :=
    .init ⟨_, hcreate, rfl⟩
  have hr := h0.run (exec_step size)
    [.write (fun _ => 0) (size - 1), .read (fun _ => 0) (size - 1)]
  obtain ⟨hs1, hh1, ht1⟩ := exec_fill hsize (s := newSession ⟨0, 0, size, fun _ => 0⟩) rfl rfl rfl
    (fun _ => 0)
  exact ⟨_, hr, exec_drain hsize hs1 hh1 ht1 (fun _ => 0)⟩

/-- From there the same write again starts at the last cell, and beyond `2 ^ 31` cells its end
index wraps. -/
theorem exists_overrun (size : UInt32) (hsize : 2 ^ 31 < size.toNat) (data : Bytes) :
    ∃ s, (sessions size).Reachable s ∧
      copies s.queue (.write data (size - 1)) = [⟨size.toNat - 1, 0, size.toNat - 1⟩] ∧
      ¬ InBounds s.queue (.write data (size - 1)) := by
  have hlen := last_toNat (Nat.zero_lt_of_lt hsize)
  obtain ⟨s, hr, hs, hh, ht⟩ := reachable_last size (by omega)
  have hi : Indexed s.queue := by
    rw [Indexed, hs, hh, ht, hlen]
    omega
  have hu : used s.queue = 0 := by simp [used, hh, ht]
  have hfree : ¬ cycleQueueGetFreeSize s.queue < size - 1 := by
    rw [UInt32.lt_iff_toNat_lt, getFreeSize_toNat hi, hu, hs, hlen]
    omega
  refine ⟨s, hr, ?_, ?_⟩
  · simp only [copies, chunk, if_neg hfree, hs, hh]
    rw [splitCopies_of_wraps (by omega) (by omega) (by omega), hlen]
  · rw [inBounds_iff_endFits hi]
    simp only [EndFits, getFreeSize_toNat hi, hu, hs, hh, hlen]
    omega

/-- On a queue of at most `2 ^ 31` cells, and on no larger one, every call of every run keeps
its copies in bounds. On a larger queue a call does so, as long as all calls before it did,
exactly when the end index of its chunk fits in `uint32_t`. -/
theorem copies_inBounds_iff (size : UInt32) :
    ((∀ s, (sessions size).Reachable s → ∀ op, InBounds s.queue op) ↔ size.toNat ≤ 2 ^ 31) ∧
      ∀ s, (sessions size).ReachableUnder (fun s op => InBounds s.queue op) s →
        ∀ op, InBounds s.queue op ↔ EndFits s op := by
  refine ⟨⟨?_, ?_⟩, ?_⟩
  · intro h
    by_contra hsize
    obtain ⟨s, hr, -, hno⟩ := exists_overrun size (Nat.lt_of_not_le hsize) fun _ => 0
    exact hno (h s hr _)
  · intro hsize s hr op
    have hc := counted_reachable hsize hr
    exact (inBounds_iff_endFits hc.indexed op).mpr (endFits_of_size_le hsize hc op)
  · intro s hr op
    have hc : Counted size s := by
      refine hr.invariant (fun _ => counted_init) ?_
      rintro s op _ hc hb rfl
      exact counted_exec hc op ((inBounds_iff_endFits hc.indexed op).mp hb)
    exact inBounds_iff_endFits hc.indexed op

/-- In the smallest queue that is too large the third call copies `2 ^ 31` bytes to the last
cell, all but one of them past the end of the buffer. -/
theorem copies_overrun : ∃ s, (sessions 2147483649).Reachable s ∧
    copies s.queue (.write (fun _ => 0) 2147483648) = [⟨2147483648, 0, 2147483648⟩] ∧
    ¬ InBounds s.queue (.write (fun _ => 0) 2147483648) :=
  exists_overrun 2147483649 (by decide) fun _ => 0

end BaseCode.CycleQueue
