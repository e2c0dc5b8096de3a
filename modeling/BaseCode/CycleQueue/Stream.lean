import BaseCode.CycleQueue.Counters
import Mathlib.Data.List.Range

/-!
# The queue as a byte stream

A chunk that reaches the end of the buffer is cut at `size - 1`, one cell too early: its
second part starts in cell 0 with the byte that belongs in the last cell. `slot` is the
cell that the two copies give to the byte `j` cells on from index 0. The shift is harmless
as long as a chunk that was written across the end is read back, from that point on, by
one read and before the next write; `WrapSafe` says this of the indices alone. Under it
the queue is a first-in-first-out byte stream.
-/

namespace BaseCode.CycleQueue
open Foundation

/-- The cell in which `splitCopies` puts the byte `j`, counted from index 0 of the round
in which the chunk starts. -/
def slot (size j : Nat) : Nat := if j < size - 1 then j else j - (size - 1)

section Copies

variable {pos len size : UInt32}

/-- The index of the last cell. -/
theorem last_toNat (h : 0 < size.toNat) : (size - 1).toNat = size.toNat - 1 :=
  UInt32.toNat_sub_of_le _ _ (UInt32.le_iff_toNat_le.mpr h)

/-- The number of cells from an index up to the last cell. -/
theorem part_toNat (hp : pos.toNat < size.toNat) :
    (size - 1 - pos).toNat = size.toNat - 1 - pos.toNat := by
  have hlast := last_toNat (Nat.zero_lt_of_lt hp)
  rw [UInt32.toNat_sub_of_le _ _ (UInt32.le_iff_toNat_le.mpr (by omega)), hlast]

/-- The two ways a chunk is cut, in natural numbers. -/
theorem splitCopies_cases (hp : pos.toNat < size.toNat)
    (hw : pos.toNat + len.toNat < 2 ^ 32) :
    (pos.toNat + len.toNat ≤ size.toNat - 1 ∧
      splitCopies pos len size = [⟨pos.toNat, 0, len.toNat⟩]) ∨
    (size.toNat - 1 < pos.toNat + len.toNat ∧ splitCopies pos len size =
      [⟨pos.toNat, 0, size.toNat - 1 - pos.toNat⟩,
        ⟨0, size.toNat - 1 - pos.toNat, len.toNat - (size.toNat - 1 - pos.toNat)⟩]) := by
  have hs := size.toNat_lt
  have hsize := last_toNat (Nat.zero_lt_of_lt hp)
  have hpart := part_toNat hp
  have hend : (pos + len).toNat = pos.toNat + len.toNat := by
    rw [UInt32.toNat_add, Nat.mod_eq_of_lt hw]
  -- nothing wraps in these differences, so they are the ones of natural numbers
  simp only [splitCopies, UInt32.le_iff_toNat_le, hend, hsize, hpart]
  by_cases h : pos.toNat + len.toNat ≤ size.toNat - 1
  · exact .inl ⟨h, if_pos h⟩
  · have hrest : (len - (size - 1 - pos)).toNat =
        len.toNat - (size.toNat - 1 - pos.toNat) := by
      rw [UInt32.toNat_sub, hpart]
      omega
    exact .inr ⟨by omega, by rw [if_neg h, hrest]⟩

/-- Byte `j` of a written chunk lands in its slot. -/
theorem copyIn_slot (hp : pos.toNat < size.toNat) (hl : len.toNat ≤ size.toNat - 1)
    (hw : pos.toNat + len.toNat < 2 ^ 32) (data buf : Bytes) {j : Nat} (hj : j < len.toNat) :
    (splitCopies pos len size).foldl (copyIn data) buf (slot size.toNat (pos.toNat + j)) =
      data j := by
  obtain ⟨h, hc⟩ | ⟨h, hc⟩ := splitCopies_cases hp hw
  · rw [hc]
    have hs : slot size.toNat (pos.toNat + j) = pos.toNat + j := if_pos (by omega)
    simp [copyIn, memcpy, hs, hj]
  · rw [hc]
    by_cases hb : pos.toNat + j < size.toNat - 1
    · -- the second copy starts at cell 0 and does not reach this one
      have hs : slot size.toNat (pos.toNat + j) = pos.toNat + j := if_pos hb
      simp only [List.foldl_cons, List.foldl_nil, copyIn, memcpy, hs]
      rw [if_neg (by omega), if_pos (by omega)]
      congr 1
      omega
    · have hs : slot size.toNat (pos.toNat + j) = pos.toNat + j - (size.toNat - 1) := if_neg hb
      simp only [List.foldl_cons, List.foldl_nil, copyIn, memcpy, hs]
      rw [if_pos (by omega)]
      congr 1
      omega

/-- Cells that are no slot of the chunk keep their byte. -/
theorem copyIn_frame (hp : pos.toNat < size.toNat) (hw : pos.toNat + len.toNat < 2 ^ 32)
    (data buf : Bytes) {c : Nat}
    (hc : ∀ j, j < len.toNat → c ≠ slot size.toNat (pos.toNat + j)) :
    (splitCopies pos len size).foldl (copyIn data) buf c = buf c := by
  obtain ⟨h, hs⟩ | ⟨h, hs⟩ := splitCopies_cases hp hw
  · rw [hs]
    simp only [List.foldl_cons, List.foldl_nil, copyIn, memcpy]
    rw [if_neg]
    intro hin
    have hj := hc (c - pos.toNat) (by omega)
    simp only [slot] at hj
    split at hj <;> omega
  · rw [hs]
    simp only [List.foldl_cons, List.foldl_nil, copyIn, memcpy]
    rw [if_neg, if_neg]
    · intro hin
      have hj := hc (c - pos.toNat) (by omega)
      simp only [slot] at hj
      split at hj <;> omega
    · intro hin
      have hj := hc (size.toNat - 1 - pos.toNat + c) (by omega)
      simp only [slot] at hj
      split at hj <;> omega

/-- Byte `j` of a read chunk is taken from its slot. -/
theorem copyOut_slot (hp : pos.toNat < size.toNat) (hw : pos.toNat + len.toNat < 2 ^ 32)
    (buf out : Bytes) {j : Nat} (hj : j < len.toNat) :
    (splitCopies pos len size).foldl (copyOut buf) out j =
      buf (slot size.toNat (pos.toNat + j)) := by
  obtain ⟨h, hc⟩ | ⟨h, hc⟩ := splitCopies_cases hp hw
  · rw [hc]
    have hs : slot size.toNat (pos.toNat + j) = pos.toNat + j := if_pos (by omega)
    simp [copyOut, memcpy, hs, hj]
  · rw [hc]
    simp only [List.foldl_cons, List.foldl_nil, copyOut, memcpy]
    by_cases hb : pos.toNat + j < size.toNat - 1
    · have hs : slot size.toNat (pos.toNat + j) = pos.toNat + j := if_pos hb
      rw [if_neg (by omega), if_pos (by omega), hs]
      congr 1
    · have hs : slot size.toNat (pos.toNat + j) = pos.toNat + j - (size.toNat - 1) := if_neg hb
      rw [if_pos (by omega), hs]
      congr 1
      omega

end Copies

/-- The bytes a reader of everything would get now. -/
def queued (q : CycleQueuePri) : List UInt8 :=
  (List.range (used q)).map fun i => q.buf (slot q.size.toNat (q.tail.toNat + i))

/-- The shifted cells do no harm in this call: a non-empty accepted write finds the queued
bytes in one stretch, and a read stays below the last cell or takes everything. -/
def WrapSafe (s : Session) : Op → Prop
  | .write _ len => len.toNat ≤ (cycleQueueGetFreeSize s.queue).toNat →
      len = 0 ∨ s.queue.tail.toNat ≤ s.queue.head.toNat
  | .read _ n => s.queue.tail.toNat + n.toNat ≤ s.queue.size.toNat - 1 ∨
      (cycleQueueGetDataSize s.queue).toNat ≤ n.toNat

def CopySafe (s : Session) (op : Op) : Prop := EndFits s op ∧ WrapSafe s op

instance (s : Session) : (op : Op) → Decidable (WrapSafe s op)
  | .write _ _ => inferInstanceAs (Decidable (_ → _ ∨ _))
  | .read _ _ => inferInstanceAs (Decidable (_ ∨ _))

instance (s : Session) (op : Op) : Decidable (CopySafe s op) :=
  inferInstanceAs (Decidable (EndFits s op ∧ WrapSafe s op))

/-- What a safe write does to the queued bytes: the chunk is appended. -/
theorem queued_write {q : CycleQueuePri} (h : Indexed q) {len : UInt32} (data : Bytes)
    (hl : len.toNat ≤ q.size.toNat - 1 - used q) (hw : q.head.toNat + len.toNat < 2 ^ 32)
    (hsafe : len = 0 ∨ q.tail.toNat ≤ q.head.toNat) :
    queued { q with
        buf := (splitCopies q.head len q.size).foldl (copyIn data) q.buf
        head := (q.head + len) % q.size } =
      queued q ++ takeBytes data len.toNat := by
  have hu := (write_indexed h
    ((splitCopies q.head len q.size).foldl (copyIn data) q.buf) hl hw).2
  have hlt := used_lt h
  obtain ⟨hh, ht⟩ := h
  apply List.ext_getElem
  · simp [queued, hu]
  · intro i hi _
    simp only [queued, hu, List.length_map, List.length_range] at hi
    simp only [queued, takeBytes, List.getElem_map, List.getElem_range, List.getElem_append,
      List.length_map, List.length_range]
    -- an old byte is in no slot of the chunk, a new byte is in its own
    split
    · next hold =>
      apply copyIn_frame hh hw
      intro j hj
      rcases hsafe with rfl | hsafe
      · exact absurd hj (Nat.not_lt_zero j)
      · have hus : used q = q.head.toNat - q.tail.toNat := if_pos hsafe
        simp only [slot]
        split <;> split <;> omega
    · next hnew =>
      have hj : i - used q < len.toNat := by omega
      have hpos : q.tail.toNat ≤ q.head.toNat := by
        rcases hsafe with rfl | hsafe
        · exact absurd hj (Nat.not_lt_zero _)
        · exact hsafe
      have hus : used q = q.head.toNat - q.tail.toNat := if_pos hpos
      have he : q.tail.toNat + i = q.head.toNat + (i - used q) := by omega
      rw [he]
      exact copyIn_slot hh (by omega) hw data q.buf hj

/-- A read delivers the front of the queued bytes, whatever the indices are. -/
theorem read_delivers {q : CycleQueuePri} (h : Indexed q) {len : UInt32} (out : Bytes)
    (hl : len.toNat ≤ used q) (hw : q.tail.toNat + len.toNat < 2 ^ 32) :
    takeBytes ((splitCopies q.tail len q.size).foldl (copyOut q.buf) out) len.toNat =
      (queued q).take len.toNat := by
  apply List.ext_getElem
  · simp only [takeBytes_length, queued, List.length_take, List.length_map, List.length_range]
    omega
  · intro j hj _
    simp only [takeBytes_length] at hj
    simp only [takeBytes, queued, List.getElem_map, List.getElem_range, List.getElem_take]
    exact copyOut_slot h.2 hw q.buf out hj

/-- A safe read leaves the rest of the queued bytes. -/
theorem queued_read {q : CycleQueuePri} (h : Indexed q) {len : UInt32}
    (hl : len.toNat ≤ used q) (hw : q.tail.toNat + len.toNat < 2 ^ 32)
    (hsafe : q.tail.toNat + len.toNat ≤ q.size.toNat - 1 ∨ used q ≤ len.toNat) :
    queued { q with tail := (q.tail + len) % q.size } = (queued q).drop len.toNat := by
  have hu := (read_indexed h hl hw).2
  have hlt := used_lt h
  obtain ⟨hh, ht⟩ := h
  apply List.ext_getElem
  · simp only [queued, List.length_map, List.length_range, List.length_drop]
    omega
  · intro i hi _
    simp only [queued, List.length_map, List.length_range] at hi
    simp only [queued, List.getElem_map, List.getElem_range, List.getElem_drop]
    have ha := advance_toNat ht (by omega : len.toNat < q.size.toNat) hw
    rcases hsafe with hsafe | hsafe
    · rw [ha, if_pos (by omega)]
      congr 2
      omega
    · -- everything was read, so there is no byte `i`
      omega

/-- The accepted bytes are the delivered ones followed by those still queued. -/
structure Streamed (size : UInt32) (s : Session) : Prop where
  counted : Counted size s
  stream : s.accepted = s.delivered ++ queued s.queue

theorem streamed_init {size : UInt32} {s : Session} (h : (sessions size).Init s) :
    Streamed size s := by
  refine ⟨counted_init h, ?_⟩
  obtain ⟨q, hq, rfl⟩ := h
  obtain ⟨-, rfl⟩ := create_eq hq
  simp [newSession, queued, used]

theorem streamed_exec {size : UInt32} {s : Session} (h : Streamed size s) (op : Op)
    (hsafe : CopySafe s op) : Streamed size (exec s op) := by
  obtain ⟨hc, hst⟩ := h
  refine ⟨counted_exec hc op hsafe.1, ?_⟩
  obtain ⟨hfit, hwrap⟩ := hsafe
  have hi := hc.indexed
  cases op with
  | write data len =>
    simp only [EndFits, WrapSafe, getFreeSize_toNat hi] at hfit hwrap
    obtain ⟨hl, hw⟩ | ⟨hl, hw⟩ := write_cases hi data len
    · simp only [exec, hw, if_true]
      rw [queued_write hi data hl (hfit hl) (hwrap hl), hst, List.append_assoc]
    · simpa [exec, hw] using hst
  | read out n =>
    simp only [EndFits, getDataSize_toNat hi, ← readLen_toNat hi] at hfit
    simp only [WrapSafe, getDataSize_toNat hi] at hwrap
    have hlen := readLen_toNat hi n
    obtain ⟨-, hr⟩ | ⟨-, -, hr⟩ | ⟨-, -, hr⟩ := read_cases hi out n
    · simpa [exec, hr, readBytes] using hst
    · simpa [exec, hr, readBytes, takeBytes] using hst
    · simp only [exec, hr, readBytes]
      rw [queued_read hi (by omega) hfit (by omega), read_delivers hi out (by omega) hfit,
        List.append_assoc, List.take_append_drop]
      exact hst

theorem streamed_reachable {size : UInt32} {s : Session}
    (h : (sessions size).ReachableUnder CopySafe s) : Streamed size s := by
  refine h.invariant (fun _ => streamed_init) ?_
  rintro s op _ hs hok rfl
  exact streamed_exec hs op hok

/-- In every run whose calls are all copy safe, the delivered bytes are a prefix of the
accepted ones. -/
theorem delivered_isPrefix_accepted {size : UInt32} {s : Session}
    (h : (sessions size).ReachableUnder CopySafe s) : s.delivered <+: s.accepted :=
  ⟨queued s.queue, (streamed_reachable h).stream.symm⟩

/-- A round in four cells: the second chunk is written and read back across the end. -/
theorem delivered_isPrefix_accepted_round : ∃ s, (sessions 4).ReachableUnder CopySafe s ∧
    s.queue.head = 0 ∧ s.delivered = [1, 2, 3, 4] ∧ s.delivered <+: s.accepted := by
  have h0 : (sessions 4).ReachableUnder CopySafe (newSession ⟨0, 0, 4, fun _ => 0⟩) :=
    .init ⟨_, rfl, rfl⟩
  have h := h0.run (exec_step 4) [.write (fun i => UInt8.ofNat (i + 1)) 2, .read (fun _ => 0) 4,
    .write (fun i => UInt8.ofNat (i + 3)) 2, .read (fun _ => 0) 4] (by decide)
  exact ⟨_, h, by decide, by decide, delivered_isPrefix_accepted h⟩

/-- In four cells the byte 4, written across the end, is overwritten by the next write:
the reader gets 1, 2, 3, 5, 2 for the accepted 1, 2, 3, 4, 5. -/
theorem delivered_not_isPrefix : ∃ s, (sessions 4).Reachable s ∧
    s.accepted = [1, 2, 3, 4, 5] ∧ s.delivered = [1, 2, 3, 5, 2] ∧
    ¬ s.delivered <+: s.accepted := by
  have h0 : (sessions 4).Reachable (newSession ⟨0, 0, 4, fun _ => 0⟩) := .init ⟨_, rfl, rfl⟩
  have h := h0.run (exec_step 4) [.write (fun i => UInt8.ofNat (i + 1)) 2, .read (fun _ => 0) 4,
    .write (fun i => UInt8.ofNat (i + 3)) 2, .write (fun _ => 5) 1, .read (fun _ => 0) 4]
  exact ⟨_, h, by decide, by decide, by decide⟩

end BaseCode.CycleQueue
