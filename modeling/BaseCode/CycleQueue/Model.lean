import Mathlib.Algebra.Group.Nat.Defs
import Mathlib.Data.List.Basic

/-!
# The cycle queue

`src/data_struct/cycle_queue.c`: a byte queue in a buffer of `size` cells, with `head`
the next cell to write and `tail` the next cell to read. Index arithmetic is `uint32_t`
arithmetic. A byte array is the memory from its first byte on, so that a copy that runs
past the end of an array is visible as such.
-/

namespace BaseCode.CycleQueue

abbrev Bytes := Nat → UInt8

/-- `memcpy(&dst[off], src, len)` -/
def memcpy (dst : Bytes) (off : Nat) (src : Bytes) (len : Nat) : Bytes := fun i =>
  if off ≤ i ∧ i < off + len then src (i - off) else dst i

/-- The first `n` bytes of an array. -/
def takeBytes (b : Bytes) (n : Nat) : List UInt8 := (List.range n).map b

structure CycleQueuePri where
  head : UInt32
  tail : UInt32
  size : UInt32
  buf : Bytes

/-- `len` bytes moved between the cells from `cell` on and the caller's bytes from
`user` on. -/
structure Copy where
  cell : Nat
  user : Nat
  len : Nat
deriving DecidableEq, Repr

/-- The copies of a chunk of `len` bytes at index `pos`: one, or two where the chunk
reaches the end of the buffer. Writing and reading cut a chunk in the same way, the
first at `head` and the second at `tail`. -/
def splitCopies (pos len size : UInt32) : List Copy :=
  if pos + len ≤ size - 1 then [⟨pos.toNat, 0, len.toNat⟩]
  else
    let part1 := size - 1 - pos
    [⟨pos.toNat, 0, part1.toNat⟩, ⟨0, part1.toNat, (len - part1).toNat⟩]

def copyIn (data buf : Bytes) (c : Copy) : Bytes :=
  memcpy buf c.cell (fun i => data (c.user + i)) c.len

def copyOut (buf out : Bytes) (c : Copy) : Bytes :=
  memcpy out c.user (fun i => buf (c.cell + i)) c.len

/-- A queue is used through the methods it carries, so the `NULL` test on `thiz` never
fires. -/
def cycleQueueGetFreeSize (thiz : CycleQueuePri) : UInt32 :=
  if thiz.head = thiz.tail then thiz.size - 1
  else if thiz.tail < thiz.head then thiz.size - (thiz.head - thiz.tail) - 1
  else thiz.tail - thiz.head - 1

def cycleQueueGetDataSize (thiz : CycleQueuePri) : UInt32 :=
  if thiz.tail ≤ thiz.head then thiz.head - thiz.tail
  else thiz.size - thiz.tail + thiz.head

/-- The return value and the queue after the call; `data` is `none` for `NULL`. -/
def cycleQueueWrite (thiz : CycleQueuePri) (data : Option Bytes) (dataLen : UInt32) :
    Int × CycleQueuePri :=
  match data with
  | none => (-1, thiz)
  | some data =>
    if cycleQueueGetFreeSize thiz < dataLen then (-1, thiz)
    else (0, { thiz with
      buf := (splitCopies thiz.head dataLen thiz.size).foldl (copyIn data) thiz.buf
      head := (thiz.head + dataLen) % thiz.size })

/-- What a read leaves behind: its return value, the caller's buffer and length, and
the queue. -/
structure ReadResult where
  ret : Int
  buf : Option Bytes
  bufLen : Option UInt32
  thiz : CycleQueuePri

def cycleQueueRead (thiz : CycleQueuePri) (buf : Option Bytes) (bufLen : Option UInt32) :
    ReadResult :=
  match buf, bufLen with
  | some out, some n =>
    if n = 0 then ⟨-1, buf, bufLen, thiz⟩
    else
      let dataSize := cycleQueueGetDataSize thiz
      if dataSize = 0 then ⟨0, buf, some 0, thiz⟩
      else
        let readLen := if dataSize < n then dataSize else n
        ⟨0, some ((splitCopies thiz.tail readLen thiz.size).foldl (copyOut thiz.buf) out),
          some readLen, { thiz with tail := (thiz.tail + readLen) % thiz.size }⟩
  | _, _ => ⟨-1, buf, bufLen, thiz⟩

/-- Creation fails on size zero and on either of its two allocations; a new queue has a
zeroed buffer. -/
def cycleQueueCreate (size : UInt32) (thizOk bufOk : Bool) : Option CycleQueuePri :=
  if 0 < size then
    if thizOk then
      if bufOk then some ⟨0, 0, size, fun _ => 0⟩ else none
    else none
  else none

end BaseCode.CycleQueue
