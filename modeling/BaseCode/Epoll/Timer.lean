import Mathlib.Algebra.Group.Nat.Defs
import BaseCode.Epoll.Registry

/-!
# Timers on an epoll

`src/timer_posix.c`: `base_timer_start` copies the caller's data, arms the timer and registers
it with the copy attached; `base_timer_stop` undoes this. Writes through the copy pointer are
recorded with their length, and the call ends at the first one that leaves the copy: through a
null pointer it traps, and beyond the end nothing can be said of what comes after it.
-/

namespace BaseCode.Epoll
open Foundation Comm

/-- The value of a 32-bit `int`. -/
def int32 (v : Int) : Int := v.bmod (2 ^ 32)

structure TimerArgs where
  eplfd : Int
  tfd : Int
  valueS : Int
  valueMs : Int
  intervalS : Int
  intervalMs : Int
  callback : Nat
  /-- The bytes behind the caller's pointer, `none` for `NULL`. -/
  data : Option (Nat → UInt8)
  len : Nat

/-- The setting handed to `timerfd_settime` at time `nw`. -/
def timerSpec (nw : Timespec) (a : TimerArgs) : Itimerspec where
  value := ⟨nw.sec + a.valueS, int32 (a.valueMs * 1000000)⟩
  interval := ⟨a.intervalS, int32 (a.intervalMs * 1000000)⟩

/-- How the calls made by `base_timer_start` end; `clock` is the time `clock_gettime` gives. -/
structure TimerOutcome where
  mallocOk : Bool
  clock : Option Timespec
  settimeOk : Bool
  ctl : Sys.CtlOutcome

/-- A write through the copy pointer, `none` being `NULL`, from its first byte on. -/
structure CopyWrite where
  base : Option Nat
  count : Nat
  deriving DecidableEq, Repr

/-- A write that stays inside the `len` bytes allocated for the copy. -/
def CopyWrite.InBounds (w : CopyWrite) (len : Nat) : Prop :=
  w.count = 0 ∨ w.base ≠ none ∧ w.count ≤ len

instance (w : CopyWrite) (len : Nat) : Decidable (w.InBounds len) :=
  inferInstanceAs (Decidable (_ ∨ _))

/-- The end of a call; `ret` is `none` if it came to a write outside the copy. -/
structure TimerResult where
  ret : Option Int
  writes : List CopyWrite
  sys : Sys Int

/-- The bytes that `memcpy` leaves behind the copy pointer. -/
def TimerArgs.bytes (a : TimerArgs) : Option (List UInt8) := a.data.map (List.range a.len).map

namespace Sys

def copyData (s : Sys Int) (pdata : Option Nat) (a : TimerArgs) : Sys Int :=
  match pdata, a.bytes with
  | some c, some bytes => { s with datas := s.datas.set c bytes }
  | _, _ => s

/-- `sizeof(len)`, the length that `memset` is given. -/
def sizeofLen : Nat := 4

/-- The control block that `base_timer_start` registers. -/
def timerEvent (a : TimerArgs) (pdata : Option Nat) : EpollEvent :=
  ⟨a.eplfd, a.tfd, a.callback, pdata.map .copy, a.len⟩

/-- The `exit` label of `base_timer_start`; every error it is reached with is `-1`. -/
def timerExit (pdata : Option Nat) (writes : List CopyWrite) (r : Int × Sys Int) : TimerResult :=
  if r.1 = 0 then ⟨some 0, writes, r.2⟩
  else ⟨some (-1), writes, r.2.freeData (pdata.map .copy)⟩

theorem timerExit_zero {pdata : Option Nat} {ws : List CopyWrite} {s : Sys Int} :
    timerExit pdata ws (0, s) = ⟨some 0, ws, s⟩ := rfl

theorem timerExit_minusOne {pdata : Option Nat} {ws : List CopyWrite} {s : Sys Int} :
    timerExit pdata ws (-1, s) = ⟨some (-1), ws, s.freeData (pdata.map .copy)⟩ := rfl

/-- The copy is cleared, filled and attached; `sizeof(len)` is what is cleared. -/
def attachTimer (s : Sys Int) (o : CtlOutcome) (a : TimerArgs) (pdata : Option Nat) :
    TimerResult :=
  let clear : CopyWrite := ⟨pdata, sizeofLen⟩
  if clear.InBounds a.len then
    let s := s.copyData pdata a
    timerExit pdata [clear, ⟨pdata, a.len⟩]
      (s.epollCtl o a.eplfd .add a.tfd (.own (timerEvent a pdata)))
  else ⟨none, [clear], s⟩

/-- `base_timer_start` once `pdata` is set. -/
def startTimer (s : Sys Int) (o : TimerOutcome) (a : TimerArgs) (pdata : Option Nat) :
    TimerResult :=
  match o.clock with
  | none => timerExit pdata [] (-1, s)
  | some nw =>
    match s.kernel.timerfdSettime a.tfd (timerSpec nw a) o.settimeOk with
    | none => timerExit pdata [] (-1, s)
    | some k => { s with kernel := k }.attachTimer o.ctl a pdata

def baseTimerStart (s : Sys Int) (o : TimerOutcome) (a : TimerArgs) : TimerResult :=
  if a.data.isSome && a.len != 0 then
    if o.mallocOk then
      { s with datas := s.datas.alloc (List.replicate a.len 0) }.startTimer o a
        (some s.datas.next)
    else ⟨some (-1), [], s⟩
  else s.startTimer o a none

/-- `base_timer_stop`; the results of `timerfd_settime` and `base_epoll_ctl` are not used, and
DEL does not look at the event. -/
def baseTimerStop (s : Sys Int) (settimeOk : Bool) (o : CtlOutcome) (eplfd tfd : Int) :
    Sys Int :=
  let s := { s with
    kernel := (s.kernel.timerfdSettime tfd ⟨⟨0, 0⟩, ⟨0, 0⟩⟩ settimeOk).getD s.kernel }
  (s.epollCtl o eplfd .del tfd (.own ⟨0, 0, 0, none, 0⟩)).2.safeClose tfd

end Sys

end BaseCode.Epoll
