import BaseCode.Epoll.TimerStart

/-!
# The delay that `base_timer_start` programs

`timerfd_settime` is given an absolute time. Its seconds are counted from the clock, but the
nanoseconds the clock has reached are left out and nothing is carried: a timer expires early
by the part of the second that has passed at the call, and a millisecond argument of 1000 or
more makes a `tv_nsec` that no `timespec` may have.
-/

namespace BaseCode.Epoll
open Foundation Comm

/-- The time in nanoseconds. -/
def Timespec.nanos (t : Timespec) : Int := t.sec * 1000000000 + t.nsec

/-- A time of `CLOCK_MONOTONIC`, and what `tv_nsec` has to be in every `timespec`. -/
def Timespec.Proper (t : Timespec) : Prop := 0 ≤ t.nsec ∧ t.nsec < 1000000000

namespace TimerArgs

/-- The delay asked for, in nanoseconds. -/
def delay (a : TimerArgs) : Int := a.valueS * 1000000000 + a.valueMs * 1000000

/-- The period asked for, in nanoseconds. -/
def period (a : TimerArgs) : Int := a.intervalS * 1000000000 + a.intervalMs * 1000000

/-- The arguments that the function is meant to get. -/
structure Nonneg (a : TimerArgs) : Prop where
  valueS : 0 ≤ a.valueS
  valueMs : 0 ≤ a.valueMs
  intervalS : 0 ≤ a.intervalS
  intervalMs : 0 ≤ a.intervalMs

end TimerArgs

/-- The setting is proper and is the one asked for at time `nw`: a first expiry after the
delay, which is later than now if there is a delay at all, and the period. -/
structure Programs (nw : Timespec) (a : TimerArgs) (its : Itimerspec) : Prop where
  value : its.value.Proper
  interval : its.interval.Proper
  expiry : its.value.nanos = nw.nanos + a.delay
  later : 0 < a.delay → nw.nanos < its.value.nanos
  period : its.interval.nanos = a.period

variable {s : Sys Int} {o : TimerOutcome} {a : TimerArgs} {its : Itimerspec} {nw : Timespec}

/-- An `int` product is off by a multiple of `2 ^ 32`. -/
theorem exists_int32_eq (v : Int) : ∃ k : Int, int32 v = v + 4294967296 * k := by
  have h : int32 v + 4294967296 * v.bdiv (2 ^ 32) = v := Int.bmod_add_bdiv v (2 ^ 32)
  exact ⟨-(v.bdiv (2 ^ 32)), by omega⟩

theorem int32_of_lt {v : Int} (h0 : 0 ≤ v) (h : v < 2147483648) : int32 v = v :=
  Int.bmod_eq_of_le (by omega) (by omega)

/-- The milliseconds of an argument come out right exactly below one second. -/
theorem int32_millis_iff {ms : Int} (h0 : 0 ≤ ms) :
    0 ≤ int32 (ms * 1000000) ∧ int32 (ms * 1000000) < 1000000000 ∧
      int32 (ms * 1000000) = ms * 1000000 ↔ ms < 1000 := by
  constructor
  · rintro ⟨-, hlt, heq⟩
    omega
  · intro h
    rw [int32_of_lt (by omega) (by omega)]
    omega

/-- The first expiry counts the delay from the last full second of the clock. -/
theorem expiry_early (h0 : 0 ≤ a.valueMs) (h : a.valueMs < 1000) :
    (timerSpec nw a).value.nanos = nw.nanos + a.delay - nw.nsec := by
  simp only [timerSpec, Timespec.nanos, TimerArgs.delay]
  rw [int32_of_lt (by omega) (by omega)]
  omega

/-- What is left with the kernel by a call that sets the timer. -/
theorem timers_baseTimerStart (h : o.setting a = some its) :
    (s.baseTimerStart o a).sys.kernel.timers a.tfd =
      if Kernel.Arms its then some its else none := by
  have hkernel : (s.baseTimerStart o a).sys.kernel.timers =
      (s.kernel.setTimer a.tfd its).timers := by
    by_cases hroom : a.data ≠ none ∧ 4 ≤ a.len
    · have hctl : Sys.SameRegistry (timerSet s a its) ((timerSet s a its).epollCtl o.ctl a.eplfd
          .add a.tfd (.own (Sys.timerEvent a (copyPtr s a)))).2 := Sys.sameRegistry_ctl
      rw [start_of_room h hroom, Sys.timerExit]
      split
      · exact hctl.timers
      · rw [Sys.freeData_kernel]
        exact hctl.timers
    · rw [start_of_noRoom h hroom]
      rfl
  rw [hkernel]
  exact Kernel.setTimer_timers

/-- A timer armed with less than 1000 milliseconds is left with the kernel to expire too early,
by what the clock shows beyond its last full second. -/
theorem started_early (h : o.setting a = some its) (harms : Kernel.Arms its)
    (h0 : 0 ≤ a.valueMs) (h1 : a.valueMs < 1000) :
    ∃ nw, o.clock = some nw ∧ (s.baseTimerStart o a).sys.kernel.timers a.tfd = some its ∧
      its.value.nanos = nw.nanos + a.delay - nw.nsec := by
  obtain ⟨nw, hclock, -, rfl⟩ := setting_eq_some h
  refine ⟨nw, hclock, ?_, expiry_early h0 h1⟩
  rw [timers_baseTimerStart h, if_pos harms]

/-- The setting is the one asked for exactly when the call falls on a full second and both
millisecond arguments are below 1000. -/
theorem timerSpec_programs_iff (hnw : nw.Proper) (ha : a.Nonneg) :
    Programs nw a (timerSpec nw a) ↔
      nw.nsec = 0 ∧ a.valueMs < 1000 ∧ a.intervalMs < 1000 := by
  obtain ⟨h0, h1⟩ := hnw
  constructor
  · rintro ⟨⟨hv0, hv1⟩, hi, hexp, -, hper⟩
    have hvalue : int32 (a.valueMs * 1000000) = nw.nsec + a.valueMs * 1000000 := by
      simp only [timerSpec, Timespec.nanos, TimerArgs.delay] at hexp
      omega
    have hinterval : int32 (a.intervalMs * 1000000) = a.intervalMs * 1000000 := by
      simp only [timerSpec, Timespec.nanos, TimerArgs.period] at hper
      omega
    -- the clock's nanoseconds are the multiple of `2 ^ 32` that the product lost
    obtain ⟨k, hk⟩ := exists_int32_eq (a.valueMs * 1000000)
    have hnsec : nw.nsec = 0 := by omega
    refine ⟨hnsec, ?_, ?_⟩
    · simp only [timerSpec] at hv0 hv1
      exact (int32_millis_iff ha.valueMs).mp ⟨hv0, hv1, by omega⟩
    · exact (int32_millis_iff ha.intervalMs).mp ⟨hi.1, hi.2, hinterval⟩
  · rintro ⟨hnsec, hv, hi⟩
    obtain ⟨hv0, hv1, -⟩ := (int32_millis_iff ha.valueMs).mpr hv
    obtain ⟨hi0, hi1, hi2⟩ := (int32_millis_iff ha.intervalMs).mpr hi
    have hexp : (timerSpec nw a).value.nanos = nw.nanos + a.delay := by
      rw [expiry_early ha.valueMs hv]
      omega
    refine ⟨⟨hv0, hv1⟩, ⟨hi0, hi1⟩, hexp, ?_, ?_⟩
    · intro hpos
      omega
    · simp only [timerSpec, Timespec.nanos, TimerArgs.period]
      omega

/-- One second and a half, every 250 milliseconds, asked for on a full second. -/
theorem timerSpec_programs_fullSecond :
    Programs ⟨100, 0⟩ ⟨5, 7, 1, 500, 0, 250, 0, none, 0⟩ ⟨⟨101, 500000000⟩, ⟨0, 250000000⟩⟩ :=
  (timerSpec_programs_iff ⟨by decide, by decide⟩
    ⟨by decide, by decide, by decide, by decide⟩).mpr ⟨rfl, by decide, by decide⟩

/-- Half a second asked for at 100.75 seconds: the expiry is 100.5 seconds, in the past. -/
theorem timerSpec_expired : ¬ ∀ (nw : Timespec) (a : TimerArgs), nw.Proper → a.Nonneg →
    Programs nw a (timerSpec nw a) := by
  intro h
  have hlater := (h ⟨100, 750000000⟩ ⟨5, 7, 0, 500, 0, 0, 0, none, 0⟩ ⟨by decide, by decide⟩
    ⟨by decide, by decide, by decide, by decide⟩).later (by decide)
  revert hlater
  decide

end BaseCode.Epoll
