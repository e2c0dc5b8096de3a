import BaseCode.Epoll.Ctl
import BaseCode.Epoll.Timer

/-!
# Does `base_timer_start` start the timer or leave no trace?

The copy is cleared with `sizeof(len)`, four bytes, whatever its length and even when there is
no copy, which ends the call; a timer that could not be registered stays armed; and
`base_epoll_ctl` returns 0 for an unknown epoll and for a failed table insertion.
`timerStart_iff` says exactly when the call escapes all of these.
-/

namespace BaseCode.Epoll
open Foundation Comm

/-- The block registered for the timer carries the callback, the length and a copy of the
bytes, or no copy where there are none to copy. -/
def Carries (s : Sys Int) (a : TimerArgs) (ev : EpollEvent) : Prop :=
  ev.callback = a.callback ∧ ev.len = a.len ∧
    if a.data.isSome && a.len != 0 then
      ∃ c, ev.data = some (.copy c) ∧ s.datas.cells c = a.bytes
    else ev.data = none

/-- The timer is registered on its epoll, in the kernel and in the event table. -/
def TimerRegistered (s : Sys Int) (a : TimerArgs) : Prop :=
  ∃ n p ev, s.findEpoll a.eplfd = some n ∧ s.kernel.interestOf a.eplfd a.tfd = some p ∧
    (s.table n.pEventHash).get a.tfd = some p ∧ s.blocks.cells p = some ev ∧ Carries s a ev

/-- The timer is on its epoll neither in the kernel nor in the event table. -/
def TimerAbsent (s : Sys Int) (a : TimerArgs) : Prop :=
  s.kernel.interestOf a.eplfd a.tfd = none ∧
    ∀ n, s.findEpoll a.eplfd = some n → (s.table n.pEventHash).get a.tfd = none

/-- The timer is armed, and by the call between the two states. -/
def LeftArmed (s s' : Sys Int) (tfd : Int) : Prop :=
  s'.kernel.timers tfd ≠ none ∧ s'.kernel.armings tfd ≠ s.kernel.armings tfd

/-- The timer is started completely, or there is no trace of the call. -/
structure StartsOrNoTrace (s : Sys Int) (r : TimerResult) (a : TimerArgs) : Prop where
  started : r.ret = some 0 → r.sys.kernel.timers a.tfd ≠ none ∧ TimerRegistered r.sys a
  noTrace : ∀ e, r.ret = some e → e ≠ 0 → ¬ LeftArmed s r.sys a.tfd ∧ TimerAbsent r.sys a ∧
    ∀ c, r.sys.datas.Live c → s.datas.Live c
  inBounds : ∀ w ∈ r.writes, w.InBounds a.len

/-- The setting with which `timerfd_settime` succeeds, if the call comes that far. -/
def TimerOutcome.setting (o : TimerOutcome) (a : TimerArgs) : Option Itimerspec :=
  if a.data.isSome && a.len != 0 && !o.mallocOk then none
  else o.clock.bind fun nw =>
    if Kernel.settimeAccepts (timerSpec nw a) o.settimeOk then some (timerSpec nw a) else none

/-- Either the call fails before the timer is set, with the timer not registered already; or
there are at least four bytes to copy, and the timer is armed and registered without a failure,
or not armed and refused by a known epoll. -/
def TimerHonest (s : Sys Int) (o : TimerOutcome) (a : TimerArgs) : Prop :=
  match o.setting a with
  | none => TimerAbsent s a
  | some its => a.data ≠ none ∧ 4 ≤ a.len ∧ ∃ n, s.findEpoll a.eplfd = some n ∧
      if o.ctl.mallocOk && s.kernel.accepts a.eplfd .add a.tfd o.ctl.kernelOk then
        Kernel.Arms its ∧ InsertFits (s.table n.pEventHash) a.tfd o.ctl.callocOk o.ctl.entryOk
      else ¬ Kernel.Arms its ∧ TimerAbsent s a

/-- The copy pointer once `base_timer_start` has set it. -/
def copyPtr (s : Sys Int) (a : TimerArgs) : Option Nat :=
  if a.data.isSome && a.len != 0 then some s.datas.next else none

/-- The state in which the timer has been set. -/
def timerArmed (s : Sys Int) (a : TimerArgs) (its : Itimerspec) : Sys Int :=
  { s with
    datas := if a.data.isSome && a.len != 0 then s.datas.alloc (List.replicate a.len 0)
      else s.datas
    kernel := s.kernel.setTimer a.tfd its }

/-- The state in which the timer has been set and the copy filled. -/
def timerSet (s : Sys Int) (a : TimerArgs) (its : Itimerspec) : Sys Int :=
  { s with
    datas := if a.data.isSome && a.len != 0 then
        (s.datas.alloc (List.replicate a.len 0)).set s.datas.next (a.bytes.getD [])
      else s.datas
    kernel := s.kernel.setTimer a.tfd its }

variable {s : Sys Int} {o : TimerOutcome} {a : TimerArgs} {its : Itimerspec}

/-- A call that fails before the timer is set: the copy, if there was one, is freed. -/
theorem start_of_unset (h : o.setting a = none) :
    ∃ D, s.baseTimerStart o a = ⟨some (-1), [], { s with datas := D }⟩ ∧
      (D = s.datas ∨ ∃ v, D = (s.datas.alloc v).free s.datas.next) := by
  simp only [TimerOutcome.setting] at h
  simp only [Sys.baseTimerStart, Sys.startTimer, Kernel.timerfdSettime]
  by_cases hcopy : (a.data.isSome && a.len != 0) = true
  · rw [if_pos hcopy]
    cases hm : o.mallocOk with
    | false => exact ⟨s.datas, rfl, .inl rfl⟩
    | true =>
      rw [hcopy, hm] at h
      cases hclock : o.clock with
      | none => exact ⟨_, rfl, .inr ⟨_, rfl⟩⟩
      | some nw =>
        have hno : Kernel.settimeAccepts (timerSpec nw a) o.settimeOk = false := by
          simpa [hclock] using h
        simp only [hno]
        exact ⟨_, rfl, .inr ⟨_, rfl⟩⟩
  · rw [if_neg hcopy]
    rw [Bool.not_eq_true] at hcopy
    rw [hcopy] at h
    cases hclock : o.clock with
    | none => exact ⟨s.datas, rfl, .inl rfl⟩
    | some nw =>
      have hno : Kernel.settimeAccepts (timerSpec nw a) o.settimeOk = false := by
        simpa [hclock] using h
      simp only [hno]
      exact ⟨s.datas, rfl, .inl rfl⟩

theorem setting_eq_some (h : o.setting a = some its) :
    ∃ nw, o.clock = some nw ∧ Kernel.settimeAccepts (timerSpec nw a) o.settimeOk = true ∧
      its = timerSpec nw a := by
  simp only [TimerOutcome.setting] at h
  split at h
  · cases h
  · rw [Option.bind_eq_some_iff] at h
    obtain ⟨nw, hclock, hacc⟩ := h
    split at hacc
    · next hok => exact ⟨nw, hclock, hok, (Option.some.inj hacc).symm⟩
    · cases hacc

/-- A call that sets the timer goes on to clear the copy. -/
theorem start_of_set (h : o.setting a = some its) :
    s.baseTimerStart o a = (timerArmed s a its).attachTimer o.ctl a (copyPtr s a) := by
  obtain ⟨nw, hclock, hacc, rfl⟩ := setting_eq_some h
  simp only [Sys.baseTimerStart, Sys.startTimer, Kernel.timerfdSettime, timerArmed, copyPtr]
  by_cases hcopy : (a.data.isSome && a.len != 0) = true
  · -- a copy is made; without memory for it the timer is not set
    have hm : o.mallocOk = true := by
      simp only [TimerOutcome.setting] at h
      rw [hcopy] at h
      cases hm : o.mallocOk with
      | false =>
        rw [hm] at h
        cases h
      | true => rfl
    simp [hcopy, hm, hclock, hacc]
  · simp [hcopy, hclock, hacc]

theorem copyData_timerArmed :
    (timerArmed s a its).copyData (copyPtr s a) a = timerSet s a its := by
  simp only [timerArmed, timerSet, copyPtr, Sys.copyData, TimerArgs.bytes]
  cases hd : a.data with
  | none => simp
  | some d =>
    by_cases hlen : a.len = 0
    · simp [hlen]
    · simp [hlen]

/-- The copy is cleared inside its bounds when there are four bytes to copy. -/
theorem clear_inBounds_iff : (CopyWrite.mk (copyPtr s a) Sys.sizeofLen).InBounds a.len ↔
    a.data ≠ none ∧ 4 ≤ a.len := by
  simp only [copyPtr, CopyWrite.InBounds, Sys.sizeofLen]
  cases a.data with
  | none => simp
  | some d =>
    by_cases hlen : a.len = 0
    · simp [hlen]
    · simp [hlen]

/-- With four bytes to copy the call goes on to register the timer. -/
theorem start_of_room (h : o.setting a = some its) (hroom : a.data ≠ none ∧ 4 ≤ a.len) :
    s.baseTimerStart o a =
      Sys.timerExit (copyPtr s a) [⟨copyPtr s a, Sys.sizeofLen⟩, ⟨copyPtr s a, a.len⟩]
        ((timerSet s a its).epollCtl o.ctl a.eplfd .add a.tfd
          (.own (Sys.timerEvent a (copyPtr s a)))) := by
  rw [start_of_set h, Sys.attachTimer, if_pos (clear_inBounds_iff.mpr hroom),
    copyData_timerArmed]

/-- Without four bytes to copy the call ends at `memset`, with the timer set. -/
theorem start_of_noRoom (h : o.setting a = some its) (hroom : ¬ (a.data ≠ none ∧ 4 ≤ a.len)) :
    s.baseTimerStart o a = ⟨none, [⟨copyPtr s a, Sys.sizeofLen⟩], timerArmed s a its⟩ := by
  rw [start_of_set h, Sys.attachTimer, if_neg fun hb => hroom (clear_inBounds_iff.mp hb)]

theorem Sane.timerSet (hs : Sane s) : Sane (timerSet s a its) := by
  refine hs.blocks rfl (Nat.le_refl _) hs.live_lt ?_
  intro p ev hp c hc
  have hlt := hs.datas_lt p ev hp c hc
  simp only [Epoll.timerSet]
  split
  · exact Nat.lt_succ_of_lt hlt
  · exact hlt

theorem timerAbsent_congr {s' : Sys Int} (hl : s'.epollList = s.epollList)
    (ht : s'.tables = s.tables) (he : s'.kernel.epollOf = s.kernel.epollOf)
    (hi : s'.kernel.interest = s.kernel.interest) : TimerAbsent s' a ↔ TimerAbsent s a := by
  simp only [TimerAbsent, Sys.findEpoll, Kernel.interestOf]
  simp only [hl, he, hi, Sys.table_congr ht]

theorem accepts_timerSet {ok : Bool} :
    (timerSet s a its).kernel.accepts a.eplfd .add a.tfd ok =
      s.kernel.accepts a.eplfd .add a.tfd ok := by
  simp [Kernel.accepts, timerSet]

/-- Both writes are in bounds when there are four bytes to copy. -/
theorem inBounds_of_room (hroom : a.data ≠ none ∧ 4 ≤ a.len) :
    ∀ w ∈ ([⟨copyPtr s a, Sys.sizeofLen⟩, ⟨copyPtr s a, a.len⟩] : List CopyWrite),
      w.InBounds a.len := by
  have hclear := clear_inBounds_iff (s := s).mpr hroom
  intro w hw
  rcases List.mem_cons.mp hw with rfl | hw
  · exact hclear
  · rw [List.mem_singleton] at hw
    subst hw
    rcases hclear with hzero | ⟨hptr, -⟩
    · cases hzero
    · exact .inr ⟨hptr, Nat.le_refl _⟩

/-- The copy that the call made is freed again. -/
theorem copy_freed (its : Itimerspec) {s' : Sys Int}
    (hd : s'.datas = (timerSet s a its).datas) (c : Nat)
    (h : (s'.freeData ((copyPtr s a).map .copy)).datas.Live c) : s.datas.Live c := by
  simp only [timerSet] at hd
  simp only [copyPtr] at h
  by_cases hcopy : (a.data.isSome && a.len != 0) = true
  · rw [if_pos hcopy] at h
    simp only [hcopy, if_true] at hd
    simp only [Option.map_some, Sys.freeData, hd] at h
    obtain ⟨hne, hl⟩ := Arena.live_free.mp h
    rw [Arena.live_set (Arena.live_alloc.mpr (.inl rfl))] at hl
    exact (Arena.live_alloc.mp hl).resolve_left hne
  · rw [if_neg hcopy] at h
    simp only [hcopy] at hd
    simpa [Sys.freeData, hd] using h

/-- The timer could not be set. -/
theorem startsOrNoTrace_unset {D : Arena (List UInt8)}
    (hD : ∀ c, D.Live c → s.datas.Live c) :
    StartsOrNoTrace s ⟨some (-1), [], { s with datas := D }⟩ a ↔ TimerAbsent s a := by
  constructor
  · intro h
    exact (h.noTrace (-1) rfl (by decide)).2.1
  · intro h
    refine ⟨fun h0 => absurd h0 (by simp), fun _ _ _ => ⟨fun hl => hl.2 rfl, h, hD⟩, ?_⟩
    intro w hw
    cases hw

/-- The timer was set and `base_epoll_ctl` refused it; the copy has been freed. -/
theorem startsOrNoTrace_refused {s' : Sys Int} {ws : List CopyWrite}
    (hw : ∀ w ∈ ws, w.InBounds a.len)
    (hk : s'.kernel = s.kernel.setTimer a.tfd its) (hl : s'.epollList = s.epollList)
    (ht : s'.tables = s.tables) (hD : ∀ c, s'.datas.Live c → s.datas.Live c) :
    StartsOrNoTrace s ⟨some (-1), ws, s'⟩ a ↔ ¬ Kernel.Arms its ∧ TimerAbsent s a := by
  have habs : TimerAbsent s' a ↔ TimerAbsent s a :=
    timerAbsent_congr hl ht (by simp [hk]) (by simp [hk])
  have harmed : LeftArmed s s' a.tfd ↔ Kernel.Arms its := by
    simp only [LeftArmed]
    rw [hk, Kernel.setTimer_timers, Kernel.setTimer_armings]
    by_cases hits : Kernel.Arms its
    · simp [hits]
    · simp [hits]
  constructor
  · intro h
    obtain ⟨h1, h2, -⟩ := h.noTrace (-1) rfl (by decide)
    exact ⟨fun hits => h1 (harmed.mpr hits), habs.mp h2⟩
  · rintro ⟨hits, hreg⟩
    exact ⟨fun h0 => absurd h0 (by simp),
      fun _ _ _ => ⟨fun hl => hits (harmed.mp hl), habs.mpr hreg, hD⟩, hw⟩

/-- The timer was set and `base_epoll_ctl` returned 0. -/
theorem startsOrNoTrace_returned {s' : Sys Int} {ws : List CopyWrite}
    (hw : ∀ w ∈ ws, w.InBounds a.len)
    (hk : s'.kernel.timers = (s.kernel.setTimer a.tfd its).timers) :
    StartsOrNoTrace s ⟨some 0, ws, s'⟩ a ↔ Kernel.Arms its ∧ TimerRegistered s' a := by
  have harmed : s'.kernel.timers a.tfd ≠ none ↔ Kernel.Arms its := by
    rw [hk, Kernel.setTimer_timers]
    by_cases hits : Kernel.Arms its
    · simp [hits]
    · simp [hits]
  constructor
  · intro h
    obtain ⟨h1, h2⟩ := h.started rfl
    exact ⟨harmed.mp h1, h2⟩
  · rintro ⟨hits, hreg⟩
    refine ⟨fun _ => ⟨harmed.mpr hits, hreg⟩, ?_, hw⟩
    intro e he hne
    exact absurd (Option.some.inj he).symm hne

/-- What the kernel and the table hold after a registration without failure. -/
theorem timerRegistered_iff {s' : Sys Int} {n : EpollNode} {fits : Prop}
    (hcopy : (a.data.isSome && a.len != 0) = true) {p c : Nat}
    (hn : s'.findEpoll a.eplfd = some n) (hk : s'.kernel.interestOf a.eplfd a.tfd = some p)
    (hb : s'.blocks.cells p = some (Sys.timerEvent a (some c))) (hd : s'.datas.cells c = a.bytes)
    (ht : (s'.table n.pEventHash).get a.tfd = some p ↔ fits) : TimerRegistered s' a ↔ fits := by
  constructor
  · rintro ⟨m, q, ev, hm, hq, hget, -⟩
    rw [hn] at hm
    cases hm
    rw [hk] at hq
    cases hq
    exact ht.mp hget
  · intro hfit
    refine ⟨n, p, _, hn, hk, ht.mpr hfit, hb, rfl, rfl, ?_⟩
    rw [if_pos hcopy]
    exact ⟨c, rfl, hd⟩

/-- The timer was set and the kernel took the registration: what is left to ask is that the
setting arms the timer and that the table takes the entry. -/
theorem startsOrNoTrace_attached (hs : Sane s) {n : EpollNode}
    (hroom : a.data ≠ none ∧ 4 ≤ a.len) (hn : s.findEpoll a.eplfd = some n)
    (hf : (o.ctl.mallocOk && s.kernel.accepts a.eplfd .add a.tfd o.ctl.kernelOk) = true) :
    StartsOrNoTrace s (Sys.timerExit (copyPtr s a)
        [⟨copyPtr s a, Sys.sizeofLen⟩, ⟨copyPtr s a, a.len⟩]
        ((timerSet s a its).attachBlock intKeys a.tfd o.ctl n a.eplfd .add a.tfd
          (Sys.timerEvent a (copyPtr s a)))) a ↔
      Kernel.Arms its ∧ InsertFits (s.table n.pEventHash) a.tfd o.ctl.callocOk o.ctl.entryOk := by
  obtain ⟨s', he, hk, hb, hd, hiff⟩ := attachBlock_succeeds (s := timerSet s a its) hs.timerSet n
    (Sys.timerEvent a (copyPtr s a)) (accepts_timerSet ▸ hf) (by decide)
  have hsame : Sys.SameRegistry (timerSet s a its) s' := by
    have hattach : Sys.SameRegistry (timerSet s a its)
        ((timerSet s a its).attachBlock intKeys a.tfd o.ctl n a.eplfd .add a.tfd
          (Sys.timerEvent a (copyPtr s a))).2 := Sys.sameRegistry_attachBlock
    rwa [he] at hattach
  rw [he, Sys.timerExit_zero, startsOrNoTrace_returned (inBounds_of_room hroom) hsame.timers]
  refine and_congr_right fun _ => ?_
  obtain ⟨hdata, hlen⟩ := hroom
  have hcopy : (a.data.isSome && a.len != 0) = true := by
    rw [Option.ne_none_iff_isSome] at hdata
    simp [hdata]
    omega
  have hptr : copyPtr s a = some s.datas.next := if_pos hcopy
  rw [hptr] at hb
  refine timerRegistered_iff hcopy ?_ hk hb ?_ ((hiff _).trans (and_iff_right rfl))
  · simp only [Sys.findEpoll]
    rw [hsame.epollList]
    exact hn
  · -- no block from before the call has the new copy
    rw [hd s.datas.next fun q e hq hdq => Nat.lt_irrefl _ (hs.datas_lt q e hq _ hdq)]
    obtain ⟨d, hd'⟩ := Option.ne_none_iff_exists'.mp hdata
    have hne : a.len ≠ 0 := by omega
    simp [timerSet, hne, Arena.set, TimerArgs.bytes, hd']

/-- The timer was set and there is room to clear the copy: what `base_epoll_ctl` did decides. -/
theorem startsOrNoTrace_room (hs : Sane s) (hroom : a.data ≠ none ∧ 4 ≤ a.len)
    (hset : o.setting a = some its) :
    StartsOrNoTrace s (s.baseTimerStart o a) a ↔ ∃ n, s.findEpoll a.eplfd = some n ∧
      if o.ctl.mallocOk && s.kernel.accepts a.eplfd .add a.tfd o.ctl.kernelOk then
        Kernel.Arms its ∧ InsertFits (s.table n.pEventHash) a.tfd o.ctl.callocOk o.ctl.entryOk
      else ¬ Kernel.Arms its ∧ TimerAbsent s a := by
  have hfind : (timerSet s a its).findEpoll a.eplfd = s.findEpoll a.eplfd := rfl
  rw [start_of_room hset hroom]
  simp only [Sys.epollCtl]
  cases hn : s.findEpoll a.eplfd with
  | none =>
    -- 0 is returned although nothing was registered: neither side holds
    rw [Sys.ctl_of_unknown (hfind.trans hn), Sys.timerExit_zero,
      startsOrNoTrace_returned (inBounds_of_room hroom) rfl]
    constructor
    · rintro ⟨-, n, p, ev, hn', -⟩
      rw [hfind, hn] at hn'
      cases hn'
    · rintro ⟨n, hn', -⟩
      cases hn'
  | some n =>
    rw [Sys.ctl_add (hfind.trans hn)]
    simp only [Option.some.injEq, exists_eq_left', Sys.readEvent]
    cases hf : (o.ctl.mallocOk && s.kernel.accepts a.eplfd .add a.tfd o.ctl.kernelOk) with
    | false =>
      obtain ⟨A, he, -, -⟩ := attachBlock_fails hs.timerSet n (Sys.timerEvent a (copyPtr s a))
        (accepts_timerSet ▸ hf)
      rw [he, Sys.timerExit_minusOne]
      simp only [Bool.false_eq_true, if_false]
      exact startsOrNoTrace_refused (inBounds_of_room hroom) Sys.freeData_kernel
        Sys.freeData_epollList Sys.freeData_tables (copy_freed its rfl)
    | true =>
      simp only [if_true]
      exact startsOrNoTrace_attached hs hroom hn hf

/-- Exactly when `base_timer_start` starts the timer completely or leaves no trace. -/
theorem timerStart_iff (s : Registry) (o : TimerOutcome) (a : TimerArgs) :
    StartsOrNoTrace s.1 (s.1.baseTimerStart o a) a ↔ TimerHonest s.1 o a := by
  obtain ⟨s, hs⟩ := s
  simp only [TimerHonest]
  cases hset : o.setting a with
  | none =>
    obtain ⟨D, he, hD⟩ := start_of_unset (s := s) hset
    rw [he]
    apply startsOrNoTrace_unset
    intro c hc
    rcases hD with rfl | ⟨v, rfl⟩
    · exact hc
    · obtain ⟨hne, hl⟩ := Arena.live_free.mp hc
      exact (Arena.live_alloc.mp hl).resolve_left hne
  | some its =>
    simp only
    rw [← and_assoc]
    by_cases hroom : a.data ≠ none ∧ 4 ≤ a.len
    · rw [and_iff_right hroom]
      exact startsOrNoTrace_room hs hroom hset
    · -- the write that ends the call is out of bounds
      rw [start_of_noRoom hset hroom]
      constructor
      · intro h
        exact absurd (clear_inBounds_iff.mp (h.inBounds _ (List.mem_singleton_self _))) hroom
      · intro h
        exact absurd h.1 hroom

/-- One epoll, number 5. -/
def oneEpoll : Registry where
  val := (Sys.empty.baseEpollCreate (.fine 5)).2
  property := sane_empty.create (.fine 5)

/-- A timer without data, every call successful: four bytes are written through the null
pointer. -/
theorem timerStart_writes_null :
    ¬ ∀ (s : Registry) (o : TimerOutcome) (a : TimerArgs), 0 < a.eplfd → 0 < a.tfd →
      StartsOrNoTrace s.1 (s.1.baseTimerStart o a) a := by
  intro h
  have hstart := h oneEpoll ⟨true, some ⟨100, 0⟩, true, .fine⟩ ⟨5, 7, 1, 0, 0, 0, 0, none, 0⟩
    (by decide) (by decide)
  have hwrite := hstart.inBounds ⟨none, 4⟩ (by decide)
  rcases hwrite with hcount | ⟨hbase, -⟩
  · cases hcount
  · exact hbase rfl

end BaseCode.Epoll
