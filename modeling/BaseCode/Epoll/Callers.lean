import Mathlib.Logic.Relation
import BaseCode.Epoll.Frames
import BaseCode.Epoll.Thread
import BaseCode.Epoll.Timer
import BaseCode.Comm.HashTableSpec
import BaseCode.Foundation.Runs

/-!
# Callers and a dispatcher in parallel

Any number of threads call `base_epoll_ctl`, `base_timer_stop` and `base_epoll_close` while
`epoll_thread` fetches and dispatches on one epoll. A call is cut into the steps between which
others can run: taking and releasing `g_epoll_list_lock`, each system call, each table operation
and each block that is freed. `malloc` goes with the system call after it, and `base_epoll_close`
looks up and unlinks under the lock in one step. Thread 0 is the dispatcher: what it calls, it
calls from inside a callback.

A call that nothing interrupts computes what the function of the registry computes.
-/

namespace BaseCode.Epoll
open Foundation Comm

/-- A call of `base_epoll_ctl` and how the calls it makes end. `stop` is set where
`base_timer_stop` makes the call and closes the descriptor afterwards. -/
structure CtlArgs where
  epfd : Int
  op : CtlOp
  fd : Int
  arg : EventArg
  o : Sys.CtlOutcome
  stop : Bool

/-- How far a thread has come. -/
inductive Pc
  | idle (ret : Int)
  /-- `base_epoll_ctl` before the lock. -/
  | ctl (a : CtlArgs)
  /-- ADD and MOD before `malloc`. -/
  | attach (n : EpollNode) (a : CtlArgs)
  | insert (n : EpollNode) (p : Nat) (a : CtlArgs)
  | delete (n : EpollNode) (a : CtlArgs)
  | remove (n : EpollNode) (ret : Int) (a : CtlArgs)
  /-- MOD before its `hash_table_remove`. -/
  | replace (n : EpollNode) (a : CtlArgs)
  | unlock (ret : Int) (blk : Option Nat) (a : CtlArgs)
  /-- After the lock, with the block that is to be freed. -/
  | exit (ret : Int) (blk : Option Nat) (a : CtlArgs)
  /-- `base_epoll_close` before the lock. -/
  | close (epfd : Int)
  /-- The entries whose blocks are still to be freed. -/
  | freeTable (epfd : Int) (n : EpollNode) (rest : List (Int × Nat))
  /-- Before `SAFE_CLOSE`. -/
  | closeNumber (fd : Int)

/-- The thread that runs `epoll_thread`. Each event of its batch comes with the descriptor it is
about, which the thread itself is not told. -/
inductive Dispatcher
  | waiting
  | dispatching (es : List (Int × Fetched))
  /-- Inside a callback. -/
  | calling (p : Nat) (es : List (Int × Fetched))
  | exited

/-- The events that are fetched and not yet dispatched. -/
def Dispatcher.batch : Dispatcher → List (Int × Fetched)
  | .dispatching es => es
  | .calling _ es => es
  | _ => []

structure Conc where
  sys : Sys Int
  lock : Option Nat
  pc : Nat → Pc
  dispatcher : Dispatcher

inductive Label
  | ctl (t : Nat) (a : CtlArgs)
  | timerStop (t : Nat) (settimeOk : Bool) (o : Sys.CtlOutcome) (eplfd tfd : Int)
  | close (t : Nat) (epfd : Int)
  | step (t : Nat)
  /-- The dispatcher's wait returns events, each with the descriptor it is about. -/
  | fetch (es : List (Int × Fetched))
  | waitError
  | dispatch
  /-- The callback returns. -/
  | resume

/-- `MX_EVNTS`. -/
def mxEvnts : Nat := 10

/-- The call that `base_timer_stop` makes. -/
def stopArgs (o : Sys.CtlOutcome) (eplfd tfd : Int) : CtlArgs :=
  ⟨eplfd, .del, tfd, .own ⟨0, 0, 0, none, 0⟩, o, true⟩

namespace Conc

def goto (s : Conc) (t : Nat) (c : Pc) : Conc := { s with pc := Function.update s.pc t c }

/-- Where `base_epoll_ctl` goes once it has the lock. -/
def branch (s : Sys Int) (a : CtlArgs) : Pc :=
  match s.findEpoll a.epfd with
  | none => .unlock 0 none a
  | some n =>
    match a.op with
    | .add => .attach n a
    | .del => .delete n a
    | .mod => .replace n a
    | .other _ => .unlock 0 none a

/-- `SAFE_FREE(p_evt_blk)`, which leaves the attached data alone. -/
def freeBlk (s : Sys Int) (blk : Option Nat) : Sys Int :=
  { s with blocks := s.blocks.freeOpt blk }

/-- The table without its entries, and the `BsaeEpoll`. -/
def freeEpoll (s : Sys Int) (n : EpollNode) : Sys Int :=
  { s with tables := s.tables.free n.pEventHash, epolls := s.epolls.free n.epoll }

/-- One step of a thread that is inside a call; `none` when it has to wait for the lock. -/
def stepCaller (s : Conc) (t : Nat) : Option Conc :=
  match s.pc t with
  | .idle _ => none
  | .ctl a =>
    match s.lock with
    | some _ => none
    | none => some ({ s with lock := some t }.goto t (branch s.sys a))
  | .attach n a =>
    if a.o.mallocOk then
      let p := s.sys.blocks.next
      let sys := { s.sys with blocks := s.sys.blocks.alloc (s.sys.readEvent a.arg) }
      match sys.kernel.epollCtl a.epfd a.op a.fd p a.o.kernelOk with
      | none => some ({ s with sys := sys }.goto t (.unlock (-1) (some p) a))
      | some k => some ({ s with sys := { sys with kernel := k } }.goto t (.insert n p a))
    else some (s.goto t (.unlock (-1) none a))
  | .insert n p a =>
    some ({ s with sys := s.sys.insertEvent intKeys n.pEventHash a.fd p a.o }.goto t
      (.unlock 0 none a))
  | .delete n a =>
    match s.sys.kernel.epollCtl a.epfd .del a.fd 0 a.o.kernelOk with
    | none => some (s.goto t (.remove n (-1) a))
    | some k => some ({ s with sys := { s.sys with kernel := k } }.goto t (.remove n 0 a))
  | .remove n ret a =>
    some ({ s with sys := s.sys.removeEvent intKeys n.pEventHash a.fd }.goto t
      (.unlock ret none a))
  | .replace n a =>
    some ({ s with sys := s.sys.removeEvent intKeys n.pEventHash a.fd }.goto t
      (.attach n a))
  | .unlock ret blk a => some ({ s with lock := none }.goto t (.exit ret blk a))
  | .exit ret blk a =>
    some ({ s with sys := freeBlk s.sys blk }.goto t
      (if a.stop then .closeNumber a.fd else .idle ret))
  | .close epfd =>
    if epfd = -1 then some (s.goto t (.idle 0))
    else
      match s.lock with
      | some _ => none
      | none =>
        match s.sys.findEpoll epfd with
        | none => some (s.goto t (.closeNumber epfd))
        | some n =>
          let sys := { s.sys with
            epollList := s.sys.epollList.eraseP fun n => n.epollFd == epfd }
          some ({ s with sys := sys }.goto t
            (.freeTable epfd n (s.sys.table n.pEventHash).toList))
  | .freeTable epfd n ((_, p) :: rest) =>
    some ({ s with sys := s.sys.baseEpollFreeEventBlock p }.goto t (.freeTable epfd n rest))
  | .freeTable epfd n [] =>
    some ({ s with sys := freeEpoll s.sys n }.goto t (.closeNumber epfd))
  | .closeNumber fd => some ({ s with sys := s.sys.safeClose fd }.goto t (.idle 0))

/-- A thread outside any call; the dispatcher's is inside a callback then. -/
def mayCall (s : Conc) (t : Nat) : Bool :=
  match s.pc t, s.dispatcher with
  | .idle _, .calling _ _ => true
  | .idle _, _ => t != 0
  | _, _ => false

/-- The kernel hands out the pointer last registered for each descriptor. -/
def Delivers (k : Kernel) (eplfd : Int) (es : List (Int × Fetched)) : Prop :=
  (k.epollOf eplfd).isSome = true ∧ es.length ≤ mxEvnts ∧
    ∀ d ∈ es, d.2.ptr.isSome = true ∧ d.2.ptr = k.interestOf eplfd d.1

instance {k : Kernel} {eplfd : Int} {es : List (Int × Fetched)} :
    Decidable (Delivers k eplfd es) := inferInstanceAs (Decidable (_ ∧ _ ∧ _))

/-- The dispatcher leaves its loop. -/
def leave (s : Conc) (eplfd : Int) : Conc :=
  { s with sys := s.sys.threadExit eplfd, dispatcher := .exited }

/-- One step of the whole; `base_epoll_ctl` asserts its arguments. -/
def next (eplfd : Int) (s : Conc) : Label → Option Conc
  | .ctl t a =>
    if s.mayCall t ∧ 0 < a.epfd ∧ 0 < a.fd ∧ a.stop = false then some (s.goto t (.ctl a))
    else none
  | .timerStop t settimeOk o epfd tfd =>
    if s.mayCall t ∧ 0 < epfd ∧ 0 < tfd then
      let k := (s.sys.kernel.timerfdSettime tfd ⟨⟨0, 0⟩, ⟨0, 0⟩⟩ settimeOk).getD s.sys.kernel
      some ({ s with sys := { s.sys with kernel := k } }.goto t (.ctl (stopArgs o epfd tfd)))
    else none
  | .close t epfd => if s.mayCall t then some (s.goto t (.close epfd)) else none
  | .step t => s.stepCaller t
  | .fetch es =>
    match s.dispatcher with
    | .waiting =>
      if Delivers s.sys.kernel eplfd es then
        some { s with dispatcher := .dispatching es }
      else none
    | _ => none
  | .waitError =>
    match s.dispatcher with
    | .waiting => some (s.leave eplfd)
    | _ => none
  | .dispatch =>
    match s.dispatcher with
    | .dispatching [] => some { s with dispatcher := .waiting }
    | .dispatching (d :: es) =>
      match react d.2 with
      | .callback p => some { s with dispatcher := .calling p es }
      | .next => some { s with dispatcher := .dispatching es }
      | .exit => some (s.leave eplfd)
    | _ => none
  | .resume =>
    match s.dispatcher, s.pc 0 with
    | .calling _ es, .idle _ => some { s with dispatcher := .dispatching es }
    | _, _ => none

section Alone

variable {s : Conc} {t : Nat} {sys : Sys Int} {lock : Option Nat}

/-- Steps of one thread with nobody in between. -/
def Alone (t : Nat) : Conc → Conc → Prop :=
  Relation.ReflTransGen fun s s' => s.stepCaller t = some s'

/-- The state with another system and lock, and thread `t` elsewhere. -/
def place (s : Conc) (t : Nat) (sys : Sys Int) (lock : Option Nat) (c : Pc) : Conc :=
  { s with sys := sys, lock := lock }.goto t c

theorem stepCaller_place {c c' : Pc} {sys' : Sys Int} {lock' : Option Nat}
    (h : ∀ s : Conc, s.sys = sys → s.lock = lock → s.pc t = c →
      s.stepCaller t = some ({ s with sys := sys', lock := lock' }.goto t c')) :
    (s.place t sys lock c).stepCaller t = some (s.place t sys' lock' c') := by
  rw [h (s.place t sys lock c) rfl rfl (by simp [place, goto])]
  simp [place, goto]

/-- What is left of a call after its last table operation. -/
theorem alone_unlock (ret : Int) (blk : Option Nat) (a : CtlArgs) :
    Alone t (s.place t sys (some t) (.unlock ret blk a)) (s.place t (freeBlk sys blk) none
      (if a.stop then .closeNumber a.fd else .idle ret)) := by
  refine .head (b := s.place t sys none (.exit ret blk a)) ?_ (.single ?_)
  · apply stepCaller_place
    rintro s rfl - hc
    simp [stepCaller, hc]
  · apply stepCaller_place
    rintro s rfl hl hc
    simp [stepCaller, hc, ← hl]

theorem alone_insert (n : EpollNode) (p : Nat) (a : CtlArgs) :
    Alone t (s.place t sys (some t) (.insert n p a)) (s.place t
      (sys.insertEvent intKeys n.pEventHash a.fd p a.o) none
      (if a.stop then .closeNumber a.fd else .idle 0)) := by
  refine .head (b := s.place t (sys.insertEvent intKeys n.pEventHash a.fd p a.o) (some t)
    (.unlock 0 none a)) ?_ (alone_unlock 0 none a)
  apply stepCaller_place
  rintro s rfl hl hc
  simp [stepCaller, hc, ← hl]

theorem alone_remove (n : EpollNode) (ret : Int) (a : CtlArgs) :
    Alone t (s.place t sys (some t) (.remove n ret a)) (s.place t
      (sys.removeEvent intKeys n.pEventHash a.fd) none
      (if a.stop then .closeNumber a.fd else .idle ret)) := by
  refine .head (b := s.place t (sys.removeEvent intKeys n.pEventHash a.fd) (some t)
    (.unlock ret none a)) ?_ (alone_unlock ret none a)
  apply stepCaller_place
  rintro s rfl hl hc
  simp [stepCaller, hc, ← hl]

theorem alone_attach (n : EpollNode) (a : CtlArgs) :
    Alone t (s.place t sys (some t) (.attach n a)) (s.place t
      (sys.attachBlock intKeys a.fd a.o n a.epfd a.op a.fd (sys.readEvent a.arg)).2 none
      (if a.stop then .closeNumber a.fd else .idle
        (sys.attachBlock intKeys a.fd a.o n a.epfd a.op a.fd (sys.readEvent a.arg)).1)) := by
  obtain ⟨hm, he⟩ | ⟨hm, hk, he⟩ | ⟨k, hm, hk, he⟩ :=
    Sys.attachBlock_cases intKeys a.fd a.o sys n a.epfd a.op a.fd (sys.readEvent a.arg)
  · rw [he]
    refine .head (b := s.place t sys (some t) (.unlock (-1) none a)) ?_
      (alone_unlock (-1) none a)
    apply stepCaller_place
    rintro s rfl hl hc
    simp [stepCaller, hc, hm, ← hl]
  · rw [he]
    refine .head (b := s.place t { sys with
        blocks := sys.blocks.alloc (sys.readEvent a.arg) } (some t)
      (.unlock (-1) (some sys.blocks.next) a)) ?_ (alone_unlock (-1) (some sys.blocks.next) a)
    apply stepCaller_place
    rintro s rfl hl hc
    simp [stepCaller, hc, hm, hk, ← hl]
  · rw [he]
    refine .head (b := s.place t { sys with
        blocks := sys.blocks.alloc (sys.readEvent a.arg)
        kernel := k } (some t) (.insert n sys.blocks.next a)) ?_ ?_
    · apply stepCaller_place
      rintro s rfl hl hc
      simp [stepCaller, hc, hm, hk, ← hl]
    · exact alone_insert n sys.blocks.next a

theorem alone_delete (n : EpollNode) (a : CtlArgs) :
    Alone t (s.place t sys (some t) (.delete n a)) (s.place t
      (sys.detachBlock intKeys a.fd a.o n a.epfd a.fd).2 none
      (if a.stop then .closeNumber a.fd else
        .idle (sys.detachBlock intKeys a.fd a.o n a.epfd a.fd).1)) := by
  obtain ⟨hk, he⟩ | ⟨k, hk, he⟩ := Sys.detachBlock_cases intKeys a.fd a.o sys n a.epfd a.fd
  · rw [he]
    refine .head (b := s.place t sys (some t) (.remove n (-1) a)) ?_ (alone_remove n (-1) a)
    apply stepCaller_place
    rintro s rfl hl hc
    simp [stepCaller, hc, hk, ← hl]
  · rw [he]
    refine .head (b := s.place t { sys with kernel := k } (some t) (.remove n 0 a)) ?_
      (alone_remove n 0 a)
    apply stepCaller_place
    rintro s rfl hl hc
    simp [stepCaller, hc, hk, ← hl]

theorem alone_branch (a : CtlArgs) :
    Alone t (s.place t sys (some t) (branch sys a)) (s.place t
      (sys.epollCtl a.o a.epfd a.op a.fd a.arg).2 none
      (if a.stop then .closeNumber a.fd else
        .idle (sys.epollCtl a.o a.epfd a.op a.fd a.arg).1)) := by
  simp only [branch, Sys.epollCtl]
  cases hn : sys.findEpoll a.epfd with
  | none =>
    rw [Sys.ctl_of_unknown hn]
    exact alone_unlock 0 none a
  | some n =>
    cases hop : a.op with
    | add =>
      have h : Alone t (s.place t sys (some t) (.attach n a)) _ := alone_attach n a
      rw [hop] at h
      rw [Sys.ctl_add hn]
      exact h
    | del =>
      rw [Sys.ctl_del hn]
      exact alone_delete n a
    | mod =>
      -- one step removes the entry; the rest is as for ADD
      have h : Alone t (s.place t (sys.removeEvent intKeys n.pEventHash a.fd) (some t)
          (.attach n a)) _ := alone_attach n a
      rw [hop] at h
      rw [Sys.ctl_mod hn, Sys.exchangeBlock]
      refine .head ?_ h
      apply stepCaller_place
      rintro s rfl hl hc
      simp [stepCaller, hc, ← hl]
    | other c =>
      rw [Sys.ctl_other]
      exact alone_unlock 0 none a

/-- An uninterrupted `base_epoll_ctl`. -/
theorem alone_ctl {a : CtlArgs} (hl : s.lock = none) (hc : s.pc t = .ctl a) :
    Alone t s (s.place t (s.sys.epollCtl a.o a.epfd a.op a.fd a.arg).2 none
      (if a.stop then .closeNumber a.fd else
        .idle (s.sys.epollCtl a.o a.epfd a.op a.fd a.arg).1)) := by
  -- the first step takes the lock
  refine .head ?_ (alone_branch a)
  simp [stepCaller, hc, hl, place]

/-- An uninterrupted `base_timer_stop`. -/
theorem alone_timerStop {eplfd epfd tfd : Int} {settimeOk : Bool} {o : Sys.CtlOutcome}
    {s' : Conc} (hl : s.lock = none)
    (h : next eplfd s (.timerStop t settimeOk o epfd tfd) = some s') :
    Alone t s' (s.place t (s.sys.baseTimerStop settimeOk o epfd tfd) none (.idle 0)) := by
  simp only [next] at h
  split at h
  · cases h
    refine .trans (alone_ctl (a := stopArgs o epfd tfd) hl (by simp [goto])) (.single ?_)
    simp [stepCaller, place, goto, stopArgs, Sys.baseTimerStop]
  · cases h

theorem alone_freeTable (sys : Sys Int) (epfd : Int) (n : EpollNode) (rest : List (Int × Nat)) :
    Alone t (s.place t sys none (.freeTable epfd n rest))
      (s.place t (freeEpoll ((rest.map Prod.snd).foldl Sys.baseEpollFreeEventBlock sys) n) none
        (.closeNumber epfd)) := by
  induction rest generalizing sys with
  | nil =>
    apply Relation.ReflTransGen.single
    apply stepCaller_place
    rintro s rfl hl hc
    simp [stepCaller, hc, ← hl]
  | cons e rest ih =>
    obtain ⟨x, p⟩ := e
    refine .head ?_ (ih (sys.baseEpollFreeEventBlock p))
    apply stepCaller_place
    rintro s rfl hl hc
    simp [stepCaller, hc, ← hl]

/-- An uninterrupted `base_epoll_close`. -/
theorem alone_close {epfd : Int} (hl : s.lock = none) (hc : s.pc t = .close epfd) :
    Alone t s (s.place t (s.sys.baseEpollClose epfd) none (.idle 0)) := by
  simp only [Sys.baseEpollClose]
  by_cases hm : epfd = -1
  · rw [if_pos hm]
    refine .single ?_
    simp [stepCaller, hc, hm, place, goto, ← hl]
  · rw [if_neg hm]
    cases hn : s.sys.findEpoll epfd with
    | none =>
      refine .head (b := s.place t s.sys none (.closeNumber epfd)) ?_ (.single ?_)
      · simp [stepCaller, hc, hm, hn, hl, place, goto]
      · simp [stepCaller, place, goto]
    | some n =>
      have hfree := alone_freeTable (s := s) (t := t)
        { s.sys with epollList := s.sys.epollList.eraseP fun n => n.epollFd == epfd }
        epfd n (s.sys.table n.pEventHash).toList
      refine .head ?_ (.tail hfree ?_)
      · simp [stepCaller, hc, hm, hn, hl, place, goto]
      · simp only [stepCaller, place, goto, Function.update_self, Function.update_idem]
        rfl

end Alone

end Conc

end BaseCode.Epoll
