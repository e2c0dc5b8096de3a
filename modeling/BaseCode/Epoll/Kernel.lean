import Mathlib.Logic.Function.Basic

/-!
# The kernel side of epoll

What the module relies on: `epoll_create`, `epoll_ctl`, `timerfd_settime` and `close` as Linux
documents them. A descriptor number denotes an epoll instance while it is open; the instance
keeps, for each registered descriptor, the pointer last given in `data.ptr`. Failures that do
not follow from this state (no memory, a descriptor that cannot be polled, and so on) are
outcomes of the call, chosen by its caller.
-/

namespace BaseCode.Epoll

/-- The `op` argument of `epoll_ctl`. -/
inductive CtlOp
  | add
  | del
  | mod
  | other (op : Int)
  deriving DecidableEq, Repr

/-- Whether the operation fits the descriptor's registration: otherwise `EEXIST`, `ENOENT` or
`EINVAL`. -/
def CtlOp.applies (op : CtlOp) (registered : Option Nat) : Bool :=
  match op with
  | .add => registered.isNone
  | .del => registered.isSome
  | .mod => registered.isSome
  | .other _ => false

/-- The pointer it leaves with the descriptor. -/
def CtlOp.leaves (op : CtlOp) (ptr : Nat) : Option Nat :=
  match op with
  | .del => none
  | _ => some ptr

/-- Seconds and nanoseconds. -/
structure Timespec where
  sec : Int
  nsec : Int
  deriving DecidableEq, Repr

structure Itimerspec where
  value : Timespec
  interval : Timespec
  deriving DecidableEq, Repr

structure Kernel where
  /-- The epoll instance an open descriptor denotes. -/
  epollOf : Int → Option Nat
  /-- The interest sets: the `data.ptr` of each registered descriptor. -/
  interest : Nat → Int → Option Nat
  /-- The number of epoll instances made so far. -/
  instances : Nat
  /-- The setting of each armed timer. -/
  timers : Int → Option Itimerspec
  /-- How often each timer has been armed. -/
  armings : Int → Nat

namespace Kernel

def empty : Kernel := ⟨fun _ => none, fun _ _ => none, 0, fun _ => none, fun _ => 0⟩

/-- `epoll_create` returning `fd`; a negative number is its error return. -/
def epollCreate (k : Kernel) (fd : Int) : Kernel :=
  if 0 ≤ fd then
    { k with
      epollOf := Function.update k.epollOf fd (some k.instances)
      instances := k.instances + 1 }
  else k

def setInterest (k : Kernel) (i : Nat) (fd : Int) (ptr : Option Nat) : Kernel :=
  { k with interest := Function.update k.interest i (Function.update (k.interest i) fd ptr) }

/-- `epoll_ctl`, `none` when it returns `-1`. -/
def epollCtl (k : Kernel) (epfd : Int) (op : CtlOp) (fd : Int) (ptr : Nat) (ok : Bool) :
    Option Kernel :=
  match k.epollOf epfd with
  | none => none -- EBADF
  | some i =>
    if ok && op.applies (k.interest i fd) then some (k.setInterest i fd (op.leaves ptr)) else none

/-- Whether `epoll_ctl` succeeds. -/
def accepts (k : Kernel) (epfd : Int) (op : CtlOp) (fd : Int) (ok : Bool) : Bool :=
  match k.epollOf epfd with
  | none => false
  | some i => ok && op.applies (k.interest i fd)

/-- The interest set that `epfd` denotes. -/
def interestOf (k : Kernel) (epfd fd : Int) : Option Nat :=
  (k.epollOf epfd).bind fun i => k.interest i fd

/-- `close`: the number is free again, and a closed descriptor leaves every interest set. -/
def close (k : Kernel) (fd : Int) : Kernel :=
  { k with
    epollOf := Function.update k.epollOf fd none
    interest := fun i => Function.update (k.interest i) fd none
    timers := Function.update k.timers fd none }

/-- The times `timerfd_settime` accepts. -/
def validTimespec (t : Timespec) : Bool := decide (0 ≤ t.sec ∧ 0 ≤ t.nsec ∧ t.nsec < 1000000000)

/-- A setting whose first expiry is zero disarms the timer. -/
def Arms (its : Itimerspec) : Prop := its.value ≠ ⟨0, 0⟩

instance {its : Itimerspec} : Decidable (Arms its) := inferInstanceAs (Decidable (¬ _))

def setTimer (k : Kernel) (tfd : Int) (its : Itimerspec) : Kernel :=
  if Arms its then
    { k with
      timers := Function.update k.timers tfd (some its)
      armings := Function.update k.armings tfd (k.armings tfd + 1) }
  else { k with timers := Function.update k.timers tfd none }

/-- Whether `timerfd_settime` succeeds. -/
def settimeAccepts (its : Itimerspec) (ok : Bool) : Bool :=
  ok && validTimespec its.value && validTimespec its.interval

/-- `timerfd_settime`, `none` when it returns `-1`. -/
def timerfdSettime (k : Kernel) (tfd : Int) (its : Itimerspec) (ok : Bool) : Option Kernel :=
  if settimeAccepts its ok then some (k.setTimer tfd its) else none

variable {k k' : Kernel} {epfd fd x : Int} {op : CtlOp} {ptr i j : Nat} {ok : Bool}

@[simp] theorem setInterest_epollOf {p : Option Nat} :
    (k.setInterest i fd p).epollOf = k.epollOf := rfl

@[simp] theorem setInterest_instances {p : Option Nat} :
    (k.setInterest i fd p).instances = k.instances := rfl

@[simp] theorem setInterest_timers {p : Option Nat} :
    (k.setInterest i fd p).timers = k.timers := rfl

@[simp] theorem setInterest_armings {p : Option Nat} :
    (k.setInterest i fd p).armings = k.armings := rfl

@[simp] theorem setTimer_epollOf {its : Itimerspec} :
    (k.setTimer fd its).epollOf = k.epollOf := by
  unfold setTimer; split <;> rfl

@[simp] theorem setTimer_interest {its : Itimerspec} :
    (k.setTimer fd its).interest = k.interest := by
  unfold setTimer; split <;> rfl

theorem setTimer_timers {its : Itimerspec} :
    (k.setTimer fd its).timers fd = if Arms its then some its else none := by
  unfold setTimer; split <;> simp

theorem setTimer_armings {its : Itimerspec} :
    (k.setTimer fd its).armings fd = if Arms its then k.armings fd + 1 else k.armings fd := by
  unfold setTimer; split <;> simp

theorem setInterest_interest {p : Option Nat} :
    (k.setInterest i fd p).interest j x = if j = i ∧ x = fd then p else k.interest j x := by
  simp only [setInterest]
  by_cases hj : j = i
  · subst hj
    by_cases hx : x = fd
    · subst hx
      simp
    · simp [hx]
  · simp [hj]

theorem epollCreate_of_ne (hx : x ≠ fd) : (k.epollCreate fd).epollOf x = k.epollOf x := by
  simp only [epollCreate]
  split
  · exact Function.update_of_ne hx ..
  · rfl

theorem epollCreate_self (hfd : 0 ≤ fd) : (k.epollCreate fd).epollOf fd = some k.instances := by
  simp [epollCreate, hfd]

/-- A new descriptor that is closed again. -/
theorem epollCreate_close (hfree : k.epollOf fd = none) :
    ((k.epollCreate fd).close fd).epollOf = k.epollOf := by
  funext x
  by_cases hx : x = fd
  · simp [close, hx, hfree]
  · simpa [close, hx] using epollCreate_of_ne hx

/-- `epoll_ctl` succeeds on an open epoll whose registration the operation applies to. -/
theorem epollCtl_eq_some_iff :
    k.epollCtl epfd op fd ptr ok = some k' ↔
      ok = true ∧ ∃ i, k.epollOf epfd = some i ∧ op.applies (k.interest i fd) = true ∧
        k' = k.setInterest i fd (op.leaves ptr) := by
  simp only [epollCtl]
  cases k.epollOf epfd with
  | none => simp
  | some i => simp [and_assoc, eq_comm (a := k')]

theorem epollCtl_eq_none_iff :
    k.epollCtl epfd op fd ptr ok = none ↔
      ∀ i, k.epollOf epfd = some i → ok = true → op.applies (k.interest i fd) = false := by
  simp only [epollCtl]
  cases k.epollOf epfd with
  | none => simp
  | some i => simp

theorem epollCtl_isSome (ptr : Nat) :
    (k.epollCtl epfd op fd ptr ok).isSome = k.accepts epfd op fd ok := by
  simp only [epollCtl, accepts]
  cases k.epollOf epfd with
  | none => rfl
  | some i => cases h : (ok && op.applies (k.interest i fd)) <;> simp [h]

/-- MOD and DEL are refused by the state only for a descriptor that is not registered. -/
theorem interestOf_of_refused (hop : op = .mod ∨ op = .del)
    (h : k.epollCtl epfd op fd ptr true = none) : k.interestOf epfd fd = none := by
  rw [interestOf]
  cases hi : k.epollOf epfd with
  | none => rfl
  | some i =>
    have happ := epollCtl_eq_none_iff.mp h i hi rfl
    rcases hop with rfl | rfl
    · simpa [CtlOp.applies] using happ
    · simpa [CtlOp.applies] using happ

theorem epollOf_of_epollCtl (h : k.epollCtl epfd op fd ptr ok = some k') :
    k'.epollOf = k.epollOf := by
  obtain ⟨-, i, -, -, rfl⟩ := epollCtl_eq_some_iff.mp h
  rfl

/-- The interest set that the call was made on. -/
theorem interestOf_of_epollCtl (h : k.epollCtl epfd op fd ptr ok = some k') :
    k'.interestOf epfd x = if x = fd then op.leaves ptr else k.interestOf epfd x := by
  obtain ⟨-, i, hi, -, rfl⟩ := epollCtl_eq_some_iff.mp h
  simp [interestOf, hi, setInterest_interest]

end Kernel

end BaseCode.Epoll
