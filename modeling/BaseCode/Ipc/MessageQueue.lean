import BaseCode.Foundation.Runs
import Mathlib.Data.List.Basic

/-!
# The signal-driven message-queue reader

`src/ipc/mq.c` with `USE_SIG_NOTIFY`: `thread_productor` sends without blocking, and
`thread_mq_notify` registers for one notification, drains the queue until `EAGAIN` and
then waits for `SIGUSR1`. The kernel side is POSIX: the registration is one-shot, and it
is traded for a pending signal when a message arrives on an empty queue. The reader opens
the queue without blocking, so it never stands in the way of a notification.
-/

namespace BaseCode.MessageQueue
open Foundation

variable {α : Type}

inductive Errno where
  | eagain
  | ebusy
deriving DecidableEq, Repr

/-- The queue and the process's `SIGUSR1`, blocked in all threads and pending at most
once. -/
structure Kernel (α : Type) where
  messages : List α
  registered : Bool
  pending : Bool
deriving DecidableEq, Repr

/-- All messages are sent at one priority, so the queue is in order of arrival. -/
def mqSend (capacity : Nat) (k : Kernel α) (m : α) : Except Errno (Kernel α) :=
  if capacity ≤ k.messages.length then .error .eagain
  else if k.messages.isEmpty && k.registered then
    .ok { messages := [m], registered := false, pending := true }
  else .ok { k with messages := k.messages ++ [m] }

def mqNotify (k : Kernel α) : Except Errno (Kernel α) :=
  if k.registered then .error .ebusy else .ok { k with registered := true }

def mqReceive (k : Kernel α) : Except Errno (α × Kernel α) :=
  match k.messages with
  | [] => .error .eagain
  | m :: rest => .ok (m, { k with messages := rest })

/-- `none` while no signal is pending: the caller stays in the wait. -/
def sigwait (k : Kernel α) : Option (Kernel α) :=
  if k.pending then some { k with pending := false } else none

/-- Where `thread_mq_notify` stands: before `mq_notify`, before `mq_receive`, in
`sigwait`, or past its `EXIT` label. -/
inductive Reader where
  | notify
  | receive
  | sigwait
  | exit
deriving DecidableEq, Repr

structure State (α : Type) where
  kernel : Kernel α
  reader : Reader
  sent : List α
  received : List α

/-- One iteration of the reader's outer loop is a pass through the first three of its
places. -/
def readerStep (s : State α) : Option (State α) :=
  match s.reader with
  | .notify =>
    match mqNotify s.kernel with
    | .ok k => some { s with kernel := k, reader := .receive }
    | .error _ => some { s with reader := .exit }
  | .receive =>
    match mqReceive s.kernel with
    | .ok (m, k) => some { s with kernel := k, received := s.received ++ [m] }
    | .error _ => some { s with reader := .sigwait }
  | .sigwait => (sigwait s.kernel).map fun k => { s with kernel := k, reader := .notify }
  | .exit => none

/-- A message refused with `EAGAIN` is dropped by the producer, which goes on. -/
def producerStep (capacity : Nat) (s : State α) (m : α) : State α :=
  match mqSend capacity s.kernel m with
  | .ok k => { s with kernel := k, sent := s.sent ++ [m] }
  | .error _ => s

inductive Event (α : Type) where
  | send (m : α)
  | reader
deriving DecidableEq, Repr

def step (capacity : Nat) (s : State α) : Event α → Option (State α)
  | .send m => some (producerStep capacity s m)
  | .reader => readerStep s

/-- The reader starts on a queue just created: nothing sent, nothing registered, no
signal raised. Every interleaving of sends with the reader's calls is a run. -/
def system (α : Type) (capacity : Nat) : System (State α) (Event α) where
  Init s := s = ⟨⟨[], false, false⟩, .notify, [], []⟩
  Step s e s' := step capacity s e = some s'

/-- The link between registration, pending signal and queue at each place of the reader:
before `mq_notify` neither is there, and afterwards exactly one of the two. While the
registration lasts no message can have arrived since the queue was last seen empty. -/
def WakeInv (s : State α) : Prop :=
  match s.reader with
  | .notify => s.kernel.registered = false ∧ s.kernel.pending = false
  | .receive => s.kernel.pending = !s.kernel.registered
  | .sigwait => s.kernel.pending = !s.kernel.registered ∧
      (s.kernel.registered = true → s.kernel.messages = [])
  | .exit => False

/-- What a send can do: be refused, raise the signal on an empty queue, or join the
others. -/
theorem producerStep_cases (capacity : Nat) (s : State α) (m : α) :
    producerStep capacity s m = s ∨
    (s.kernel.messages = [] ∧ s.kernel.registered = true ∧ producerStep capacity s m =
      { s with kernel := ⟨[m], false, true⟩, sent := s.sent ++ [m] }) ∨
    ((s.kernel.messages = [] → s.kernel.registered = false) ∧ producerStep capacity s m =
      { s with
        kernel := { s.kernel with messages := s.kernel.messages ++ [m] }
        sent := s.sent ++ [m] }) := by
  simp only [producerStep, mqSend]
  by_cases hc : capacity ≤ s.kernel.messages.length
  · exact .inl (by rw [if_pos hc])
  · by_cases he : (s.kernel.messages.isEmpty && s.kernel.registered) = true
    · refine .inr (.inl ?_)
      rw [if_neg hc, if_pos he]
      simpa using he
    · refine .inr (.inr ⟨?_, by rw [if_neg hc, if_neg he]⟩)
      intro hm
      simpa [hm] using he

theorem wakeInv_send {s : State α} (h : WakeInv s) (capacity : Nat) (m : α) :
    WakeInv (producerStep capacity s m) := by
  obtain he | ⟨hm, hr, he⟩ | ⟨hm, he⟩ := producerStep_cases capacity s m
  · rwa [he]
  · rw [he]
    simp only [WakeInv] at h ⊢
    cases hp : s.reader with
    | notify => simp [hp, hr] at h
    | receive => rfl
    | sigwait => exact ⟨rfl, fun hf => absurd hf Bool.false_ne_true⟩
    | exit => simp [hp] at h
  · rw [he]
    simp only [WakeInv] at h ⊢
    cases hp : s.reader with
    | notify => simpa [hp] using h
    | receive => simpa [hp] using h
    | sigwait =>
      simp only [hp] at h ⊢
      refine ⟨h.1, fun hr => ?_⟩
      -- a registration that lasted would mean an empty queue, and then the send had
      -- traded it for the signal
      exact absurd (hm (h.2 hr)) (by simp [hr])
    | exit => simp [hp] at h

/-- What the reader can do next, place by place. -/
theorem readerStep_cases {s s' : State α} (hs : readerStep s = some s') :
    (s.reader = .notify ∧ s.kernel.registered = false ∧
      s' = { s with kernel := { s.kernel with registered := true }, reader := .receive }) ∨
    (s.reader = .notify ∧ s.kernel.registered = true ∧ s' = { s with reader := .exit }) ∨
    (s.reader = .receive ∧ s.kernel.messages = [] ∧ s' = { s with reader := .sigwait }) ∨
    (s.reader = .receive ∧ ∃ m rest, s.kernel.messages = m :: rest ∧
      s' = { s with
        kernel := { s.kernel with messages := rest }
        received := s.received ++ [m] }) ∨
    (s.reader = .sigwait ∧ s.kernel.pending = true ∧
      s' = { s with kernel := { s.kernel with pending := false }, reader := .notify }) := by
  simp only [readerStep] at hs
  cases hp : s.reader with
  | notify =>
    cases hr : s.kernel.registered with
    | false => exact .inl ⟨rfl, rfl, by simpa [hp, mqNotify, hr] using hs.symm⟩
    | true => exact .inr (.inl ⟨rfl, rfl, by simpa [hp, mqNotify, hr] using hs.symm⟩)
  | receive =>
    cases hm : s.kernel.messages with
    | nil => exact .inr (.inr (.inl ⟨rfl, rfl, by simpa [hp, mqReceive, hm] using hs.symm⟩))
    | cons m rest =>
      exact .inr (.inr (.inr (.inl
        ⟨rfl, m, rest, rfl, by simpa [hp, mqReceive, hm] using hs.symm⟩)))
  | sigwait =>
    cases hpend : s.kernel.pending with
    | false => simp [hp, sigwait, hpend] at hs
    | true =>
      exact .inr (.inr (.inr (.inr ⟨rfl, rfl, by simpa [hp, sigwait, hpend] using hs.symm⟩)))
  | exit => simp [hp] at hs

theorem wakeInv_reader {s s' : State α} (h : WakeInv s) (hs : readerStep s = some s') :
    WakeInv s' := by
  simp only [WakeInv] at h
  obtain ⟨hp, hr, rfl⟩ | ⟨hp, hr, rfl⟩ | ⟨hp, hm, rfl⟩ | ⟨hp, m, rest, hm, rfl⟩ | ⟨hp, hpend, rfl⟩ :=
    readerStep_cases hs
  · simp only [hp] at h
    simp [WakeInv, h.2]
  · simp only [hp] at h
    exact absurd h.1 (by simp [hr])
  · simp only [hp] at h
    exact ⟨h, fun _ => hm⟩
  · simp only [hp] at h
    simpa [WakeInv, hp] using h
  · simp only [hp] at h
    have hr : s.kernel.registered = false := by simpa [hpend] using h.1
    exact ⟨hr, rfl⟩

theorem wakeInv_reachable {capacity : Nat} {s : State α}
    (h : (system α capacity).Reachable s) : WakeInv s := by
  refine h.invariant ?_ ?_
  · rintro _ rfl
    exact ⟨rfl, rfl⟩
  · intro s e s' hi hs
    cases e with
    | send m =>
      have he : producerStep capacity s m = s' := by simpa [system, step] using hs
      rw [← he]
      exact wakeInv_send hi capacity m
    | reader => exact wakeInv_reader hi hs

/-- No message is lost or reordered: what was received, followed by what is queued, is
what was sent. -/
theorem received_append_messages {capacity : Nat} {s : State α}
    (h : (system α capacity).Reachable s) : s.received ++ s.kernel.messages = s.sent := by
  refine h.invariant (I := fun s => s.received ++ s.kernel.messages = s.sent) ?_ ?_
  · rintro _ rfl
    rfl
  · intro s e s' hi hs
    cases e with
    | send m =>
      have he : producerStep capacity s m = s' := by simpa [system, step] using hs
      rw [← he]
      obtain he | ⟨hm, -, he⟩ | ⟨-, he⟩ := producerStep_cases capacity s m
      · rwa [he]
      · rw [he]
        simpa [hm] using hi
      · rw [he]
        simp [← hi]
    | reader =>
      obtain ⟨-, -, rfl⟩ | ⟨-, -, rfl⟩ | ⟨-, -, rfl⟩ | ⟨-, m, rest, hm, rfl⟩ | ⟨-, -, rfl⟩ :=
        readerStep_cases hs
      · exact hi
      · exact hi
      · exact hi
      · simpa [hm] using hi
      · exact hi

/-- No wake-up is lost: `mq_notify` in the loop finds no registration, so the reader never
leaves it, and a reader that waits with no signal pending waits on an empty queue with its
registration in place. -/
theorem no_lost_wakeup {capacity : Nat} {s : State α} (h : (system α capacity).Reachable s) :
    (s.reader = .notify → mqNotify s.kernel ≠ .error .ebusy) ∧ s.reader ≠ .exit ∧
    (s.reader = .sigwait → s.kernel.pending = false →
      s.kernel.messages = [] ∧ s.kernel.registered = true) := by
  have hi := wakeInv_reachable h
  simp only [WakeInv] at hi
  refine ⟨?_, ?_, ?_⟩
  · intro hp
    simp only [hp] at hi
    simp [mqNotify, hi.1]
  · intro hp
    simp [hp] at hi
  · intro hp hpend
    simp only [hp] at hi
    have hr : s.kernel.registered = true := by simpa [hpend] using hi.1
    exact ⟨hi.2 hr, hr⟩

/-- A message that arrives between two drains is picked up: the reader is woken, drains it
and waits again. -/
theorem no_lost_wakeup_second_round : ∃ s, (system Nat 10).Reachable s ∧
    s.reader = .sigwait ∧ s.received = [99] ∧
    s.kernel.messages = [] ∧ s.kernel.registered = true := by
  have h0 : (system Nat 10).Reachable ⟨⟨[], false, false⟩, .notify, [], []⟩ := .init rfl
  have h : (system Nat 10).Reachable ⟨⟨[], true, false⟩, .sigwait, [99], [99]⟩ :=
    h0.replay (step 10) (fun _ _ _ hs => hs)
      [.reader, .reader, .send 99, .reader, .reader, .reader, .reader] rfl
  obtain ⟨-, -, hw⟩ := no_lost_wakeup h
  exact ⟨_, h, rfl, rfl, hw rfl rfl⟩

end BaseCode.MessageQueue
