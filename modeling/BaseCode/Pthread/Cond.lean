import Mathlib.Data.Fintype.Basic
import BaseCode.Foundation.Runs

/-!
# Producers and consumers around a condition variable

`src/pthread_cond.c` for any number of consumers and producers, one step for each call and
each access to a shared variable. The mutex and the condition variable are those of POSIX: a
wait gives up the mutex and blocks in one step, a signal wakes one or more of the threads that
are blocked, a thread may also wake without one, and takes the mutex again before it goes on.
-/

namespace BaseCode.PthreadCond
open Foundation

/-- Where `consume` stands. The mutex is held at `check`, `take` and `unlock`. -/
inductive Consumer where
  | lock
  | check
  | wait
  | woken
  | take
  | unlock
  deriving DecidableEq, Repr

/-- Where `produce` stands. The mutex is held everywhere but at `lock`. -/
inductive Producer where
  | lock
  | check
  | add
  | signal
  | unlock
  deriving DecidableEq, Repr

/-- Who holds `g_mutex`. -/
inductive Owner (n m : Nat) where
  | nobody
  | consumer (i : Fin n)
  | producer (j : Fin m)
  deriving DecidableEq, Repr

/-- `consumed` counts the products taken; the program does not keep it. -/
structure State (n m : Nat) where
  owner : Owner n m
  nready : Int
  var : Int
  consumers : Fin n → Consumer
  producers : Fin m → Producer
  consumed : Int

variable {n m : Nat}

def State.setConsumer (s : State n m) (i : Fin n) (c : Consumer) : State n m :=
  { s with consumers := Function.update s.consumers i c }

def State.setProducer (s : State n m) (j : Fin m) (p : Producer) : State n m :=
  { s with producers := Function.update s.producers j p }

@[simp] theorem setConsumer_owner {s : State n m} {i : Fin n} {c : Consumer} :
    (s.setConsumer i c).owner = s.owner := rfl

@[simp] theorem setConsumer_nready {s : State n m} {i : Fin n} {c : Consumer} :
    (s.setConsumer i c).nready = s.nready := rfl

@[simp] theorem setProducer_owner {s : State n m} {j : Fin m} {p : Producer} :
    (s.setProducer j p).owner = s.owner := rfl

/-- The next step of a consumer. At `wait` it is a wake-up without a signal. -/
def consume (s : State n m) (i : Fin n) : Option (State n m) :=
  match s.consumers i with
  | .lock =>
    if s.owner = .nobody then some { s.setConsumer i .check with owner := .consumer i } else none
  | .check =>
    if s.nready ≤ 0 then some { s.setConsumer i .wait with owner := .nobody }
    else some (s.setConsumer i .take)
  | .wait => some (s.setConsumer i .woken)
  | .woken =>
    if s.owner = .nobody then some { s.setConsumer i .check with owner := .consumer i } else none
  | .take =>
    some { s.setConsumer i .unlock with nready := s.nready - 1, consumed := s.consumed + 1 }
  | .unlock => some { s.setConsumer i .lock with owner := .nobody }

/-- The blocked threads among `chosen` wake up. -/
def wake (s : State n m) (chosen : Fin n → Bool) : State n m :=
  { s with consumers := fun i =>
      if chosen i ∧ s.consumers i = .wait then .woken else s.consumers i }

/-- A signal may wake these threads: if anyone is blocked, one of them at least. -/
def MayWake (s : State n m) (chosen : Fin n → Bool) : Prop :=
  (∃ i, s.consumers i = .wait) → ∃ i, s.consumers i = .wait ∧ chosen i = true

instance (s : State n m) (chosen : Fin n → Bool) : Decidable (MayWake s chosen) :=
  inferInstanceAs (Decidable (_ → _))

/-- The next step of a producer, with the threads that wake up if it is a signal. -/
def produce (s : State n m) (j : Fin m) (chosen : Fin n → Bool) : Option (State n m) :=
  match s.producers j with
  | .lock =>
    if s.owner = .nobody then some { s.setProducer j .check with owner := .producer j } else none
  | .check =>
    if s.var > 0 then some { s.setProducer j .add with var := s.var - 1 }
    else some (s.setProducer j .unlock)
  | .add => some { s.setProducer j .signal with nready := s.nready + 5 }
  | .signal => if MayWake s chosen then some (wake (s.setProducer j .unlock) chosen) else none
  | .unlock => some { s.setProducer j .lock with owner := .nobody }

inductive Event (n m : Nat) where
  | consumer (i : Fin n)
  | producer (j : Fin m) (chosen : Fin n → Bool)

def step (s : State n m) : Event n m → Option (State n m)
  | .consumer i => consume s i
  | .producer j chosen => produce s j chosen

/-- Nothing is made yet; `var` starts at 2. -/
def State.start : State n m := ⟨.nobody, 0, 2, fun _ => .lock, fun _ => .lock, 0⟩

/-- `pthread_cond_demo` with `n` consumers and `m` producers. -/
def demo (n m : Nat) : System (State n m) (Event n m) where
  Init s := s = .start
  Step s e s' := step s e = some s'

/-- The places where a consumer holds the mutex. -/
def Consumer.Inside : Consumer → Prop
  | .check | .take | .unlock => True
  | .lock | .wait | .woken => False

/-- The places where a producer holds the mutex. -/
def Producer.Inside : Producer → Prop
  | .lock => False
  | .check | .add | .signal | .unlock => True

/-- The products that are paid for and not yet on the shelf. -/
def State.owed (s : State n m) : Int :=
  match s.owner with
  | .producer j => if s.producers j = .add then 5 else 0
  | _ => 0

/-- A producer is about to signal. -/
def State.Signalling (s : State n m) : Prop := ∃ j, s.owner = .producer j ∧ s.producers j = .signal

/-- The invariant: the mutex is with the one thread that is inside, products are neither lost
nor taken twice, and while there are products not all consumers are blocked. -/
structure Inv (s : State n m) : Prop where
  consumer : ∀ i, (s.consumers i).Inside ↔ s.owner = .consumer i
  producer : ∀ j, (s.producers j).Inside ↔ s.owner = .producer j
  var_nonneg : 0 ≤ s.var
  nready_nonneg : 0 ≤ s.nready
  taking : ∀ i, s.consumers i = .take → 0 < s.nready
  conserved : s.consumed + s.nready + s.owed = 5 * (2 - s.var)
  awake : 0 < s.nready → (∃ i, s.consumers i ≠ .wait) ∨ s.Signalling

section Steps

variable {s s' : State n m} {i k : Fin n} {j : Fin m}

theorem inv_start : Inv (State.start : State n m) where
  consumer _ := by simp [State.start, Consumer.Inside]
  producer _ := by simp [State.start, Producer.Inside]
  var_nonneg := by simp [State.start]
  nready_nonneg := by simp [State.start]
  taking _ h := by simp [State.start] at h
  conserved := by rfl
  awake h := absurd h (Int.lt_irrefl 0)

/-- What a consumer can do. -/
theorem consume_cases (h : consume s i = some s') :
    ((s.consumers i = .lock ∨ s.consumers i = .woken) ∧ s.owner = .nobody ∧
      s' = { s.setConsumer i .check with owner := .consumer i }) ∨
    (s.consumers i = .check ∧ s.nready ≤ 0 ∧
      s' = { s.setConsumer i .wait with owner := .nobody }) ∨
    (s.consumers i = .check ∧ 0 < s.nready ∧ s' = s.setConsumer i .take) ∨
    (s.consumers i = .wait ∧ s' = s.setConsumer i .woken) ∨
    (s.consumers i = .take ∧ s' =
      { s.setConsumer i .unlock with nready := s.nready - 1, consumed := s.consumed + 1 }) ∨
    (s.consumers i = .unlock ∧ s' = { s.setConsumer i .lock with owner := .nobody }) := by
  unfold consume at h
  cases hc : s.consumers i <;> simp only [hc] at h
  · by_cases ho : s.owner = .nobody
    · simp only [if_pos ho, Option.some.injEq] at h
      exact .inl ⟨.inl rfl, ho, h.symm⟩
    · simp [ho] at h
  · by_cases hn : s.nready ≤ 0
    · simp only [if_pos hn, Option.some.injEq] at h
      exact .inr (.inl ⟨rfl, hn, h.symm⟩)
    · simp only [if_neg hn, Option.some.injEq] at h
      exact .inr (.inr (.inl ⟨rfl, Int.not_le.mp hn, h.symm⟩))
  · simp only [Option.some.injEq] at h
    exact .inr (.inr (.inr (.inl ⟨rfl, h.symm⟩)))
  · by_cases ho : s.owner = .nobody
    · simp only [if_pos ho, Option.some.injEq] at h
      exact .inl ⟨.inr rfl, ho, h.symm⟩
    · simp [ho] at h
  · simp only [Option.some.injEq] at h
    exact .inr (.inr (.inr (.inr (.inl ⟨rfl, h.symm⟩))))
  · simp only [Option.some.injEq] at h
    exact .inr (.inr (.inr (.inr (.inr ⟨rfl, h.symm⟩))))

/-- What a producer can do. -/
theorem produce_cases {chosen : Fin n → Bool} (h : produce s j chosen = some s') :
    (s.producers j = .lock ∧ s.owner = .nobody ∧
      s' = { s.setProducer j .check with owner := .producer j }) ∨
    (s.producers j = .check ∧ 0 < s.var ∧
      s' = { s.setProducer j .add with var := s.var - 1 }) ∨
    (s.producers j = .check ∧ s' = s.setProducer j .unlock) ∨
    (s.producers j = .add ∧ s' = { s.setProducer j .signal with nready := s.nready + 5 }) ∨
    (s.producers j = .signal ∧ MayWake s chosen ∧
      s' = wake (s.setProducer j .unlock) chosen) ∨
    (s.producers j = .unlock ∧ s' = { s.setProducer j .lock with owner := .nobody }) := by
  unfold produce at h
  cases hc : s.producers j <;> simp only [hc] at h
  · by_cases ho : s.owner = .nobody
    · simp only [if_pos ho, Option.some.injEq] at h
      exact .inl ⟨rfl, ho, h.symm⟩
    · simp [ho] at h
  · by_cases hv : s.var > 0
    · simp only [if_pos hv, Option.some.injEq] at h
      exact .inr (.inl ⟨rfl, hv, h.symm⟩)
    · simp only [if_neg hv, Option.some.injEq] at h
      exact .inr (.inr (.inl ⟨rfl, h.symm⟩))
  · simp only [Option.some.injEq] at h
    exact .inr (.inr (.inr (.inl ⟨rfl, h.symm⟩)))
  · by_cases hw : MayWake s chosen
    · simp only [if_pos hw, Option.some.injEq] at h
      exact .inr (.inr (.inr (.inr (.inl ⟨rfl, hw, h.symm⟩))))
    · simp [hw] at h
  · simp only [Option.some.injEq] at h
    exact .inr (.inr (.inr (.inr (.inr ⟨rfl, h.symm⟩))))

theorem owed_eq_zero (ho : ∀ j, s.owner ≠ .producer j) : s.owed = 0 := by
  unfold State.owed
  split
  · exact absurd ‹_› (ho _)
  · rfl

/-- A step of a consumer that has the mutex or finds it free. -/
theorem Inv.of_consumer {c : Consumer} {o : Owner n m} {r d : Int} (h : Inv s)
    (ho : s.owner = .nobody ∨ s.owner = .consumer i) (ho' : o = .nobody ∨ o = .consumer i)
    (hc : c.Inside ↔ o = .consumer i) (hr : 0 ≤ r) (htake : c = .take → 0 < r)
    (hsum : d + r = s.consumed + s.nready) (hwait : 0 < r → c ≠ .wait) :
    Inv { s.setConsumer i c with owner := o, nready := r, consumed := d } where
  consumer k := by
    show (Function.update s.consumers i c k).Inside ↔ o = .consumer k
    by_cases hk : k = i
    · subst hk
      rwa [Function.update_self]
    · rw [Function.update_of_ne hk, h.consumer k]
      rcases ho with ho | ho <;> rcases ho' with rfl | rfl <;> simp [ho, Ne.symm hk]
  producer j := by
    show (s.producers j).Inside ↔ o = .producer j
    rw [h.producer j]
    rcases ho with ho | ho <;> rcases ho' with rfl | rfl <;> simp [ho]
  var_nonneg := h.var_nonneg
  nready_nonneg := hr
  taking k hk := by
    have hk : Function.update s.consumers i c k = .take := hk
    by_cases hki : k = i
    · subst hki
      rw [Function.update_self] at hk
      exact htake hk
    · -- another consumer at `take` would have the mutex
      rw [Function.update_of_ne hki] at hk
      have hin := (h.consumer k).mp (by rw [hk]; trivial)
      rcases ho with ho | ho
      · exact absurd (hin.symm.trans ho) (by simp)
      · exact absurd (hin.symm.trans ho) (by simpa using hki)
  conserved := by
    have hcons := h.conserved
    rw [owed_eq_zero (by rcases ho with ho | ho <;> simp [ho])] at hcons
    rw [owed_eq_zero (by rcases ho' with rfl | rfl <;> simp)]
    show d + r + 0 = 5 * (2 - s.var)
    omega
  awake hpos := .inl ⟨i, by
    show Function.update s.consumers i c i ≠ .wait
    rw [Function.update_self]
    exact hwait hpos⟩

/-- Blocked consumers wake up. -/
theorem Inv.of_wake {f : Fin n → Consumer} (h : Inv s)
    (hf : ∀ k, f k = s.consumers k ∨ (s.consumers k = .wait ∧ f k = .woken)) :
    Inv { s with consumers := f } where
  consumer k := by
    show (f k).Inside ↔ s.owner = .consumer k
    rw [← h.consumer k]
    rcases hf k with hk | ⟨hk, hk'⟩
    · rw [hk]
    · rw [hk, hk']
      exact Iff.rfl
  producer := h.producer
  var_nonneg := h.var_nonneg
  nready_nonneg := h.nready_nonneg
  taking k hk := by
    have hk : f k = .take := hk
    rcases hf k with heq | ⟨-, heq⟩
    · exact h.taking k (heq.symm.trans hk)
    · exact absurd (heq.symm.trans hk) (by simp)
  conserved := h.conserved
  awake hpos := by
    rcases h.awake hpos with ⟨k, hk⟩ | hsig
    · refine .inl ⟨k, ?_⟩
      show f k ≠ .wait
      rcases hf k with heq | ⟨-, heq⟩
      · rwa [heq]
      · rw [heq]
        simp
    · exact .inr hsig

/-- A step of a producer that has the mutex or finds it free. -/
theorem Inv.of_producer {p : Producer} {o : Owner n m} {r v : Int} (h : Inv s)
    (ho : s.owner = .nobody ∨ s.owner = .producer j) (ho' : o = .nobody ∨ o = .producer j)
    (hp : p.Inside ↔ o = .producer j) (hr : 0 ≤ r) (hv : 0 ≤ v)
    (hsum : s.consumed + r + (if p = .add then 5 else 0) = 5 * (2 - v))
    (hawake : 0 < r → (∃ i, s.consumers i ≠ .wait) ∨ p = .signal) :
    Inv { s.setProducer j p with owner := o, nready := r, var := v } where
  consumer k := by
    show (s.consumers k).Inside ↔ o = .consumer k
    rw [h.consumer k]
    rcases ho with ho | ho <;> rcases ho' with rfl | rfl <;> simp [ho]
  producer l := by
    show (Function.update s.producers j p l).Inside ↔ o = .producer l
    by_cases hl : l = j
    · subst hl
      rwa [Function.update_self]
    · rw [Function.update_of_ne hl, h.producer l]
      rcases ho with ho | ho <;> rcases ho' with rfl | rfl <;> simp [ho, Ne.symm hl]
  var_nonneg := hv
  nready_nonneg := hr
  taking k hk := by
    have hin := (h.consumer k).mp (by rw [show s.consumers k = .take from hk]; trivial)
    rcases ho with ho | ho <;> exact absurd (hin.symm.trans ho) (by simp)
  conserved := by
    rw [← hsum]
    show s.consumed + r + _ = _
    congr 1
    rcases ho' with rfl | rfl
    · have hne : p ≠ .add := by
        rintro rfl
        exact absurd (hp.mp trivial) (by simp)
      rw [if_neg hne]
      rfl
    · show (if Function.update s.producers j p j = .add then (5 : Int) else 0) = _
      rw [Function.update_self]
  awake hpos := by
    rcases hawake hpos with hi | rfl
    · exact .inl hi
    · have hown : o = .producer j := hp.mp trivial
      refine .inr ⟨j, hown, ?_⟩
      show Function.update s.producers j .signal j = .signal
      exact Function.update_self ..

theorem Inv.owner_of_inside (h : Inv s) (hin : (s.consumers i).Inside) :
    s.owner = .nobody ∨ s.owner = .consumer i := .inr ((h.consumer i).mp hin)

theorem consume_inv (h : Inv s) (hs : consume s i = some s') : Inv s' := by
  obtain ⟨hc, ho, rfl⟩ | ⟨hc, hn, rfl⟩ | ⟨hc, hn, rfl⟩ | ⟨hc, rfl⟩ | ⟨hc, rfl⟩ | ⟨hc, rfl⟩ :=
    consume_cases hs
  · exact h.of_consumer (.inl ho) (.inr rfl) (by simp [Consumer.Inside]) h.nready_nonneg
      (by simp) rfl (by simp)
  · exact h.of_consumer (h.owner_of_inside (by rw [hc]; trivial)) (.inl rfl)
      (by simp [Consumer.Inside]) h.nready_nonneg (by simp) rfl
      fun hpos => absurd hpos (Int.not_lt.mpr hn)
  · have hown := (h.consumer i).mp (by rw [hc]; trivial)
    exact h.of_consumer (.inr hown) (.inr hown) (by simp [Consumer.Inside, hown])
      h.nready_nonneg (fun _ => hn) rfl (by simp)
  · refine h.of_wake fun k => ?_
    by_cases hk : k = i
    · subst hk
      exact .inr ⟨hc, Function.update_self ..⟩
    · exact .inl (Function.update_of_ne hk ..)
  · have hown := (h.consumer i).mp (by rw [hc]; trivial)
    have hpos := h.taking i hc
    exact h.of_consumer (.inr hown) (.inr hown) (by simp [Consumer.Inside, hown])
      (by omega) (by simp) (by omega) (by simp)
  · exact h.of_consumer (h.owner_of_inside (by rw [hc]; trivial)) (.inl rfl)
      (by simp [Consumer.Inside]) h.nready_nonneg (by simp) rfl (by simp)

/-- After a signal someone is not blocked. -/
theorem exists_awake {chosen : Fin n → Bool} (hn : 0 < n) (hw : MayWake s chosen) :
    ∃ i, (wake s chosen).consumers i ≠ .wait := by
  by_cases hall : ∃ i, s.consumers i = .wait
  · obtain ⟨i, hi, hch⟩ := hw hall
    refine ⟨i, ?_⟩
    show (if chosen i ∧ s.consumers i = .wait then Consumer.woken else s.consumers i) ≠ .wait
    rw [if_pos ⟨hch, hi⟩]
    simp
  · refine ⟨⟨0, hn⟩, fun hz => hall ⟨⟨0, hn⟩, ?_⟩⟩
    have hz : (if chosen ⟨0, hn⟩ ∧ s.consumers ⟨0, hn⟩ = .wait then Consumer.woken
      else s.consumers ⟨0, hn⟩) = .wait := hz
    split at hz
    · cases hz
    · exact hz

theorem owed_of_producer (ho : s.owner = .producer j) :
    s.owed = if s.producers j = .add then 5 else 0 := by
  unfold State.owed
  rw [ho]

theorem Inv.awake_of_not_signal (h : Inv s) (hsig : ¬ s.Signalling) (hpos : 0 < s.nready) :
    ∃ i, s.consumers i ≠ .wait := by
  rcases h.awake hpos with hi | hs
  · exact hi
  · exact absurd hs hsig

theorem not_signalling (ho : s.owner = .producer j) (hp : s.producers j ≠ .signal) :
    ¬ s.Signalling := by
  rintro ⟨l, hl, hs⟩
  rw [ho] at hl
  cases hl
  exact hp hs

theorem produce_inv (hn : 0 < n) {chosen : Fin n → Bool} (h : Inv s)
    (hs : produce s j chosen = some s') : Inv s' := by
  have hcons := h.conserved
  have hown : (s.producers j).Inside → s.owner = .producer j := (h.producer j).mp
  obtain ⟨hp, ho, rfl⟩ | ⟨hp, hv, rfl⟩ | ⟨hp, rfl⟩ | ⟨hp, rfl⟩ | ⟨hp, hw, rfl⟩ | ⟨hp, rfl⟩ :=
    produce_cases hs
  · rw [owed_eq_zero (by simp [ho])] at hcons
    refine h.of_producer (.inl ho) (.inr rfl) (by simp [Producer.Inside]) h.nready_nonneg
      h.var_nonneg hcons fun hpos => .inl (h.awake_of_not_signal ?_ hpos)
    rintro ⟨l, hl, -⟩
    exact absurd (ho.symm.trans hl) (by simp)
  · have ho := hown (by rw [hp]; trivial)
    rw [owed_of_producer ho, hp, if_neg (by simp)] at hcons
    refine h.of_producer (.inr ho) (.inr ho) (by simp [Producer.Inside, ho]) h.nready_nonneg
      (by omega) ?_ fun hpos => .inl (h.awake_of_not_signal (not_signalling ho (by simp [hp])) hpos)
    rw [if_pos rfl]
    show s.consumed + s.nready + 5 = _
    omega
  · have ho := hown (by rw [hp]; trivial)
    rw [owed_of_producer ho, hp, if_neg (by simp)] at hcons
    exact h.of_producer (.inr ho) (.inr ho) (by simp [Producer.Inside, ho]) h.nready_nonneg
      h.var_nonneg hcons
      fun hpos => .inl (h.awake_of_not_signal (not_signalling ho (by simp [hp])) hpos)
  · have ho := hown (by rw [hp]; trivial)
    rw [owed_of_producer ho, hp, if_pos rfl] at hcons
    have hr := h.nready_nonneg
    refine h.of_producer (.inr ho) (.inr ho) (by simp [Producer.Inside, ho]) (by omega)
      h.var_nonneg ?_ fun _ => .inr rfl
    rw [if_neg (by simp)]
    show s.consumed + (s.nready + 5) + 0 = 5 * (2 - s.var)
    omega
  · have ho := hown (by rw [hp]; trivial)
    rw [owed_of_producer ho, hp, if_neg (by simp)] at hcons
    have hwake : Inv (wake s chosen) := h.of_wake fun k => by
      show (if chosen k ∧ s.consumers k = .wait then Consumer.woken else s.consumers k) = _ ∨ _
      split
      · exact .inr ⟨(‹_› : _ ∧ _).2, rfl⟩
      · exact .inl rfl
    exact hwake.of_producer (.inr ho) (.inr ho) (by simp [Producer.Inside, ho])
      h.nready_nonneg h.var_nonneg hcons fun _ => .inl (exists_awake hn hw)
  · have ho := hown (by rw [hp]; trivial)
    rw [owed_of_producer ho, hp, if_neg (by simp)] at hcons
    exact h.of_producer (.inr ho) (.inl rfl) (by simp [Producer.Inside]) h.nready_nonneg
      h.var_nonneg hcons
      fun hpos => .inl (h.awake_of_not_signal (not_signalling ho (by simp [hp])) hpos)

theorem inv_reachable (hn : 0 < n) (h : (demo n m).Reachable s) : Inv s := by
  apply h.invariant
  · rintro _ rfl
    exact inv_start
  · intro s e s' hi hs
    cases e with
    | consumer i => exact consume_inv hi hs
    | producer j chosen => exact produce_inv hn hi hs

/-- In every interleaving at most one thread is inside the mutex, no product is lost or taken
twice, and `nready` never goes below zero. The five products that a producer has made and not
added yet are the only ones outside the sum. -/
theorem products_conserved (hn : 0 < n) (h : (demo n m).Reachable s) :
    (∀ i k, (s.consumers i).Inside → (s.consumers k).Inside → i = k) ∧
    (∀ j l, (s.producers j).Inside → (s.producers l).Inside → j = l) ∧
    (∀ i j, (s.consumers i).Inside → ¬ (s.producers j).Inside) ∧
    0 ≤ s.nready ∧ 0 ≤ s.var ∧ s.consumed + s.nready + s.owed = 5 * (2 - s.var) ∧
    (∀ j, s.producers j = .add → s.owed = 5) ∧
    ((∀ j, s.producers j ≠ .add) → s.owed = 0) := by
  have hi := inv_reachable hn h
  refine ⟨fun i k h1 h2 => ?_, fun j l h1 h2 => ?_, fun i j h1 h2 => ?_, hi.nready_nonneg,
    hi.var_nonneg, hi.conserved, fun j hadd => ?_, fun hadd => ?_⟩
  · have := (hi.consumer i).mp h1
    rw [(hi.consumer k).mp h2] at this
    simpa using this.symm
  · have := (hi.producer j).mp h1
    rw [(hi.producer l).mp h2] at this
    simpa using this.symm
  · have := (hi.consumer i).mp h1
    rw [(hi.producer j).mp h2] at this
    simp at this
  · have hinside : (s.producers j).Inside := by simp [hadd, Producer.Inside]
    rw [owed_of_producer ((hi.producer j).mp hinside), if_pos hadd]
  · unfold State.owed
    split
    · rw [if_neg (hadd _)]
    · rfl

/-- While there are products some thread that is not blocked can take its next step, although
one signal is sent for five products; and when all consumers are blocked with no producer
inside, everything made has been consumed. -/
theorem products_never_stranded (hn : 0 < n) (h : (demo n m).Reachable s) :
    (0 < s.nready → (∃ i, s.consumers i ≠ .wait ∧ (consume s i).isSome = true) ∨
      ∃ j chosen, s.owner = .producer j ∧ (produce s j chosen).isSome = true) ∧
    ((∀ i, s.consumers i = .wait) → (∀ j, ¬ (s.producers j).Inside) →
      s.nready = 0 ∧ s.consumed = 5 * (2 - s.var)) := by
  have hi := inv_reachable hn h
  constructor
  · intro hpos
    cases ho : s.owner with
    | nobody =>
      have hsig : ¬ s.Signalling := by
        rintro ⟨l, hl, -⟩
        exact absurd (ho.symm.trans hl) (by simp)
      obtain ⟨i, hi'⟩ := hi.awake_of_not_signal hsig hpos
      refine .inl ⟨i, hi', ?_⟩
      have hout : ¬ (s.consumers i).Inside := fun hin =>
        absurd (ho.symm.trans ((hi.consumer i).mp hin)) (by simp)
      cases hc : s.consumers i <;> simp [hc, Consumer.Inside] at hout hi' <;>
        simp [consume, hc, ho]
    | consumer i =>
      have hin := (hi.consumer i).mpr ho
      refine .inl ⟨i, ?_, ?_⟩
      · intro hw
        rw [hw] at hin
        exact hin
      · cases hc : s.consumers i <;> simp [hc, Consumer.Inside] at hin <;> simp only [consume, hc]
        · split <;> rfl
        · rfl
        · rfl
    | producer j =>
      have hin := (hi.producer j).mpr ho
      refine .inr ⟨j, fun _ => true, rfl, ?_⟩
      have hmay : MayWake s fun _ => true := by
        rintro ⟨i, hi⟩
        exact ⟨i, hi, rfl⟩
      cases hp : s.producers j <;> simp [hp, Producer.Inside] at hin <;> simp only [produce, hp]
      · split <;> rfl
      · rfl
      · simp [hmay]
      · rfl
  · intro hall hout
    have hsig : ¬ s.Signalling := by
      rintro ⟨l, -, hl⟩
      exact hout l (by rw [hl]; trivial)
    have hzero : s.nready = 0 := by
      by_contra hne
      have hpos : 0 < s.nready := lt_of_le_of_ne hi.nready_nonneg (Ne.symm hne)
      obtain ⟨i, hi'⟩ := hi.awake_of_not_signal hsig hpos
      exact hi' (hall i)
    have howner : ∀ j, s.owner ≠ .producer j := fun j ho => hout j ((hi.producer j).mpr ho)
    have hcons := hi.conserved
    rw [owed_eq_zero howner, hzero] at hcons
    exact ⟨hzero, by omega⟩

end Steps

/-- Both consumers block, the producer wakes one of them, and that one takes a product. -/
def firstProduct : List (Event 2 1) :=
  [.consumer 0, .consumer 0, .consumer 1, .consumer 1, .producer 0 fun _ => false,
   .producer 0 fun _ => false, .producer 0 fun _ => false, .producer 0 fun i => i = 1,
   .producer 0 fun _ => false, .consumer 1, .consumer 1, .consumer 1, .consumer 1]

/-- After the first product the producer makes five more, and is about to add them. -/
theorem products_conserved_first : ∃ s, (demo 2 1).Reachable s ∧ s.nready = 4 ∧
    s.producers 0 = .add ∧ s.consumed + s.nready + 5 = 5 * (2 - s.var) := by
  have h0 : (demo 2 1).Reachable .start := .init rfl
  have h := h0.replay_get step (fun _ _ _ hs => hs) (firstProduct ++
    [.producer 0 fun _ => false, .producer 0 fun _ => false]) (by decide)
  obtain ⟨-, -, -, -, -, hsum, hadd, -⟩ := products_conserved (by decide) h
  rw [hadd 0 (by decide)] at hsum
  exact ⟨_, h, by decide, by decide, hsum⟩

theorem products_never_stranded_first : ∃ s, (demo 2 1).Reachable s ∧ s.nready = 4 ∧
    s.consumers 0 = .wait ∧ ((∃ i, s.consumers i ≠ .wait ∧ (consume s i).isSome = true) ∨
      ∃ j chosen, s.owner = .producer j ∧ (produce s j chosen).isSome = true) := by
  have h0 : (demo 2 1).Reachable .start := .init rfl
  have h := h0.replay_get step (fun _ _ _ hs => hs) firstProduct (by decide)
  exact ⟨_, h, by decide, by decide, (products_never_stranded (by decide) h).1 (by decide)⟩

end BaseCode.PthreadCond
