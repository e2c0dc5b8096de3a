import BaseCode.Epoll.Callers
import BaseCode.Epoll.Ctl
import BaseCode.Epoll.Creation

/-!
# Races between callers and the dispatcher

`epoll_thread` dispatches what it fetched without the lock. The property that no event refers to
a freed block, the steps that can break it, and the invariant that the other steps keep. The
holder of the lock and the other threads each see only part of what the others do to the
registry, so the invariant is kept once for either side.
-/

namespace BaseCode.Epoll
open Foundation Comm

/-- The threads around the dispatcher of `eplfd`. -/
def dispatchSystem (eplfd : Int) : System Conc Label where
  Init s := Created s.sys ∧ s.lock = none ∧ (∀ t, s.pc t = .idle 0) ∧ s.dispatcher = .waiting
  Step s l s' := s.next eplfd l = some s'

namespace Conc

variable (eplfd : Int) (s : Conc)

/-- The dispatcher calls back on live blocks only, and no event that is fetched or that the
kernel can deliver refers to a freed block. -/
structure NoStaleDispatch : Prop where
  called : ∀ d es p, s.dispatcher = .dispatching (d :: es) → react d.2 = .callback p →
    s.sys.blocks.Live p
  fetched : ∀ d ∈ s.dispatcher.batch, ∀ p, d.2.ptr = some p → s.sys.blocks.Live p
  deliverable : ∀ x p, s.sys.kernel.interestOf eplfd x = some p → s.sys.blocks.Live p

/-- An event of the descriptor is fetched and still to be dispatched. -/
def Awaiting (x : Int) : Prop := ∃ d ∈ s.dispatcher.batch, d.1 = x

instance {x : Int} : Decidable (s.Awaiting x) := inferInstanceAs (Decidable (∃ _ ∈ _, _))

/-- The table has an entry for the descriptor. -/
def HasEntry (n : EpollNode) (x : Int) : Prop := (s.sys.table n.pEventHash).get x ≠ none

instance {n : EpollNode} {x : Int} : Decidable (s.HasEntry n x) :=
  inferInstanceAs (Decidable (_ ≠ _))

/-- The kernel has the descriptor registered with the dispatcher's epoll. -/
def Registered (x : Int) : Prop := s.sys.kernel.interestOf eplfd x ≠ none

instance {x : Int} : Decidable (s.Registered eplfd x) := inferInstanceAs (Decidable (_ ≠ _))

/-- What a thread at this place has to wait for. On the dispatcher's epoll an entry is removed,
overwritten or freed only when none of the descriptor's events is waiting to be dispatched, but
for those of the block that an ADD has just registered; MOD and close also need the descriptor
not to be registered, and the kernel takes a DEL. -/
def UnracedAt : Pc → Prop
  | .remove n _ a => a.epfd = eplfd → s.HasEntry n a.fd → ¬ s.Awaiting a.fd
  | .replace n a => a.epfd = eplfd → s.HasEntry n a.fd →
      ¬ s.Awaiting a.fd ∧ ¬ s.Registered eplfd a.fd
  | .insert n p a => a.epfd = eplfd → s.HasEntry n a.fd →
      InsertFits (s.sys.table n.pEventHash) a.fd a.o.callocOk a.o.entryOk →
      ∀ d ∈ s.dispatcher.batch, d.1 = a.fd → d.2.ptr = some p
  | .delete n a => a.epfd = eplfd → s.HasEntry n a.fd → s.Registered eplfd a.fd →
      a.o.kernelOk = true
  | .freeTable epfd _ ((x, _) :: _) => epfd = eplfd → ¬ s.Awaiting x ∧ ¬ s.Registered eplfd x
  | _ => True

instance UnracedAt.decidable : ∀ c : Pc, Decidable (s.UnracedAt eplfd c)
  | .remove _ _ _ => inferInstanceAs (Decidable (_ → _ → _))
  | .replace _ _ => inferInstanceAs (Decidable (_ → _ → _))
  | .insert _ _ _ => inferInstanceAs (Decidable (_ → _ → _ → _))
  | .delete _ _ => inferInstanceAs (Decidable (_ → _ → _ → _))
  | .freeTable _ _ (_ :: _) => inferInstanceAs (Decidable (_ → _))
  | .freeTable _ _ [] => .isTrue trivial
  | .idle _ | .ctl _ | .attach _ _ | .unlock _ _ _ | .exit _ _ _ | .close _ | .closeNumber _ =>
    .isTrue trivial

/-- What a step has to avoid. -/
def Unraced : Label → Prop
  | .step t => s.UnracedAt eplfd (s.pc t)
  | _ => True

instance : ∀ l : Label, Decidable (s.Unraced eplfd l)
  | .step t => inferInstanceAs (Decidable (s.UnracedAt eplfd (s.pc t)))
  | .ctl _ _ | .timerStop _ _ _ _ _ | .close _ _ | .fetch _ | .waitError | .dispatch | .resume =>
    .isTrue trivial

/-- An event of `x` with the block `p` is fetched and still to be dispatched. -/
def Pending (x : Int) (p : Nat) : Prop := ∃ d ∈ s.dispatcher.batch, d.1 = x ∧ d.2.ptr = some p

end Conc

/-- What the invariant sees of a state: the blocks, what the kernel holds for each descriptor of
the dispatcher's epoll, the tables' entries, and the descriptors and blocks of fetched events. -/
structure View where
  next : Nat
  live : Nat → Prop
  held : Int → Option Nat
  entry : Nat → Int → Option Nat
  pending : Int → Nat → Prop

def viewOf (eplfd : Int) (s : Sys Int) (pending : Int → Nat → Prop) : View where
  next := s.blocks.next
  live := s.blocks.Live
  held := s.kernel.interestOf eplfd
  entry h := (s.table h).get
  pending := pending

/-- A block that no event can lead to. -/
def View.Unseen (V : View) (p : Nat) : Prop :=
  p < V.next ∧ ∀ x, V.held x ≠ some p ∧ ¬ V.pending x p

/-- The lock is held. -/
def Pc.locked : Pc → Bool
  | .attach _ _ | .insert _ _ _ | .delete _ _ | .remove _ _ _ | .replace _ _ => true
  | .unlock _ _ _ => true
  | _ => false

section Invariant

variable (eplfd : Int) (h₀ : Nat) (home : Nat → Nat × Int)

/-- The table `h₀` belongs to `eplfd`. -/
def Own (n : EpollNode) : Prop := 0 < n.epollFd ∧ (n.epollFd = eplfd ↔ n.pEventHash = h₀)

/-- What a thread can rely on at its place. `home` gives the table and the descriptor that a
block was made for. -/
def Pc.Ok (V : View) : Pc → Prop
  | .attach n a => Own eplfd h₀ n ∧ n.epollFd = a.epfd ∧ (a.op = .mod ∨ a.op = .add)
  | .insert n p a => Own eplfd h₀ n ∧ n.epollFd = a.epfd ∧ p < V.next ∧
      home p = (n.pEventHash, a.fd) ∧ (∀ h x, V.entry h x ≠ some p) ∧
      (a.epfd = eplfd → ∀ q, V.held a.fd = some q → q = p)
  | .delete n a => Own eplfd h₀ n ∧ n.epollFd = a.epfd
  | .remove n _ a => Own eplfd h₀ n ∧ n.epollFd = a.epfd ∧
      (a.epfd = eplfd → V.held a.fd = none ∨ V.entry n.pEventHash a.fd = none)
  | .replace n a => Own eplfd h₀ n ∧ n.epollFd = a.epfd ∧ a.op = .mod
  | .unlock _ blk _ => ∀ p, blk = some p → V.Unseen p
  | .exit _ blk _ => ∀ p, blk = some p → V.Unseen p
  | .freeTable epfd n rest => Own eplfd h₀ n ∧ n.epollFd = epfd ∧
      ∀ x p, (x, p) ∈ rest → p < V.next ∧ home p = (n.pEventHash, x)
  | _ => True

/-- Tables, kernel and fetched events agree on what a block was made for, and the blocks of the
kernel and of the fetched events are live. -/
structure Guarded (V : View) : Prop where
  entries : ∀ h x p, V.entry h x = some p → p < V.next ∧ home p = (h, x)
  held : ∀ x p, V.held x = some p → p < V.next ∧ home p = (h₀, x) ∧ V.live p
  fetched : ∀ x p, V.pending x p → p < V.next ∧ home p = (h₀, x) ∧ V.live p

structure Safe (s : Conc) : Prop where
  wellFormed : ∀ h, WellFormed (s.sys.table h)
  distinct : ∀ a b i, s.sys.kernel.epollOf a = some i → s.sys.kernel.epollOf b = some i → a = b
  nodes : ∀ n ∈ s.sys.epollList, Own eplfd h₀ n
  guarded : Guarded h₀ home (viewOf eplfd s.sys s.Pending)
  locked : ∀ t, (s.pc t).locked = true → s.lock = some t
  places : ∀ t, (s.pc t).Ok eplfd h₀ home (viewOf eplfd s.sys s.Pending)

end Invariant

section Views

variable {eplfd : Int} {h₀ : Nat} {home home' : Nat → Nat × Int} {V V' : View} {c : Pc}

/-- What the holder of the lock does to the view of the others. -/
structure Calm (home home' : Nat → Nat × Int) (V V' : View) : Prop where
  next : V.next ≤ V'.next
  home : ∀ p, p < V.next → home' p = home p
  held : ∀ x p, V'.held x = some p → V.held x = some p ∨ V.next ≤ p
  pending : ∀ x p, V'.pending x p → V.pending x p

/-- What the others do to the view of the holder of the lock. -/
structure Shrinks (V V' : View) : Prop where
  next : V'.next = V.next
  held : ∀ x p, V'.held x = some p → V.held x = some p
  entry : ∀ h x p, V'.entry h x = some p → V.entry h x = some p
  pending : ∀ x p, V'.pending x p → V.pending x p ∨ V.held x = some p

theorem Shrinks.refl : Shrinks V V :=
  ⟨rfl, fun _ _ hp => hp, fun _ _ _ hp => hp, fun _ _ hp => .inl hp⟩

theorem View.Unseen.calm {p : Nat} (h : V.Unseen p) (hc : Calm home home' V V') :
    V'.Unseen p := by
  obtain ⟨hlt, hno⟩ := h
  refine ⟨Nat.lt_of_lt_of_le hlt hc.next, fun x => ⟨?_, fun hp => (hno x).2 (hc.pending x p hp)⟩⟩
  intro hx
  rcases hc.held x p hx with hx | hx
  · exact (hno x).1 hx
  · omega

theorem View.Unseen.shrinks {p : Nat} (h : V.Unseen p) (hs : Shrinks V V') : V'.Unseen p := by
  obtain ⟨hlt, hno⟩ := h
  refine ⟨hs.next ▸ hlt, fun x => ⟨fun hx => (hno x).1 (hs.held x p hx), ?_⟩⟩
  intro hp
  rcases hs.pending x p hp with hp | hx
  · exact (hno x).2 hp
  · exact (hno x).1 hx

theorem eq_none_of_imp {α : Type} {a b : Option α} (h : ∀ p, b = some p → a = some p)
    (ha : a = none) : b = none := by
  cases b with
  | none => rfl
  | some p =>
    rw [ha] at h
    cases h p rfl

/-- A thread without the lock keeps what it relies on while another holds it. -/
theorem Pc.Ok.calm (h : c.Ok eplfd h₀ home V) (hl : c.locked = false)
    (hc : Calm home home' V V') : c.Ok eplfd h₀ home' V' := by
  cases c with
  -- these hold the lock
  | attach | insert | delete | remove | replace | unlock => cases hl
  | exit ret blk a => exact fun p hp => (h p hp).calm hc
  | freeTable epfd n rest =>
    obtain ⟨hown, hfd, hrest⟩ := h
    refine ⟨hown, hfd, ?_⟩
    intro x p hm
    obtain ⟨hlt, hp⟩ := hrest x p hm
    exact ⟨Nat.lt_of_lt_of_le hlt hc.next, (hc.home p hlt).trans hp⟩
  | closeNumber fd => exact h
  | idle | ctl | close => exact h

/-- Whatever a thread relies on survives when others only take away. -/
theorem Pc.Ok.shrinks (h : c.Ok eplfd h₀ home V) (hs : Shrinks V V') :
    c.Ok eplfd h₀ home V' := by
  cases c with
  | attach | delete | replace | closeNumber | idle | ctl | close => exact h
  | insert n p a =>
    obtain ⟨hown, hfd, hlt, hp, hent, hheld⟩ := h
    refine ⟨hown, hfd, hs.next ▸ hlt, hp, fun t x hx => hent t x (hs.entry t x p hx), ?_⟩
    intro he q hq
    exact hheld he q (hs.held _ q hq)
  | remove n ret a =>
    obtain ⟨hown, hfd, hgone⟩ := h
    refine ⟨hown, hfd, ?_⟩
    intro he
    rcases hgone he with hg | hg
    · exact .inl (eq_none_of_imp (hs.held _) hg)
    · exact .inr (eq_none_of_imp (hs.entry _ _) hg)
  | unlock ret blk a => exact fun p hp => (h p hp).shrinks hs
  | exit ret blk a => exact fun p hp => (h p hp).shrinks hs
  | freeTable epfd n rest =>
    obtain ⟨hown, hfd, hrest⟩ := h
    refine ⟨hown, hfd, ?_⟩
    intro x p hm
    rw [hs.next]
    exact hrest x p hm

/-- No block is made; blocks may be freed that neither the kernel nor a fetched event has. -/
theorem Guarded.of (h : Guarded h₀ home V) (hn : V.next ≤ V'.next)
    (hent : ∀ h x p, V'.entry h x = some p →
      V.entry h x = some p ∨ p < V.next ∧ home p = (h, x))
    (hheld : ∀ x p, V'.held x = some p → V.held x = some p)
    (hpend : ∀ x p, V'.pending x p → V.pending x p ∨ V.held x = some p)
    (hlive : ∀ x p, V.held x = some p ∨ V.pending x p → V.live p → V'.live p) :
    Guarded h₀ home V' where
  entries t x p hp := by
    obtain ⟨hlt, hhome⟩ := (hent t x p hp).elim (h.entries t x p) id
    exact ⟨Nat.lt_of_lt_of_le hlt hn, hhome⟩
  held x p hp := by
    have hp' := hheld x p hp
    obtain ⟨hlt, hhome, hl⟩ := h.held x p hp'
    exact ⟨Nat.lt_of_lt_of_le hlt hn, hhome, hlive x p (.inl hp') hl⟩
  fetched x p hp := by
    have hp' := hpend x p hp
    obtain ⟨hlt, hhome, hl⟩ := hp'.elim (h.fetched x p) (h.held x p)
    exact ⟨Nat.lt_of_lt_of_le hlt hn, hhome, hlive x p hp'.symm hl⟩

/-- The blocks `G` are freed; neither the kernel nor a fetched event has one of them. -/
theorem Guarded.frees {G : Nat → Prop} (h : Guarded h₀ home V) (hn : V'.next = V.next)
    (hheld : V'.held = V.held) (hpend : V'.pending = V.pending)
    (hent : ∀ h x p, V'.entry h x = some p →
      V.entry h x = some p ∨ p < V.next ∧ home p = (h, x))
    (hlive : ∀ p, ¬ G p → V.live p → V'.live p)
    (hfree : ∀ x p, G p → V.held x ≠ some p ∧ ¬ V.pending x p) : Guarded h₀ home V' := by
  refine h.of (Nat.le_of_eq hn.symm) hent (fun x p hp => hheld ▸ hp) ?_ ?_
  · intro x p hp
    exact .inl (hpend ▸ hp)
  · intro x p hp hl
    refine hlive p (fun hg => ?_) hl
    obtain ⟨h1, h2⟩ := hfree x p hg
    exact hp.elim h1 h2

end Views

namespace Safe

variable {eplfd : Int} {h₀ : Nat} {home home' : Nat → Nat × Int} {s : Conc} {t : Nat}
  {sys' : Sys Int} {lock' : Option Nat} {c' : Pc} {n : EpollNode} {a : CtlArgs}

theorem locked_place (h : Safe eplfd h₀ home s) (hself : c'.locked = true → lock' = some t)
    (hother : ∀ t', t' ≠ t → s.lock = some t' → lock' = some t') (t' : Nat)
    (hl : ((s.place t sys' lock' c').pc t').locked = true) : lock' = some t' := by
  by_cases htt : t' = t
  · subst htt
    exact hself (by simpa [Conc.place, Conc.goto] using hl)
  · exact hother t' htt (h.locked t' (by simpa [Conc.place, Conc.goto, htt] using hl))

theorem places_place {V' : View} (hself : c'.Ok eplfd h₀ home V')
    (hother : ∀ t', t' ≠ t → (s.pc t').Ok eplfd h₀ home V') (t' : Nat) :
    ((s.place t sys' lock' c').pc t').Ok eplfd h₀ home V' := by
  by_cases htt : t' = t
  · subst htt
    simpa [Conc.place, Conc.goto] using hself
  · simpa [Conc.place, Conc.goto, htt] using hother t' htt

theorem ok_at {c : Pc} (h : Safe eplfd h₀ home s) (hc : s.pc t = c) :
    c.Ok eplfd h₀ home (viewOf eplfd s.sys s.Pending) := hc ▸ h.places t

/-- While one thread holds the lock, no other does. -/
theorem unlocked (h : Safe eplfd h₀ home s) (hl : (s.pc t).locked = true) {t' : Nat}
    (ht : t' ≠ t) : (s.pc t').locked = false := by
  cases hl' : (s.pc t').locked with
  | false => rfl
  | true =>
    have heq := (h.locked t hl).symm.trans (h.locked t' hl')
    exact absurd (Option.some.inj heq).symm ht

/-- A step of the holder of the lock. -/
theorem byHolder (h : Safe eplfd h₀ home s) (hl : (s.pc t).locked = true)
    (hw : ∀ h, WellFormed (sys'.table h))
    (hof : sys'.kernel.epollOf = s.sys.kernel.epollOf)
    (hlist : sys'.epollList = s.sys.epollList)
    (hcalm : Calm home home' (viewOf eplfd s.sys s.Pending) (viewOf eplfd sys' s.Pending))
    (hg : Guarded h₀ home' (viewOf eplfd sys' s.Pending))
    (hok : c'.Ok eplfd h₀ home' (viewOf eplfd sys' s.Pending)) :
    Safe eplfd h₀ home' (s.place t sys' s.lock c') where
  wellFormed := hw
  distinct x y i hx hy := by
    change sys'.kernel.epollOf x = some i at hx
    change sys'.kernel.epollOf y = some i at hy
    rw [hof] at hx hy
    exact h.distinct x y i hx hy
  nodes m hm := by
    change m ∈ sys'.epollList at hm
    exact h.nodes m (hlist ▸ hm)
  guarded := hg
  locked := h.locked_place (fun _ => h.locked t hl) fun _ _ hs => hs
  places := places_place hok fun t' ht => (h.places t').calm (h.unlocked hl ht) hcalm

/-- A step that only takes away. -/
theorem byAnyone (h : Safe eplfd h₀ home s)
    (hself : c'.locked = true → lock' = some t)
    (hlock : ∀ t', t' ≠ t → s.lock = some t' → lock' = some t')
    (hw : ∀ h, WellFormed (sys'.table h))
    (hof : ∀ a i, sys'.kernel.epollOf a = some i → s.sys.kernel.epollOf a = some i)
    (hlist : ∀ n ∈ sys'.epollList, n ∈ s.sys.epollList)
    (hs : Shrinks (viewOf eplfd s.sys s.Pending) (viewOf eplfd sys' s.Pending))
    (hg : Guarded h₀ home (viewOf eplfd sys' s.Pending))
    (hok : c'.Ok eplfd h₀ home (viewOf eplfd sys' s.Pending)) :
    Safe eplfd h₀ home (s.place t sys' lock' c') where
  wellFormed := hw
  distinct x y i hx hy := h.distinct x y i (hof x i hx) (hof y i hy)
  nodes m hm := h.nodes m (hlist m hm)
  guarded := hg
  locked := h.locked_place hself hlock
  places := places_place hok fun t' _ => (h.places t').shrinks hs

/-- A step that leaves the system alone. -/
theorem moves (h : Safe eplfd h₀ home s) (hself : c'.locked = true → lock' = some t)
    (hlock : ∀ t', t' ≠ t → s.lock = some t' → lock' = some t')
    (hok : c'.Ok eplfd h₀ home (viewOf eplfd s.sys s.Pending)) :
    Safe eplfd h₀ home (s.place t s.sys lock' c') :=
  h.byAnyone hself hlock h.wellFormed (fun _ _ hi => hi) (fun _ hn => hn) .refl h.guarded hok

end Safe

end BaseCode.Epoll
