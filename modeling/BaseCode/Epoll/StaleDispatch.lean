import BaseCode.Epoll.Races

/-!
# Can a callback be called on a freed block?

A block can be freed between the fetch of an event and its callback; MOD and `base_epoll_close`
even free blocks that the kernel still hands out. `dispatch_fresh` says what the threads have to
avoid on the dispatcher's epoll: letting go of a descriptor's entry while one of its events waits
to be dispatched, MOD and close for descriptors that the kernel still has registered, and a DEL
that the kernel refuses. In every run without these no event refers to a freed block.
-/

namespace BaseCode.Epoll
open Foundation Comm

namespace Safe

variable {eplfd : Int} {h₀ : Nat} {home home' : Nat → Nat × Int} {s : Conc} {t : Nat}
  {sys' : Sys Int} {lock' : Option Nat} {c' : Pc} {n : EpollNode} {a : CtlArgs}

section Holder

theorem find_own (h : Safe eplfd h₀ home s) {epfd : Int} (hn : s.sys.findEpoll epfd = some n) :
    Own eplfd h₀ n ∧ n.epollFd = epfd :=
  ⟨h.nodes n (Sys.findEpoll_spec hn).1, (Sys.findEpoll_spec hn).2⟩

/-- A block that was made for descriptor `y` of some epoll and for `x` of the dispatcher's: it is
the same epoll and the same descriptor. -/
theorem same_home (hown : Own eplfd h₀ n) {epfd x y : Int} {p : Nat} (hfd : n.epollFd = epfd)
    (hp : home p = (n.pEventHash, y)) (hx : home p = (h₀, x)) : epfd = eplfd ∧ y = x := by
  rw [hx] at hp
  have h3 : h₀ = n.pEventHash := congrArg Prod.fst hp
  have h4 : x = y := congrArg Prod.snd hp
  exact ⟨hfd.symm.trans (hown.2.mpr h3.symm), h4.symm⟩

theorem entry_home (h : Safe eplfd h₀ home s) {x : Int} {p : Nat}
    (hp : (s.sys.table n.pEventHash).get x = some p) : home p = (n.pEventHash, x) :=
  (h.guarded.entries n.pEventHash x p hp).2

theorem wellFormed_removeEvent {s : Sys Int} (hw : ∀ h, WellFormed (s.table h)) (h : Nat)
    (x : Int) (h' : Nat) : WellFormed ((s.removeEvent intKeys h x).table h') := by
  rw [Sys.removeEvent_table]
  split
  · exact (hw h).remove x
  · exact hw h'

theorem wellFormed_insertEvent {s : Sys Int} (hw : ∀ h, WellFormed (s.table h)) (h : Nat)
    (x : Int) (p : Nat) (o : Sys.CtlOutcome) (h' : Nat) :
    WellFormed ((s.insertEvent intKeys h x p o).table h') := by
  rw [Sys.insertEvent_table]
  split
  · exact (insert_spec (hw h) x p o.callocOk o.entryOk).1.wellFormed
  · exact hw h'

/-- A block that a table of some epoll gave up is neither the kernel's nor in a fetched event,
if the dispatcher's epoll has nothing of the descriptor any more. -/
theorem unseen_of_home (h : Safe eplfd h₀ home s) (hown : Own eplfd h₀ n) {epfd y : Int}
    {p : Nat} (hfd : n.epollFd = epfd) (hp : home p = (n.pEventHash, y))
    (hfree : epfd = eplfd →
      s.sys.kernel.interestOf eplfd y ≠ some p ∧ ¬ s.Pending y p) (x : Int) :
    s.sys.kernel.interestOf eplfd x ≠ some p ∧ ¬ s.Pending x p := by
  constructor
  · intro hx
    obtain ⟨he, rfl⟩ := same_home hown hfd hp (h.guarded.held x p hx).2.1
    exact (hfree he).1 hx
  · intro hx
    obtain ⟨he, rfl⟩ := same_home hown hfd hp (h.guarded.fetched x p hx).2.1
    exact (hfree he).2 hx

theorem not_pending {x : Int} {p : Nat} (h : ¬ s.Awaiting x) : ¬ s.Pending x p := by
  rintro ⟨d, hd, hx, -⟩
  exact h ⟨d, hd, hx⟩

/-- `hash_table_remove` by DEL or MOD. -/
theorem removeEvent (h : Safe eplfd h₀ home s) (hl : (s.pc t).locked = true)
    (hown : Own eplfd h₀ n) (hfd : n.epollFd = a.epfd)
    (hfree : a.epfd = eplfd → s.HasEntry n a.fd →
      s.sys.kernel.interestOf eplfd a.fd = none ∧ ¬ s.Awaiting a.fd)
    (hok : c'.Ok eplfd h₀ home (viewOf eplfd (s.sys.removeEvent intKeys n.pEventHash a.fd)
      s.Pending)) :
    Safe eplfd h₀ home (s.place t (s.sys.removeEvent intKeys n.pEventHash a.fd) s.lock c') := by
  have hw := h.wellFormed n.pEventHash
  have hnext : (s.sys.removeEvent intKeys n.pEventHash a.fd).blocks.next =
      s.sys.blocks.next := by simp [Sys.removeEvent_blocks]
  have hheld : (viewOf eplfd (s.sys.removeEvent intKeys n.pEventHash a.fd) s.Pending).held =
      (viewOf eplfd s.sys s.Pending).held := by simp [viewOf]
  refine h.byHolder hl (wellFormed_removeEvent h.wellFormed _ _) (by simp)
    Sys.removeEvent_epollList
    ⟨Nat.le_of_eq hnext.symm, fun _ _ => rfl, fun x p hp => .inl (hheld ▸ hp), fun _ _ hp => hp⟩
    (h.guarded.frees (G := fun p => (s.sys.table n.pEventHash).get a.fd = some p) hnext hheld
      rfl ?_ ?_ ?_) hok
  · intro h' x p hp
    simp only [viewOf, Sys.removeEvent_get hw] at hp ⊢
    split at hp
    · cases hp
    · exact .inl hp
  · intro p hg hlp
    simp only [viewOf, Sys.removeEvent_blocks_get hw]
    exact Arena.live_freeOpt.mpr ⟨hg, hlp⟩
  · intro x p hp
    refine h.unseen_of_home hown hfd (h.entry_home hp) ?_ x
    intro he
    obtain ⟨hnone, hidle⟩ := hfree he (by simp [Conc.HasEntry, hp])
    exact ⟨by simp [hnone], not_pending hidle⟩

theorem step_remove (h : Safe eplfd h₀ home s) {ret : Int} (hc : s.pc t = .remove n ret a)
    (hidle : a.epfd = eplfd → s.HasEntry n a.fd → ¬ s.Awaiting a.fd) :
    Safe eplfd h₀ home (s.place t (s.sys.removeEvent intKeys n.pEventHash a.fd) s.lock
      (.unlock ret none a)) := by
  obtain ⟨hown, hfd, hgone⟩ := h.ok_at hc
  refine h.removeEvent (by rw [hc]; rfl) hown hfd ?_ (by intro p hp; cases hp)
  intro he hent
  -- the kernel has let go of the descriptor
  exact ⟨(hgone he).resolve_right hent, hidle he hent⟩

theorem step_replace (h : Safe eplfd h₀ home s) (hc : s.pc t = .replace n a)
    (hidle : a.epfd = eplfd → s.HasEntry n a.fd →
      ¬ s.Awaiting a.fd ∧ ¬ s.Registered eplfd a.fd) :
    Safe eplfd h₀ home (s.place t (s.sys.removeEvent intKeys n.pEventHash a.fd) s.lock
      (.attach n a)) := by
  obtain ⟨hown, hfd, hop⟩ := h.ok_at hc
  refine h.removeEvent (by rw [hc]; rfl) hown hfd ?_ ⟨hown, hfd, .inl hop⟩
  intro he hent
  obtain ⟨hwait, hreg⟩ := hidle he hent
  exact ⟨not_not.mp hreg, hwait⟩

theorem live_insertEvent {s : Sys Int} {h p q : Nat} {x : Int} {o : Sys.CtlOutcome}
    (hw : WellFormed (s.table h)) :
    (s.insertEvent intKeys h x p o).blocks.Live q ↔
      ¬ (InsertFits (s.table h) x o.callocOk o.entryOk ∧ (s.table h).get x = some q) ∧
        s.blocks.Live q := by
  obtain ⟨hi, hret⟩ := insert_spec hw x p o.callocOk o.entryOk
  rw [Sys.insertEvent_blocks, Arena.live_freeOpt, hi.freed]
  simp only [hret]
  by_cases hfit : InsertFits (s.table h) x o.callocOk o.entryOk
  · simp [hfit]
  · simp [hfit]

/-- `hash_table_insert` by ADD or MOD; an entry it overwrites is not the kernel's. -/
theorem step_insert (h : Safe eplfd h₀ home s) {p : Nat} (hc : s.pc t = .insert n p a)
    (hidle : a.epfd = eplfd → s.HasEntry n a.fd →
      InsertFits (s.sys.table n.pEventHash) a.fd a.o.callocOk a.o.entryOk →
      ∀ d ∈ s.dispatcher.batch, d.1 = a.fd → d.2.ptr = some p) :
    Safe eplfd h₀ home (s.place t (s.sys.insertEvent intKeys n.pEventHash a.fd p a.o) s.lock
      (.unlock 0 none a)) := by
  obtain ⟨hown, hfd, hlt, hhome, hnew, hheld⟩ := h.ok_at hc
  have hw := h.wellFormed n.pEventHash
  have hnext : (s.sys.insertEvent intKeys n.pEventHash a.fd p a.o).blocks.next =
      s.sys.blocks.next := by simp [Sys.insertEvent_blocks]
  have hsame : (viewOf eplfd (s.sys.insertEvent intKeys n.pEventHash a.fd p a.o)
      s.Pending).held = (viewOf eplfd s.sys s.Pending).held := by simp [viewOf]
  refine h.byHolder (by rw [hc]; rfl) (wellFormed_insertEvent h.wellFormed _ _ _ _) (by simp)
    Sys.insertEvent_epollList
    ⟨Nat.le_of_eq hnext.symm, fun _ _ => rfl, fun x q hq => .inl (hsame ▸ hq), fun _ _ hq => hq⟩
    (h.guarded.frees (G := fun q =>
      InsertFits (s.sys.table n.pEventHash) a.fd a.o.callocOk a.o.entryOk ∧
        (s.sys.table n.pEventHash).get a.fd = some q) hnext hsame rfl ?_
      (fun q hg hl => (live_insertEvent hw).mpr ⟨hg, hl⟩) ?_) (by intro q hq; cases hq)
  · intro h' x q hq
    simp only [viewOf, Sys.insertEvent_get hw] at hq ⊢
    split at hq
    · next hadded =>
      obtain ⟨rfl, rfl, -⟩ := hadded
      cases hq
      exact .inr ⟨hlt, hhome⟩
    · exact .inl hq
  · rintro x q ⟨hfit, hent⟩
    -- what is overwritten is another block than the one the kernel has been given
    have hne : q ≠ p := fun hqp => hnew n.pEventHash a.fd (hqp ▸ hent)
    refine h.unseen_of_home hown hfd (h.entry_home hent) ?_ x
    intro he
    refine ⟨fun hq => hne (hheld he q hq), ?_⟩
    rintro ⟨d, hd, hx, hq⟩
    have hp := hidle he (by simp [Conc.HasEntry, hent]) hfit d hd hx
    exact hne (Option.some.inj (hq.symm.trans hp))

/-- The dispatcher's interest set after a successful `epoll_ctl` on any epoll. -/
theorem held_of_epollCtl (h : Safe eplfd h₀ home s) {k : Kernel} {epfd fd x : Int} {op : CtlOp}
    {ptr q : Nat} {ok : Bool} (hk : s.sys.kernel.epollCtl epfd op fd ptr ok = some k)
    (hq : k.interestOf eplfd x = some q) :
    epfd = eplfd ∧ x = fd ∧ op.leaves ptr = some q ∨
      ¬ (epfd = eplfd ∧ x = fd) ∧ s.sys.kernel.interestOf eplfd x = some q := by
  by_cases he : epfd = eplfd
  · subst he
    rw [Kernel.interestOf_of_epollCtl hk] at hq
    by_cases hx : x = fd
    · rw [if_pos hx] at hq
      exact .inl ⟨rfl, hx, hq⟩
    · rw [if_neg hx] at hq
      exact .inr ⟨fun hh => hx hh.2, hq⟩
  · refine .inr ⟨fun hh => he hh.1, ?_⟩
    obtain ⟨-, i, hi, -, rfl⟩ := Kernel.epollCtl_eq_some_iff.mp hk
    simp only [Kernel.interestOf] at hq ⊢
    rw [Kernel.setInterest_epollOf] at hq
    cases hj : s.sys.kernel.epollOf eplfd with
    | none => simp [hj] at hq
    | some j =>
      have hji : j ≠ i := fun hh => he (h.distinct epfd eplfd i hi (hh ▸ hj))
      simpa [hj, Kernel.setInterest_interest, hji] using hq

/-- `epoll_ctl` fails; the new block is not yet freed, but nobody has seen it. -/
theorem step_attach_refused (h : Safe eplfd h₀ home s) (hc : s.pc t = .attach n a)
    (ev : EpollEvent) :
    Safe eplfd h₀ home (s.place t { s.sys with blocks := s.sys.blocks.alloc ev } s.lock
      (.unlock (-1) (some s.sys.blocks.next) a)) := by
  refine h.byHolder (by rw [hc]; rfl) h.wellFormed rfl rfl
    ⟨Nat.le_succ _, fun _ _ => rfl, fun _ _ hp => .inl hp, fun _ _ hp => hp⟩
    (h.guarded.of (Nat.le_succ _) (fun _ _ _ hp => .inl hp) (fun _ _ hp => hp)
      (fun _ _ hp => .inl hp) fun _ _ _ hl => Arena.live_alloc.mpr (.inr hl)) ?_
  intro p hp
  obtain rfl := Option.some.inj hp
  refine ⟨Nat.lt_succ_self _, fun x => ⟨?_, ?_⟩⟩
  · intro hx
    exact Nat.lt_irrefl _ (h.guarded.held x _ hx).1
  · intro hx
    exact Nat.lt_irrefl _ (h.guarded.fetched x _ hx).1

/-- `epoll_ctl` accepts the new block. -/
theorem step_attach (h : Safe eplfd h₀ home s) {k : Kernel} (hc : s.pc t = .attach n a)
    (ev : EpollEvent)
    (hk : s.sys.kernel.epollCtl a.epfd a.op a.fd s.sys.blocks.next a.o.kernelOk = some k) :
    Safe eplfd h₀ (Function.update home s.sys.blocks.next (n.pEventHash, a.fd))
      (s.place t { s.sys with blocks := s.sys.blocks.alloc ev, kernel := k } s.lock
        (.insert n s.sys.blocks.next a)) := by
  obtain ⟨hown, hfd, hop⟩ := h.ok_at hc
  have hleaves : a.op.leaves s.sys.blocks.next = some s.sys.blocks.next := by
    rcases hop with hop | hop
    · rw [hop]; rfl
    · rw [hop]; rfl
  have hheld : ∀ x q, k.interestOf eplfd x = some q →
      a.epfd = eplfd ∧ x = a.fd ∧ q = s.sys.blocks.next ∨
        ¬ (a.epfd = eplfd ∧ x = a.fd) ∧ s.sys.kernel.interestOf eplfd x = some q := by
    intro x q hq
    refine (h.held_of_epollCtl hk hq).imp_left ?_
    rintro ⟨he, hx, hl⟩
    rw [hleaves] at hl
    exact ⟨he, hx, (Option.some.inj hl).symm⟩
  have hhome : ∀ q, q < s.sys.blocks.next →
      Function.update home s.sys.blocks.next (n.pEventHash, a.fd) q = home q :=
    fun q hq => Function.update_of_ne (Nat.ne_of_lt hq) ..
  refine h.byHolder (by rw [hc]; rfl) h.wellFormed (Kernel.epollOf_of_epollCtl hk) rfl
    ⟨Nat.le_succ _, hhome, ?_, fun _ _ hp => hp⟩ ⟨?_, ?_, ?_⟩ ?_
  · intro x q hq
    obtain ⟨-, -, rfl⟩ | ⟨-, hq⟩ := hheld x q hq
    · exact .inr (Nat.le_refl _)
    · exact .inl hq
  · -- what was stored before has an older address
    intro h' x q hq
    obtain ⟨hlt, hh⟩ := h.guarded.entries h' x q hq
    exact ⟨Nat.lt_succ_of_lt hlt, (hhome q hlt).trans hh⟩
  · intro x q hq
    obtain ⟨he, rfl, rfl⟩ | ⟨-, hq⟩ := hheld x q hq
    · have hh₀ : n.pEventHash = h₀ := hown.2.mp (hfd.trans he)
      refine ⟨Nat.lt_succ_self _, ?_, Arena.live_alloc.mpr (.inl rfl)⟩
      rw [Function.update_self, hh₀]
    · obtain ⟨hlt, hh, hl⟩ := h.guarded.held x q hq
      exact ⟨Nat.lt_succ_of_lt hlt, (hhome q hlt).trans hh, Arena.live_alloc.mpr (.inr hl)⟩
  · intro x q hq
    obtain ⟨hlt, hh, hl⟩ := h.guarded.fetched x q hq
    exact ⟨Nat.lt_succ_of_lt hlt, (hhome q hlt).trans hh, Arena.live_alloc.mpr (.inr hl)⟩
  · refine ⟨hown, hfd, Nat.lt_succ_self _, Function.update_self .., ?_, ?_⟩
    · intro h' x hx
      exact Nat.lt_irrefl _ (h.guarded.entries h' x _ hx).1
    · intro he q hq
      obtain ⟨-, -, rfl⟩ | ⟨hne, -⟩ := hheld a.fd q hq
      · rfl
      · exact absurd ⟨he, rfl⟩ hne

theorem step_delete (h : Safe eplfd h₀ home s) {k : Kernel} (hc : s.pc t = .delete n a)
    (hk : s.sys.kernel.epollCtl a.epfd .del a.fd 0 a.o.kernelOk = some k) :
    Safe eplfd h₀ home (s.place t { s.sys with kernel := k } s.lock (.remove n 0 a)) := by
  have hok := h.ok_at hc
  have hheld : ∀ x q, k.interestOf eplfd x = some q →
      ¬ (a.epfd = eplfd ∧ x = a.fd) ∧ s.sys.kernel.interestOf eplfd x = some q := by
    intro x q hq
    obtain ⟨-, -, hl⟩ | hq := h.held_of_epollCtl hk hq
    · cases hl
    · exact hq
  refine h.byHolder (by rw [hc]; rfl) h.wellFormed (Kernel.epollOf_of_epollCtl hk) rfl
    ⟨Nat.le_refl _, fun _ _ => rfl, fun x p hp => .inl (hheld x p hp).2, fun _ _ hp => hp⟩
    (h.guarded.of (Nat.le_refl _) (fun _ _ _ hp => .inl hp) (fun x p hp => (hheld x p hp).2)
      (fun _ _ hp => .inl hp) fun _ _ _ hl => hl) ⟨hok.1, hok.2, ?_⟩
  intro he
  refine .inl (Option.eq_none_iff_forall_ne_some.mpr fun q hq => ?_)
  exact (hheld a.fd q hq).1 ⟨he, rfl⟩

theorem step_delete_refused (h : Safe eplfd h₀ home s) (hc : s.pc t = .delete n a)
    (hk : s.sys.kernel.epollCtl a.epfd .del a.fd 0 a.o.kernelOk = none)
    (hfine : a.epfd = eplfd → s.HasEntry n a.fd → s.Registered eplfd a.fd →
      a.o.kernelOk = true) :
    Safe eplfd h₀ home (s.place t s.sys s.lock (.remove n (-1) a)) := by
  have hok := h.ok_at hc
  refine h.moves (fun _ => h.locked t (by rw [hc]; rfl)) (fun _ _ hs => hs) ⟨hok.1, hok.2, ?_⟩
  intro he
  cases hq : s.sys.kernel.interestOf eplfd a.fd with
  | none => exact .inl hq
  | some q =>
    refine .inr ?_
    by_contra hent
    rw [hfine he hent (by simp [Conc.Registered, hq]), he] at hk
    rw [Kernel.interestOf_of_refused (.inr rfl) hk] at hq
    cases hq

end Holder

section Others

theorem step_ctl (h : Safe eplfd h₀ home s) (hl : s.lock = none) :
    Safe eplfd h₀ home (s.place t s.sys (some t) (Conc.branch s.sys a)) := by
  refine h.moves (fun _ => rfl) (fun t' _ ht' => ?_) ?_
  · rw [hl] at ht'
    cases ht'
  · simp only [Conc.branch]
    cases hn : s.sys.findEpoll a.epfd with
    | none =>
      intro p hp
      cases hp
    | some n =>
      obtain ⟨hown, hfd⟩ := h.find_own hn
      cases hop : a.op with
      | add => exact ⟨hown, hfd, .inr hop⟩
      | del => exact ⟨hown, hfd⟩
      | mod => exact ⟨hown, hfd, hop⟩
      | other c =>
        intro p hp
        cases hp

theorem step_unlock (h : Safe eplfd h₀ home s) {ret : Int} {blk : Option Nat}
    (hc : s.pc t = .unlock ret blk a) :
    Safe eplfd h₀ home (s.place t s.sys none (.exit ret blk a)) := by
  have hl : s.lock = some t := h.locked t (by rw [hc]; rfl)
  have hok := h.ok_at hc
  refine h.moves (by rintro ⟨⟩) (fun t' ht ht' => ?_) hok
  rw [hl] at ht'
  exact absurd (Option.some.inj ht').symm ht

/-- The block of a failed ADD or MOD. -/
theorem step_exit (h : Safe eplfd h₀ home s) {ret : Int} {blk : Option Nat}
    (hc : s.pc t = .exit ret blk a) (hun : c'.locked = false)
    (hok : ∀ V, c'.Ok eplfd h₀ home V) :
    Safe eplfd h₀ home (s.place t (Conc.freeBlk s.sys blk) s.lock c') := by
  have hunseen := h.ok_at hc
  have hnext : (Conc.freeBlk s.sys blk).blocks.next = s.sys.blocks.next := Arena.next_freeOpt
  exact h.byAnyone (by simp [hun]) (fun _ _ hs => hs) h.wellFormed (fun _ _ hi => hi)
    (fun _ hn => hn) ⟨hnext, fun _ _ hp => hp, fun _ _ _ hp => hp, fun _ _ hp => .inl hp⟩
    (h.guarded.frees (G := fun p => blk = some p) hnext rfl rfl (fun _ _ _ hp => .inl hp)
      (fun p hg hl => Arena.live_freeOpt.mpr ⟨hg, hl⟩) fun x p hg => (hunseen p hg).2 x) (hok _)

/-- `base_epoll_close` takes its epoll out of the list. -/
theorem step_unlink (h : Safe eplfd h₀ home s) {epfd : Int}
    (hn : s.sys.findEpoll epfd = some n) :
    Safe eplfd h₀ home (s.place t { s.sys with
      epollList := s.sys.epollList.eraseP fun n => n.epollFd == epfd } s.lock
      (.freeTable epfd n (s.sys.table n.pEventHash).toList)) := by
  obtain ⟨hown, hfd⟩ := h.find_own hn
  refine h.byAnyone (by rintro ⟨⟩) (fun _ _ hs => hs) h.wellFormed (fun _ _ hi => hi)
    (fun _ hm => List.mem_of_mem_eraseP hm) .refl h.guarded ⟨hown, hfd, ?_⟩
  intro x p hm
  exact h.guarded.entries n.pEventHash x p ((get_eq_some_iff (h.wellFormed _)).mpr hm)

/-- `base_epoll_close` frees one block. -/
theorem step_freeBlock (h : Safe eplfd h₀ home s) {epfd y : Int} {q : Nat}
    {rest : List (Int × Nat)} (hc : s.pc t = .freeTable epfd n ((y, q) :: rest))
    (hidle : epfd = eplfd → ¬ s.Awaiting y ∧ ¬ s.Registered eplfd y) :
    Safe eplfd h₀ home (s.place t (s.sys.baseEpollFreeEventBlock q) s.lock
      (.freeTable epfd n rest)) := by
  obtain ⟨hown, hfd, hrest⟩ := h.ok_at hc
  have hnext : (s.sys.baseEpollFreeEventBlock q).blocks.next = s.sys.blocks.next := by
    rw [Sys.freeBlock_blocks]
    rfl
  have hheld : (viewOf eplfd (s.sys.baseEpollFreeEventBlock q) s.Pending).held =
      (viewOf eplfd s.sys s.Pending).held := by simp [viewOf]
  have htable : ∀ h', (s.sys.baseEpollFreeEventBlock q).table h' = s.sys.table h' :=
    Sys.table_congr Sys.freeBlock_tables
  have hentry : ∀ h' x p, ((s.sys.baseEpollFreeEventBlock q).table h').get x = some p →
      (s.sys.table h').get x = some p := fun h' x p hp => by rwa [htable] at hp
  refine h.byAnyone (by rintro ⟨⟩) (fun _ _ hs => hs)
    (fun h' => by rw [htable]; exact h.wellFormed h') (fun _ _ hi => by simpa using hi)
    (fun _ hm => by rwa [Sys.freeBlock_epollList] at hm)
    ⟨hnext, fun x p hp => hheld ▸ hp, hentry, fun _ _ hp => .inl hp⟩
    (h.guarded.frees (G := fun p => p = q) hnext hheld rfl
      (fun h' x p hp => .inl (hentry h' x p hp)) ?_ ?_) ⟨hown, hfd, ?_⟩
  · intro p hg hl
    simp only [viewOf, Sys.freeBlock_blocks]
    exact Arena.live_free.mpr ⟨hg, hl⟩
  · rintro x p rfl
    refine h.unseen_of_home hown hfd (hrest y p List.mem_cons_self).2 ?_ x
    intro he
    obtain ⟨hwait, hreg⟩ := hidle he
    exact ⟨fun hp => hreg (by simp [Conc.Registered, hp]), not_pending hwait⟩
  · intro x p hm
    obtain ⟨hlt, hp⟩ := hrest x p (List.mem_cons_of_mem _ hm)
    exact ⟨Nat.lt_of_lt_of_le hlt (Nat.le_of_eq hnext.symm), hp⟩

theorem table_freeEpoll {sys : Sys Int} {h' : Nat} :
    (Conc.freeEpoll sys n).table h' =
      if h' = n.pEventHash then emptyTable else sys.table h' := by
  simp only [Conc.freeEpoll, Sys.table, Arena.free]
  by_cases hh : h' = n.pEventHash
  · simp only [hh, Function.update_self]
    rfl
  · simp [hh]

theorem step_freeEpoll (h : Safe eplfd h₀ home s) (epfd : Int) :
    Safe eplfd h₀ home (s.place t (Conc.freeEpoll s.sys n) s.lock (.closeNumber epfd)) := by
  have hentry : ∀ h' x p, ((Conc.freeEpoll s.sys n).table h').get x = some p →
      (s.sys.table h').get x = some p := by
    intro h' x p hp
    rw [table_freeEpoll] at hp
    split at hp
    · rw [get_emptyTable] at hp
      cases hp
    · exact hp
  refine h.byAnyone (by rintro ⟨⟩) (fun _ _ hs => hs) ?_ (fun _ _ hi => hi)
    (fun _ hm => hm) ⟨rfl, fun _ _ hp => hp, hentry, fun _ _ hp => .inl hp⟩
    (h.guarded.of (Nat.le_refl _) (fun h' x p hp => .inl (hentry h' x p hp)) (fun _ _ hp => hp)
      (fun _ _ hp => .inl hp) fun _ _ _ hl => hl) trivial
  intro h'
  rw [table_freeEpoll]
  split
  · exact wellFormed_emptyTable
  · exact h.wellFormed h'

theorem held_of_close {k : Kernel} {fd x : Int} {p : Nat}
    (h : (k.close fd).interestOf eplfd x = some p) : k.interestOf eplfd x = some p := by
  obtain ⟨i, hi, hp⟩ := Option.bind_eq_some_iff.mp h
  refine Option.bind_eq_some_iff.mpr ⟨i, epollOf_of_close hi, ?_⟩
  simp only [Kernel.close] at hp
  by_cases hx : x = fd
  · simp [hx] at hp
  · simpa [hx] using hp

/-- `SAFE_CLOSE`: the kernel forgets the descriptor. -/
theorem step_closeNumber (h : Safe eplfd h₀ home s) (fd : Int) :
    Safe eplfd h₀ home (s.place t (s.sys.safeClose fd) s.lock (.idle 0)) := by
  obtain ⟨-, he⟩ | ⟨-, he⟩ := Sys.safeClose_cases s.sys fd
  · rw [he]
    exact h.byAnyone (by rintro ⟨⟩) (fun _ _ hs => hs) h.wellFormed
      (fun _ _ hi => epollOf_of_close hi) (fun _ hm => hm)
      ⟨rfl, fun _ _ hp => held_of_close hp, fun _ _ _ hp => hp, fun _ _ hp => .inl hp⟩
      (h.guarded.of (Nat.le_refl _) (fun _ _ _ hp => .inl hp) (fun _ _ hp => held_of_close hp)
        (fun _ _ hp => .inl hp) fun _ _ _ hl => hl) trivial
  · rw [he]
    exact h.moves (by rintro ⟨⟩) (fun _ _ hs => hs) trivial

end Others

section Steps

variable {s' : Conc} {l : Label}

/-- ADD and MOD from `malloc` to `epoll_ctl`. -/
theorem attach_step (h : Safe eplfd h₀ home s) (hc : s.pc t = .attach n a)
    (hs : s.stepCaller t = some s') : ∃ home', Safe eplfd h₀ home' s' := by
  simp only [Conc.stepCaller, hc] at hs
  cases hm : a.o.mallocOk with
  | false =>
    rw [if_neg (by simp [hm])] at hs
    cases hs
    exact ⟨home, h.moves (fun _ => h.locked t (by rw [hc]; rfl)) (fun _ _ hs => hs)
      (by intro p hp; cases hp)⟩
  | true =>
    rw [if_pos hm] at hs
    cases hk : s.sys.kernel.epollCtl a.epfd a.op a.fd s.sys.blocks.next a.o.kernelOk with
    | none =>
      simp only [hk] at hs
      cases hs
      exact ⟨home, h.step_attach_refused hc _⟩
    | some k =>
      simp only [hk] at hs
      cases hs
      exact ⟨_, h.step_attach hc _ hk⟩

theorem delete_step (h : Safe eplfd h₀ home s) (hc : s.pc t = .delete n a)
    (hok : s.UnracedAt eplfd (.delete n a)) (hs : s.stepCaller t = some s') :
    Safe eplfd h₀ home s' := by
  simp only [Conc.stepCaller, hc] at hs
  cases hk : s.sys.kernel.epollCtl a.epfd .del a.fd 0 a.o.kernelOk with
  | none =>
    simp only [hk] at hs
    cases hs
    exact h.step_delete_refused hc hk hok
  | some k =>
    simp only [hk] at hs
    cases hs
    exact h.step_delete hc hk

theorem close_step (h : Safe eplfd h₀ home s) {epfd : Int} (hc : s.pc t = .close epfd)
    (hs : s.stepCaller t = some s') : Safe eplfd h₀ home s' := by
  simp only [Conc.stepCaller, hc] at hs
  split at hs
  · cases hs
    exact h.moves (by rintro ⟨⟩) (fun _ _ hs => hs) trivial
  · split at hs
    · cases hs
    · split at hs
      · cases hs
        exact h.moves (by rintro ⟨⟩) (fun _ _ hs => hs) trivial
      · next n hn =>
        cases hs
        exact h.step_unlink hn

/-- One step of a caller. -/
theorem caller_step (h : Safe eplfd h₀ home s) (hok : s.UnracedAt eplfd (s.pc t))
    (hs : s.stepCaller t = some s') : ∃ home', Safe eplfd h₀ home' s' := by
  cases hc : s.pc t with
  | idle ret =>
    simp only [Conc.stepCaller, hc] at hs
    cases hs
  | ctl a =>
    simp only [Conc.stepCaller, hc] at hs
    split at hs
    · cases hs
    · next hl =>
      cases hs
      exact ⟨home, h.step_ctl hl⟩
  | attach n a => exact h.attach_step hc hs
  | insert n p a =>
    rw [hc] at hok
    simp only [Conc.stepCaller, hc] at hs
    cases hs
    exact ⟨home, h.step_insert hc hok⟩
  | delete n a => exact ⟨home, h.delete_step hc (hc ▸ hok) hs⟩
  | remove n ret a =>
    rw [hc] at hok
    simp only [Conc.stepCaller, hc] at hs
    cases hs
    exact ⟨home, h.step_remove hc hok⟩
  | replace n a =>
    rw [hc] at hok
    simp only [Conc.stepCaller, hc] at hs
    cases hs
    exact ⟨home, h.step_replace hc hok⟩
  | unlock ret blk a =>
    simp only [Conc.stepCaller, hc] at hs
    cases hs
    exact ⟨home, h.step_unlock hc⟩
  | exit ret blk a =>
    simp only [Conc.stepCaller, hc] at hs
    cases hs
    refine ⟨home, h.step_exit hc ?_ ?_⟩
    · split <;> rfl
    · intro V
      split <;> trivial
  | close epfd => exact ⟨home, h.close_step hc hs⟩
  | freeTable epfd n rest =>
    cases rest with
    | nil =>
      simp only [Conc.stepCaller, hc] at hs
      cases hs
      exact ⟨home, h.step_freeEpoll epfd⟩
    | cons e rest =>
      rw [hc] at hok
      simp only [Conc.stepCaller, hc] at hs
      cases hs
      exact ⟨home, h.step_freeBlock hc hok⟩
  | closeNumber fd =>
    simp only [Conc.stepCaller, hc] at hs
    cases hs
    exact ⟨home, h.step_closeNumber fd⟩

/-- A step of the dispatcher that leaves the system alone. -/
theorem dispatches (h : Safe eplfd h₀ home s) {d : Dispatcher}
    (hd : ∀ e ∈ d.batch, ∀ p, e.2.ptr = some p →
      s.Pending e.1 p ∨ s.sys.kernel.interestOf eplfd e.1 = some p) :
    Safe eplfd h₀ home { s with dispatcher := d } := by
  have hpend : ∀ x p, ({ s with dispatcher := d } : Conc).Pending x p →
      s.Pending x p ∨ s.sys.kernel.interestOf eplfd x = some p := by
    rintro x p ⟨e, he, rfl, hp⟩
    exact hd e he p hp
  have hs : Shrinks (viewOf eplfd s.sys s.Pending)
      (viewOf eplfd s.sys ({ s with dispatcher := d } : Conc).Pending) :=
    ⟨rfl, fun _ _ hp => hp, fun _ _ _ hp => hp, hpend⟩
  exact ⟨h.wellFormed, h.distinct, h.nodes, h.guarded.of (Nat.le_refl _)
    (fun _ _ _ hp => .inl hp) (fun _ _ hp => hp) hpend (fun _ _ _ hl => hl), h.locked,
    fun t => (h.places t).shrinks hs⟩

/-- The dispatcher closes its epoll and drops what it has not dispatched. -/
theorem leaves (h : Safe eplfd h₀ home s) : Safe eplfd h₀ home (s.leave eplfd) := by
  have hnone : ∀ x p, ¬ (s.leave eplfd).Pending x p := by
    rintro x p ⟨e, he, -⟩
    cases he
  have hs : Shrinks (viewOf eplfd s.sys s.Pending)
      (viewOf eplfd (s.leave eplfd).sys (s.leave eplfd).Pending) :=
    ⟨rfl, fun _ _ hp => held_of_close hp, fun _ _ _ hp => hp,
      fun x p hp => absurd hp (hnone x p)⟩
  refine ⟨h.wellFormed, ?_, h.nodes, h.guarded.of (Nat.le_refl _) (fun _ _ _ hp => .inl hp)
    (fun _ _ hp => held_of_close hp) (fun x p hp => absurd hp (hnone x p))
    (fun _ _ _ hl => hl), h.locked, fun t => (h.places t).shrinks hs⟩
  intro a b i ha hb
  exact h.distinct a b i (epollOf_of_close ha) (epollOf_of_close hb)

/-- A call begins. -/
theorem calls (h : Safe eplfd h₀ home s) (hc' : c'.locked = false)
    (hok : ∀ V, c'.Ok eplfd h₀ home V) : Safe eplfd h₀ home (s.goto t c') :=
  h.moves (by simp [hc']) (fun _ _ hs => hs) (hok _)

/-- `timerfd_settime` does not touch what the invariant sees. -/
theorem setsTime (h : Safe eplfd h₀ home s) {k : Kernel}
    (hof : k.epollOf = s.sys.kernel.epollOf) (hi : k.interest = s.sys.kernel.interest) :
    Safe eplfd h₀ home { s with sys := { s.sys with kernel := k } } := by
  have hview : viewOf eplfd { s.sys with kernel := k } s.Pending =
      viewOf eplfd s.sys s.Pending := by
    unfold viewOf Kernel.interestOf
    simp only [hof, hi]
    rfl
  refine ⟨h.wellFormed, ?_, h.nodes, ?_, h.locked, ?_⟩
  · intro a b i ha hb
    exact h.distinct a b i (hof ▸ ha) (hof ▸ hb)
  · have hg := h.guarded
    rw [← hview] at hg
    exact hg
  · intro t
    have hp := h.places t
    rw [← hview] at hp
    exact hp

theorem settime_getD (k : Kernel) (tfd : Int) (its : Itimerspec) (ok : Bool) :
    ((k.timerfdSettime tfd its ok).getD k).epollOf = k.epollOf ∧
      ((k.timerfdSettime tfd its ok).getD k).interest = k.interest := by
  simp only [Kernel.timerfdSettime]
  split
  · exact ⟨Kernel.setTimer_epollOf, Kernel.setTimer_interest⟩
  · exact ⟨rfl, rfl⟩

theorem fetch_step (h : Safe eplfd h₀ home s) {es : List (Int × Fetched)}
    (hs : s.next eplfd (.fetch es) = some s') : Safe eplfd h₀ home s' := by
  simp only [Conc.next] at hs
  split at hs
  · split at hs
    · next hdel =>
      cases hs
      refine h.dispatches ?_
      intro e he p hp
      obtain ⟨-, hptr⟩ := hdel.2.2 e he
      exact .inr (hptr.symm.trans hp)
    · cases hs
  · cases hs

theorem dispatch_step (h : Safe eplfd h₀ home s) (hs : s.next eplfd .dispatch = some s') :
    Safe eplfd h₀ home s' := by
  simp only [Conc.next] at hs
  split at hs
  · cases hs
    exact h.dispatches (by rintro e ⟨⟩)
  · next e es hd =>
    -- what is left of the batch was pending before
    have hrest : ∀ e' ∈ es, ∀ p, e'.2.ptr = some p →
        s.Pending e'.1 p ∨ s.sys.kernel.interestOf eplfd e'.1 = some p := by
      intro e' he' p hp
      refine .inl ⟨e', ?_, rfl, hp⟩
      rw [hd]
      exact List.mem_cons_of_mem _ he'
    split at hs
    · cases hs
      exact h.dispatches hrest
    · cases hs
      exact h.dispatches hrest
    · cases hs
      exact h.leaves
  · cases hs

theorem resume_step (h : Safe eplfd h₀ home s) (hs : s.next eplfd .resume = some s') :
    Safe eplfd h₀ home s' := by
  simp only [Conc.next] at hs
  split at hs
  · next p es ret hd _ =>
    cases hs
    refine h.dispatches ?_
    intro e he q hq
    refine .inl ⟨e, ?_, rfl, hq⟩
    rw [hd]
    exact he
  · cases hs

/-- Every step that is not raced keeps the invariant. -/
theorem step (h : Safe eplfd h₀ home s) (hok : s.Unraced eplfd l)
    (hs : s.next eplfd l = some s') : ∃ home', Safe eplfd h₀ home' s' := by
  cases l with
  | ctl t a =>
    simp only [Conc.next] at hs
    split at hs
    · cases hs
      exact ⟨home, h.calls rfl fun _ => trivial⟩
    · cases hs
  | timerStop t settimeOk o epfd tfd =>
    simp only [Conc.next] at hs
    split at hs
    · cases hs
      have hset := settime_getD s.sys.kernel tfd ⟨⟨0, 0⟩, ⟨0, 0⟩⟩ settimeOk
      exact ⟨home, (h.setsTime hset.1 hset.2).calls rfl fun _ => trivial⟩
    · cases hs
  | close t epfd =>
    simp only [Conc.next] at hs
    split at hs
    · cases hs
      exact ⟨home, h.calls rfl fun _ => trivial⟩
    · cases hs
  | step t => exact h.caller_step hok hs
  | fetch es => exact ⟨home, h.fetch_step hs⟩
  | waitError =>
    simp only [Conc.next] at hs
    split at hs
    · cases hs
      exact ⟨home, h.leaves⟩
    · cases hs
  | dispatch => exact ⟨home, h.dispatch_step hs⟩
  | resume => exact ⟨home, h.resume_step hs⟩

end Steps

/-- The table of `eplfd`, or an address that is no table's. -/
theorem exists_own {s : Sys Int} (h : Pristine s) (eplfd : Int) :
    ∃ h₀, ∀ n ∈ s.epollList, Own eplfd h₀ n := by
  by_cases hex : ∃ m ∈ s.epollList, m.epollFd = eplfd
  · obtain ⟨m, hm, rfl⟩ := hex
    exact ⟨m.pEventHash, fun n hn => ⟨(h.listed n hn).1, h.apart n hn m hm⟩⟩
  · refine ⟨s.tables.next, fun n hn => ⟨(h.listed n hn).1, ?_⟩⟩
    constructor
    · intro he
      exact absurd ⟨n, hn, he⟩ hex
    · intro he
      exact absurd he (Nat.ne_of_lt (h.listed n hn).2.2)

theorem init (h : (dispatchSystem eplfd).Init s) : ∃ h₀ home, Safe eplfd h₀ home s := by
  obtain ⟨hcreated, hl, hpc, hd⟩ := h
  have hp := pristine_of_created hcreated
  obtain ⟨h₀, hown⟩ := exists_own hp eplfd
  refine ⟨h₀, fun _ => (0, 0), ?_, hp.numbered.distinct, hown, ⟨?_, ?_, ?_⟩, ?_, ?_⟩
  · intro h'
    rw [hp.tables]
    exact wellFormed_emptyTable
  · intro h' x p hx
    simp only [viewOf, hp.tables, get_emptyTable] at hx
    cases hx
  · intro x p hx
    obtain ⟨i, -, hi⟩ := Option.bind_eq_some_iff.mp hx
    rw [hp.interest] at hi
    cases hi
  · rintro x p ⟨e, he, -⟩
    rw [hd] at he
    cases he
  · intro t ht
    rw [hpc] at ht
    cases ht
  · intro t
    rw [hpc]
    trivial

theorem ptr_of_react {e : Fetched} {p : Nat} (h : react e = .callback p) : e.ptr = some p := by
  simp only [react] at h
  split at h
  · split at h
    · next hptr =>
      cases h
      exact hptr
    · cases h
  · split at h
    · cases h
    · split at h
      · cases h
      · cases h

theorem noStaleDispatch (h : Safe eplfd h₀ home s) : s.NoStaleDispatch eplfd where
  called d es p hd hr := by
    refine (h.guarded.fetched d.1 p ⟨d, ?_, rfl, ptr_of_react hr⟩).2.2
    rw [hd]
    exact List.mem_cons_self
  fetched d hd p hp := (h.guarded.fetched d.1 p ⟨d, hd, rfl, hp⟩).2.2
  deliverable x p hx := (h.guarded.held x p hx).2.2

end Safe

/-- In every run without a race, no event that is fetched or can be delivered refers to a freed
block. -/
theorem dispatch_fresh {eplfd : Int} {s : Conc}
    (h : (dispatchSystem eplfd).ReachableUnder (fun s l => s.Unraced eplfd l) s) :
    s.NoStaleDispatch eplfd := by
  have hinv : ∃ h₀ home, Safe eplfd h₀ home s := by
    refine System.ReachableUnder.invariant (I := fun s => ∃ h₀ home, Safe eplfd h₀ home s)
      ?_ ?_ h
    · intro s hs
      exact Safe.init hs
    · rintro s l s' ⟨h₀, home, hsafe⟩ hok hs
      exact ⟨h₀, hsafe.step hok hs⟩
  obtain ⟨h₀, home, hsafe⟩ := hinv
  exact hsafe.noStaleDispatch

/-- An epoll 5, created and idle. -/
def createdFive : Conc :=
  ⟨(Sys.empty.baseEpollCreate (.fine 5)).2, none, fun _ => .idle 0, .waiting⟩

theorem init_createdFive : (dispatchSystem 5).Init createdFive :=
  ⟨.create .empty rfl, rfl, fun _ => rfl, rfl⟩

/-- A call that asks for `op` on descriptor `fd` of epoll 5. -/
def callFive (op : CtlOp) (fd : Int) : CtlArgs :=
  ⟨5, op, fd, .own ⟨5, fd, 0, none, 0⟩, .fine, false⟩

/-- A readable event of block `p`. -/
def readable (p : Nat) : Fetched := ⟨true, false, false, some p⟩

/-- Descriptors 7 and 8 become readable together, and the callback of 7 deletes its own
descriptor while the event of 8 waits. -/
def ownDelete : List Label :=
  .ctl 1 (callFive .add 7) :: List.replicate 5 (.step 1) ++
    .ctl 1 (callFive .add 8) :: List.replicate 5 (.step 1) ++
    [.fetch [(7, readable 0), (8, readable 1)], .dispatch] ++
    .ctl 0 (callFive .del 7) :: List.replicate 5 (.step 0)

theorem dispatch_fresh_ownDelete : ∃ s : Conc, s.dispatcher = .calling 0 [(8, readable 1)] ∧
    ¬ s.sys.blocks.Live 0 ∧ s.NoStaleDispatch 5 := by
  have h0 : (dispatchSystem 5).ReachableUnder (fun s l => s.Unraced 5 l) createdFive :=
    .init init_createdFive
  have h := h0.replay_get (Conc.next 5) (fun _ _ _ hs => hs) ownDelete (by decide)
  exact ⟨_, rfl, by decide, dispatch_fresh h⟩

/-- Another thread deletes descriptor 7 after its event was fetched and before it is dispatched:
the dispatcher then calls back on a freed block. -/
theorem dispatch_stale :
    ¬ ∀ s : Conc, (dispatchSystem 5).Reachable s → s.NoStaleDispatch 5 := by
  intro h
  have hr := System.Reachable.replay_get (S := dispatchSystem 5) (Conc.next 5)
    (fun _ _ _ hs => hs) (.init init_createdFive)
    (Label.ctl 1 (callFive .add 7) :: List.replicate 5 (.step 1) ++ .fetch [(7, readable 0)] ::
      .ctl 1 (callFive .del 7) :: List.replicate 5 (.step 1)) (by decide)
  have hlive := (h _ hr).called (7, readable 0) [] 0 rfl rfl
  revert hlive
  decide

end BaseCode.Epoll
