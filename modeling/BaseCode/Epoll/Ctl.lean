import BaseCode.Comm.HashTableSpec
import BaseCode.Epoll.Frames

/-!
# Is `base_epoll_ctl` all or nothing?

One call on a registry whose tables are keyed by the descriptors. It returns 0 for an unknown
epoll or operation and when the table insertion fails, and DEL and MOD have let go of the
table's block when they report an error. `ctl_allOrNothing_iff` says exactly when none of this
happens.
-/

namespace BaseCode.Epoll
open Foundation Comm

/-- The copy attached to a block has been allocated. -/
def CopyBelow (ev : EpollEvent) (next : Nat) : Prop :=
  ∀ c, ev.data = some (.copy c) → c < next

/-- What every registry state keeps: the tables are well formed, and no address is used before
it is allocated. -/
structure Sane (s : Sys Int) : Prop where
  wellFormed : ∀ h, WellFormed (s.table h)
  live_lt : ∀ p, s.blocks.Live p → p < s.blocks.next
  values_lt : ∀ h x p, (s.table h).get x = some p → p < s.blocks.next
  datas_lt : ∀ p ev, s.blocks.cells p = some ev → CopyBelow ev s.datas.next

/-- A registry state. -/
def Registry : Type := { s : Sys Int // Sane s }

namespace Sys

variable {s : Sys Int} {h p q : Nat} {x y : Int} {o : CtlOutcome}

section TableOps

/-- The block that a removal frees is the one stored for the descriptor. -/
theorem removeEvent_blocks_get (hw : WellFormed (s.table h)) :
    (s.removeEvent intKeys h x).blocks = s.blocks.freeOpt ((s.table h).get x) := by
  rw [removeEvent_blocks]
  obtain ⟨hg, he⟩ | ⟨q, t', hg, he, -, -⟩ := remove_spec hw x
  · rw [hg, he]
  · rw [hg, he]

theorem insertEvent_get (hw : WellFormed (s.table h)) {h' : Nat} :
    ((s.insertEvent intKeys h x p o).table h').get y =
      if h' = h ∧ y = x ∧ InsertFits (s.table h) x o.callocOk o.entryOk then some p
      else (s.table h').get y := by
  rw [insertEvent_table]
  obtain ⟨hi, hret⟩ := insert_spec hw x p o.callocOk o.entryOk
  by_cases hh : h' = h
  · subst hh
    rw [if_pos rfl, hi.get hw y]
    simp only [hret, true_and]
  · simp [hh]

theorem removeEvent_get (hw : WellFormed (s.table h)) {h' : Nat} :
    ((s.removeEvent intKeys h x).table h').get y =
      if h' = h ∧ y = x then none else (s.table h').get y := by
  rw [removeEvent_table]
  by_cases hh : h' = h
  · subst hh
    rw [if_pos rfl, get_remove hw x y]
    simp
  · simp [hh]

end TableOps

end Sys

/-- `h` is the event table of the epoll that `epfd` denotes at the moment. -/
def OwnTable (s : Sys Int) (epfd : Int) (h : Nat) : Prop :=
  ∃ n ∈ s.epollList, s.kernel.epollOf epfd = some n.inst ∧ n.pEventHash = h

/-- The change that was asked for is in the interest set of the epoll that `epfd` denotes and in
its event table. The block of an ADD or MOD call is the next one to be allocated, and it holds
the event that was behind the argument at the call. -/
def TookEffect (s s' : Sys Int) (epfd : Int) (op : CtlOp) (eventFd : Int) (arg : EventArg) :
    Prop :=
  ∃ h, OwnTable s epfd h ∧
    match op with
    | .add | .mod => s'.kernel.interestOf epfd eventFd = some s.blocks.next ∧
        (s'.table h).get eventFd = some s.blocks.next ∧
        s'.blocks.cells s.blocks.next = some (s.readEvent arg)
    | .del => s.kernel.interestOf epfd eventFd ≠ none ∧
        s'.kernel.interestOf epfd eventFd = none ∧
        (s'.table h).get eventFd = none
    | .other _ => False

/-- A block that an interest set or an event table refers to. -/
def Referenced (s : Sys Int) (p : Nat) : Prop :=
  (∃ i x, s.kernel.interest i x = some p) ∨ ∃ h x, (s.table h).get x = some p

/-- Interest sets and tables are as before, and the call freed no block they refer to. -/
structure Unchanged (s s' : Sys Int) : Prop where
  interest : s'.kernel.interest = s.kernel.interest
  tables : ∀ h, s'.table h = s.table h
  allocated : ∀ p, Referenced s' p → s.blocks.Live p → s'.blocks.Live p

/-- 0 is returned exactly when the change took effect, anything else when nothing changed. -/
def AllOrNothing (s : Sys Int) (r : Int × Sys Int) (epfd : Int) (op : CtlOp) (eventFd : Int)
    (arg : EventArg) : Prop :=
  (r.1 = 0 ↔ TookEffect s r.2 epfd op eventFd arg) ∧ (r.1 ≠ 0 → Unchanged s r.2)

/-- If the argument points to the block `freed`, its memory reads after the free what it read
before. -/
def EventArg.Survives (s : Sys Int) (freed : Option Nat) : EventArg → Prop
  | .own _ => True
  | .block p stale => freed = some p → s.readEvent (.block p stale) = stale

/-- A node with the number `epfd` is found and the operation is a known one. Where `epoll_ctl`
succeeds, the node's table is the one of the epoll that `epfd` denotes (a DEL may also be for a
descriptor that the right table does not have) and `hash_table_insert` gets its memory; a DEL
or MOD that fails is for a descriptor without an entry; and a MOD that is given the block it
replaces still reads the event from it. -/
def CtlHonest (s : Sys Int) (o : Sys.CtlOutcome) (epfd : Int) (op : CtlOp) (eventFd : Int)
    (arg : EventArg) : Prop :=
  ∃ n, s.findEpoll epfd = some n ∧
    match op with
    | .add => o.mallocOk = true → s.kernel.accepts epfd .add eventFd o.kernelOk = true →
        OwnTable s epfd n.pEventHash ∧
        InsertFits (s.table n.pEventHash) eventFd o.callocOk o.entryOk
    | .del =>
        (s.kernel.accepts epfd .del eventFd o.kernelOk = true → ∃ h, OwnTable s epfd h ∧
          (h = n.pEventHash ∨ (s.table h).get eventFd = none)) ∧
        (s.kernel.accepts epfd .del eventFd o.kernelOk = false →
          (s.table n.pEventHash).get eventFd = none)
    | .mod =>
        (o.mallocOk = true → s.kernel.accepts epfd .mod eventFd o.kernelOk = true →
          OwnTable s epfd n.pEventHash ∧
          InsertFits (hashTableRemove intKeys (s.table n.pEventHash) eventFd).2 eventFd
            o.callocOk o.entryOk ∧
          arg.Survives s ((s.table n.pEventHash).get eventFd)) ∧
        ((o.mallocOk && s.kernel.accepts epfd .mod eventFd o.kernelOk) = false →
          (s.table n.pEventHash).get eventFd = none)
    | .other _ => False

section

variable {s : Sys Int} {n : EpollNode} {o : Sys.CtlOutcome} {epfd eventFd : Int} {op : CtlOp}
  {ev : EpollEvent} {arg : EventArg}

theorem sane_empty : Sane Sys.empty where
  wellFormed _ := wellFormed_emptyTable
  live_lt _ hp := by cases hp
  values_lt h x p hp := by
    have hnone : (Sys.empty.table h).get x = none := get_emptyTable
    rw [hnone] at hp
    cases hp
  datas_lt p ev hp := by cases hp

/-- Blocks may come and go as long as the addresses stay below the next one. -/
theorem Sane.blocks (hs : Sane s) {s' : Sys Int} (ht : s'.tables = s.tables)
    (hn : s.blocks.next ≤ s'.blocks.next) (hl : ∀ p, s'.blocks.Live p → p < s'.blocks.next)
    (hd : ∀ p ev, s'.blocks.cells p = some ev → CopyBelow ev s'.datas.next) : Sane s' where
  wellFormed h := Sys.table_congr ht h ▸ hs.wellFormed h
  live_lt := hl
  values_lt h x p hp := by
    rw [Sys.table_congr ht] at hp
    exact Nat.lt_of_lt_of_le (hs.values_lt h x p hp) hn
  datas_lt := hd

/-- A new block, whether it stays or is freed at once. -/
theorem Sane.allocBlock (hs : Sane s) (hev : CopyBelow ev s.datas.next) (k : Kernel) :
    Sane { s with blocks := s.blocks.alloc ev, kernel := k } ∧
    Sane { s with blocks := (s.blocks.alloc ev).free s.blocks.next } := by
  have hlive : ∀ p, (s.blocks.alloc ev).Live p → p < s.blocks.next + 1 := by
    intro p hp
    rcases Arena.live_alloc.mp hp with rfl | hp
    · exact Nat.lt_succ_self _
    · exact Nat.lt_succ_of_lt (hs.live_lt p hp)
  have hcopy : ∀ p e, (s.blocks.alloc ev).cells p = some e → CopyBelow e s.datas.next := by
    intro p e hp
    by_cases hpn : p = s.blocks.next
    · simp only [Arena.alloc, hpn, Function.update_self, Option.some.injEq] at hp
      exact hp ▸ hev
    · simp only [Arena.alloc, Function.update_of_ne hpn] at hp
      exact hs.datas_lt p e hp
  refine ⟨hs.blocks rfl (Nat.le_succ _) hlive hcopy, hs.blocks rfl (Nat.le_succ _) ?_ ?_⟩
  · intro p hp
    exact hlive p (Arena.live_free.mp hp).2
  · intro p e hp
    exact hcopy p e (Arena.cells_of_free hp)

theorem Sane.freeValue (hs : Sane s) (v : Option Nat) : Sane (s.freeValue v) := by
  cases v with
  | none => exact hs
  | some q =>
    refine hs.blocks Sys.freeBlock_tables ?_ ?_ ?_
    · exact Nat.le_of_eq (by simp)
    · intro p hp
      simp only [Sys.freeValue, Sys.freeBlock_blocks] at hp ⊢
      exact hs.live_lt p (Arena.live_free.mp hp).2
    · intro p e hp
      simp only [Sys.freeValue, Sys.freeBlock_blocks, Sys.freeBlock_datas_next] at hp ⊢
      exact hs.datas_lt p e (Arena.cells_of_free hp)

/-- A table is exchanged for one with known blocks. -/
theorem Sane.setTable (hs : Sane s) {h : Nat} {t : HashTable Int Nat} (hw : WellFormed t)
    (hlt : ∀ x p, t.get x = some p → p < s.blocks.next) :
    Sane { s with tables := s.tables.set h t } where
  wellFormed h' := by
    rw [Sys.table_set]
    split
    · exact hw
    · exact hs.wellFormed h'
  live_lt := hs.live_lt
  values_lt h' x p hp := by
    rw [Sys.table_set] at hp
    split at hp
    · exact hlt x p hp
    · exact hs.values_lt h' x p hp
  datas_lt := hs.datas_lt

theorem Sane.removeEvent (hs : Sane s) (h : Nat) (x : Int) :
    Sane (s.removeEvent intKeys h x) := by
  have hw := hs.wellFormed h
  refine (hs.setTable (hw.remove x) ?_).freeValue _
  intro y p hp
  rw [get_remove hw] at hp
  split at hp
  · cases hp
  · exact hs.values_lt h y p hp

theorem Sane.insertEvent (hs : Sane s) (h : Nat) (x : Int) {p : Nat} (hp : p < s.blocks.next)
    (o : Sys.CtlOutcome) : Sane (s.insertEvent intKeys h x p o) := by
  have hw := hs.wellFormed h
  have hi := (insert_spec hw x p o.callocOk o.entryOk).1
  refine (hs.setTable hi.wellFormed ?_).freeValue _
  intro y q hq
  rw [hi.get hw] at hq
  split at hq
  · cases hq
    exact hp
  · exact hs.values_lt h y q hq

theorem Sane.attachBlock (hs : Sane s) (x : Int) (hev : CopyBelow ev s.datas.next) :
    Sane (s.attachBlock intKeys x o n epfd op eventFd ev).2 := by
  obtain ⟨-, he⟩ | ⟨-, -, he⟩ | ⟨k, -, -, he⟩ :=
    Sys.attachBlock_cases intKeys x o s n epfd op eventFd ev
  · rw [he]
    exact hs
  · rw [he]
    exact (hs.allocBlock hev s.kernel).2
  · rw [he]
    exact (hs.allocBlock hev k).1.insertEvent n.pEventHash x (Nat.lt_succ_self _) o

theorem Sane.detachBlock (hs : Sane s) (x : Int) :
    Sane (s.detachBlock intKeys x o n epfd eventFd).2 := by
  obtain ⟨-, he⟩ | ⟨k, -, he⟩ := Sys.detachBlock_cases intKeys x o s n epfd eventFd
  · rw [he]
    exact hs.removeEvent _ _
  · rw [he]
    have hs' : Sane { s with kernel := k } := ⟨hs.wellFormed, hs.live_lt, hs.values_lt, hs.datas_lt⟩
    exact hs'.removeEvent _ _

/-- What is read of an argument that points to no allocated block. -/
def EventArg.spare : EventArg → EpollEvent
  | .own ev => ev
  | .block _ stale => stale

theorem Sane.readEvent (hs : Sane s) (hev : CopyBelow arg.spare s.datas.next) :
    CopyBelow (s.readEvent arg) s.datas.next := by
  cases arg with
  | own ev => exact hev
  | block p stale =>
    simp only [Sys.readEvent]
    cases hp : s.blocks.cells p with
    | none => exact hev
    | some ev => exact hs.datas_lt p ev hp

theorem Sane.epollCtl (hs : Sane s) (o : Sys.CtlOutcome) (epfd : Int) (op : CtlOp)
    (eventFd : Int) {arg : EventArg} (hev : CopyBelow arg.spare s.datas.next) :
    Sane (s.epollCtl o epfd op eventFd arg).2 := by
  refine Sys.ctl_induction (P := fun r => Sane r.2) intKeys intKeys eventFd o s epfd op eventFd
    arg hs ?_ ?_ ?_
  · intro n _
    exact hs.attachBlock eventFd (hs.readEvent hev)
  · intro n _
    exact hs.detachBlock eventFd
  · intro n _
    have hs1 := hs.removeEvent n.pEventHash eventFd
    exact hs1.attachBlock eventFd (hs1.readEvent (by simpa using hev))

theorem Sane.allocTable (hs : Sane s) : Sane { s with tables := s.tables.alloc emptyTable } := by
  have ht : ∀ h, ({ s with tables := s.tables.alloc emptyTable } : Sys Int).table h =
      if h = s.tables.next then emptyTable else s.table h := by
    intro h
    simp only [Sys.table, Arena.alloc]
    by_cases hh : h = s.tables.next
    · simp [hh]
    · simp [hh]
  refine ⟨?_, hs.live_lt, ?_, hs.datas_lt⟩
  · intro h
    rw [ht]
    split
    · exact wellFormed_emptyTable
    · exact hs.wellFormed h
  · intro h x p hp
    rw [ht] at hp
    split at hp
    · rw [get_emptyTable] at hp
      cases hp
    · exact hs.values_lt h x p hp

theorem Sane.create (hs : Sane s) (c : Sys.CreateOutcome) : Sane (s.baseEpollCreate c).2 := by
  have hends := Sys.create_ends s c
  generalize s.baseEpollCreate c = r at hends
  cases hends with
  | refused => exact ⟨hs.wellFormed, hs.live_lt, hs.values_lt, hs.datas_lt⟩
  | noHash => exact ⟨hs.wellFormed, hs.live_lt, hs.values_lt, hs.datas_lt⟩
  | noEpoll => exact ⟨hs.allocTable.wellFormed, hs.live_lt, hs.allocTable.values_lt, hs.datas_lt⟩
  | noNode => exact ⟨hs.allocTable.wellFormed, hs.live_lt, hs.allocTable.values_lt, hs.datas_lt⟩
  | created => exact ⟨hs.allocTable.wellFormed, hs.live_lt, hs.allocTable.values_lt, hs.datas_lt⟩

theorem Sane.freeBlocks (hs : Sane s) (l : List Nat) :
    Sane (l.foldl Sys.baseEpollFreeEventBlock s) := by
  induction l generalizing s with
  | nil => exact hs
  | cons p l ih => exact ih (hs.freeValue (some p))

theorem Sane.freeHash (hs : Sane s) (h : Nat) : Sane (s.baseEpollFreeEventHash h) := by
  have hs' := hs.freeBlocks (s.table h).values
  simp only [Sys.baseEpollFreeEventHash]
  generalize (s.table h).values.foldl Sys.baseEpollFreeEventBlock s = s1 at hs'
  have ht : ∀ h', ({ s1 with tables := s1.tables.free h } : Sys Int).table h' =
      if h' = h then emptyTable else s1.table h' := by
    intro h'
    simp only [Sys.table, Arena.free]
    by_cases hh : h' = h
    · simp [hh, default]
    · simp [hh]
  refine ⟨?_, hs'.live_lt, ?_, hs'.datas_lt⟩
  · intro h'
    rw [ht]
    split
    · exact wellFormed_emptyTable
    · exact hs'.wellFormed h'
  · intro h' x p hp
    rw [ht] at hp
    split at hp
    · rw [get_emptyTable] at hp
      cases hp
    · exact hs'.values_lt h' x p hp

theorem Sane.safeClose (hs : Sane s) (fd : Int) : Sane (s.safeClose fd) := by
  obtain ⟨-, he⟩ | ⟨-, he⟩ := Sys.safeClose_cases s fd
  · rw [he]
    exact ⟨hs.wellFormed, hs.live_lt, hs.values_lt, hs.datas_lt⟩
  · rw [he]
    exact hs

theorem Sane.close (hs : Sane s) (fd : Int) : Sane (s.baseEpollClose fd) := by
  obtain ⟨-, he⟩ | ⟨-, he⟩ | ⟨n, -, he⟩ := Sys.close_cases s fd
  · rw [he]
    exact hs
  · rw [he]
    exact hs.safeClose fd
  · rw [he]
    have hunlink : Sane { s with epollList := s.epollList.eraseP fun n => n.epollFd == fd } :=
      ⟨hs.wellFormed, hs.live_lt, hs.values_lt, hs.datas_lt⟩
    have hfreed := hunlink.freeHash n.pEventHash
    apply Sane.safeClose
    exact ⟨hfreed.wellFormed, hfreed.live_lt, hfreed.values_lt, hfreed.datas_lt⟩

/-- ADD and MOD where `malloc` or `epoll_ctl` fails: at most a block came and went. -/
theorem attachBlock_fails (hs : Sane s) (n : EpollNode) (ev : EpollEvent)
    (hf : (o.mallocOk && s.kernel.accepts epfd op eventFd o.kernelOk) = false) :
    ∃ A, s.attachBlock intKeys eventFd o n epfd op eventFd ev = (-1, { s with blocks := A }) ∧
      (∀ p, s.blocks.Live p → A.Live p) ∧ ¬ A.Live s.blocks.next := by
  obtain ⟨-, he⟩ | ⟨-, -, he⟩ | ⟨k, hm, hk, -⟩ :=
    Sys.attachBlock_cases intKeys eventFd o s n epfd op eventFd ev
  · exact ⟨s.blocks, he, fun p hp => hp, fun hl => Nat.lt_irrefl _ (hs.live_lt _ hl)⟩
  · refine ⟨_, he, fun p hp => ?_, fun hl => (Arena.live_free.mp hl).1 rfl⟩
    have hlt := hs.live_lt p hp
    exact Arena.live_free.mpr ⟨by omega, Arena.live_alloc.mpr (.inr hp)⟩
  · rw [hm, ← Kernel.epollCtl_isSome s.blocks.next, hk] at hf
    cases hf

/-- ADD and MOD where both succeed: the kernel has the new block, and of the tables only the one
that is used can have it, which it has exactly when the insertion got its memory. -/
theorem attachBlock_succeeds (hs : Sane s) (n : EpollNode) (ev : EpollEvent)
    (hf : (o.mallocOk && s.kernel.accepts epfd op eventFd o.kernelOk) = true) (hop : op ≠ .del) :
    ∃ s', s.attachBlock intKeys eventFd o n epfd op eventFd ev = (0, s') ∧
      s'.kernel.interestOf epfd eventFd = some s.blocks.next ∧
      s'.blocks.cells s.blocks.next = some ev ∧
      (∀ c, (∀ q e, s.blocks.cells q = some e → e.data ≠ some (.copy c)) →
        s'.datas.cells c = s.datas.cells c) ∧
      ∀ h, (s'.table h).get eventFd = some s.blocks.next ↔
        h = n.pEventHash ∧ InsertFits (s.table n.pEventHash) eventFd o.callocOk o.entryOk := by
  rw [Bool.and_eq_true] at hf
  have hw := hs.wellFormed n.pEventHash
  -- an overwritten block is an older one
  have hold : ∀ q, (hashTableInsert intKeys (s.table n.pEventHash) eventFd s.blocks.next
      o.callocOk o.entryOk).freed = some q → q < s.blocks.next := by
    intro q hq
    rw [(insert_spec hw eventFd s.blocks.next o.callocOk o.entryOk).1.freed] at hq
    split at hq
    · exact hs.values_lt _ _ _ hq
    · cases hq
  obtain ⟨hm, -⟩ | ⟨-, hk, -⟩ | ⟨k, -, hk, he⟩ :=
    Sys.attachBlock_cases intKeys eventFd o s n epfd op eventFd ev
  · rw [hf.1] at hm
    cases hm
  · rw [← Kernel.epollCtl_isSome s.blocks.next, hk] at hf
    cases hf.2
  · refine ⟨_, he, ?_, ?_, ?_, ?_⟩
    · rw [Sys.insertEvent_kernel, Kernel.interestOf_of_epollCtl hk, if_pos rfl]
      cases op <;> simp_all [CtlOp.leaves]
    · have hcells : (s.blocks.alloc ev).cells s.blocks.next = some ev := by simp [Arena.alloc]
      rw [Sys.insertEvent_blocks, Arena.cells_freeOpt_of_ne]
      · exact hcells
      · intro hq
        exact Nat.lt_irrefl _ (hold _ hq)
    · intro c hc
      apply Sys.freeValue_datas_cells
      intro q e hq hcell
      have hlt := hold q hq
      have hne : q ≠ s.blocks.next := by omega
      simp only [Arena.alloc, Function.update_of_ne hne] at hcell
      exact hc q e hcell
    · intro h
      rw [Sys.insertEvent_get (s := { s with blocks := s.blocks.alloc ev, kernel := k })
        (hs.wellFormed n.pEventHash)]
      constructor
      · intro hg
        by_contra hfit
        have hno : ¬ (h = n.pEventHash ∧ eventFd = eventFd ∧
            InsertFits (s.table n.pEventHash) eventFd o.callocOk o.entryOk) := by tauto
        have hold := (if_neg hno).symm.trans hg
        exact absurd (hs.values_lt _ _ _ hold) (Nat.lt_irrefl _)
      · rintro ⟨hh, hfit⟩
        exact if_pos ⟨hh, rfl, hfit⟩

theorem not_tookEffect_of_dead {s' : Sys Int} (hop : op = .add ∨ op = .mod)
    (hdead : ¬ s'.blocks.Live s.blocks.next) : ¬ TookEffect s s' epfd op eventFd arg := by
  rintro ⟨h, -, heff⟩
  have hcell : s'.blocks.cells s.blocks.next = some (s.readEvent arg) := by
    rcases hop with rfl | rfl
    · exact heff.2.2
    · exact heff.2.2
  exact hdead (by simp [Arena.Live, hcell])

theorem allOrNothing_zero {s' : Sys Int} :
    AllOrNothing s (0, s') epfd op eventFd arg ↔ TookEffect s s' epfd op eventFd arg := by
  simp [AllOrNothing]

theorem allOrNothing_minusOne {s' : Sys Int} :
    AllOrNothing s (-1, s') epfd op eventFd arg ↔
      ¬ TookEffect s s' epfd op eventFd arg ∧ Unchanged s s' := by
  simp [AllOrNothing]

/-- Taking a descriptor out of a table that does not have it. -/
theorem unchanged_removeEvent {h : Nat} {x : Int} (hs : Sane s) (hx : (s.table h).get x = none) :
    Unchanged s (s.removeEvent intKeys h x) ∧
      (s.removeEvent intKeys h x).blocks = s.blocks := by
  have hw := hs.wellFormed h
  have hb : (s.removeEvent intKeys h x).blocks = s.blocks := by
    rw [Sys.removeEvent_blocks_get hw, hx]
    rfl
  refine ⟨⟨?_, ?_, ?_⟩, hb⟩
  · rw [Sys.removeEvent_kernel]
  · intro h'
    rw [Sys.removeEvent_table]
    split
    · next hh =>
      obtain ⟨-, hr⟩ | ⟨p, t', hp, -⟩ := remove_spec hw x
      · rw [hr, hh]
      · rw [hx] at hp
        cases hp
    · rfl
  · intro p _ hp
    rwa [hb]

theorem allOrNothing_add (hs : Sane s) :
    AllOrNothing s (s.attachBlock intKeys eventFd o n epfd .add eventFd (s.readEvent arg)) epfd
        .add eventFd arg ↔
      (o.mallocOk = true → s.kernel.accepts epfd .add eventFd o.kernelOk = true →
        OwnTable s epfd n.pEventHash ∧
        InsertFits (s.table n.pEventHash) eventFd o.callocOk o.entryOk) := by
  cases hf : (o.mallocOk && s.kernel.accepts epfd .add eventFd o.kernelOk) with
  | false =>
    obtain ⟨A, he, hlive, hdead⟩ := attachBlock_fails hs n (s.readEvent arg) hf
    rw [he, allOrNothing_minusOne]
    constructor
    · intro _ hm ha
      rw [hm, ha] at hf
      cases hf
    · intro _
      exact ⟨not_tookEffect_of_dead (.inl rfl) hdead, rfl, fun h => rfl, fun p _ hp => hlive p hp⟩
  | true =>
    obtain ⟨s', he, hk, hb, -, hiff⟩ :=
      attachBlock_succeeds hs n (s.readEvent arg) hf (by decide)
    rw [he, allOrNothing_zero]
    rw [Bool.and_eq_true] at hf
    constructor
    · rintro ⟨h, hown, -, hget, -⟩ _ _
      obtain ⟨rfl, hfit⟩ := (hiff h).mp hget
      exact ⟨hown, hfit⟩
    · intro hhonest
      obtain ⟨hown, hfit⟩ := hhonest hf.1 hf.2
      exact ⟨n.pEventHash, hown, hk, (hiff _).mpr ⟨rfl, hfit⟩, hb⟩

theorem allOrNothing_del (hs : Sane s) :
    AllOrNothing s (s.detachBlock intKeys eventFd o n epfd eventFd) epfd .del eventFd arg ↔
      (s.kernel.accepts epfd .del eventFd o.kernelOk = true → ∃ h, OwnTable s epfd h ∧
        (h = n.pEventHash ∨ (s.table h).get eventFd = none)) ∧
      (s.kernel.accepts epfd .del eventFd o.kernelOk = false →
        (s.table n.pEventHash).get eventFd = none) := by
  have hw := hs.wellFormed n.pEventHash
  obtain ⟨hk, he⟩ | ⟨k, hk, he⟩ := Sys.detachBlock_cases intKeys eventFd o s n epfd eventFd
  · have hacc : s.kernel.accepts epfd .del eventFd o.kernelOk = false := by
      rw [← Kernel.epollCtl_isSome 0, hk]
      rfl
    rw [he, allOrNothing_minusOne, hacc]
    constructor
    · rintro ⟨-, hunch⟩
      refine ⟨fun hno => (by cases hno), fun _ => ?_⟩
      rw [← hunch.tables n.pEventHash, Sys.removeEvent_get hw, if_pos ⟨rfl, rfl⟩]
    · rintro ⟨-, hnone⟩
      refine ⟨?_, (unchanged_removeEvent hs (hnone rfl)).1⟩
      -- the interest set is untouched, so a registered descriptor still is
      rintro ⟨h, -, hreg, hgone, -⟩
      rw [Sys.removeEvent_kernel] at hgone
      exact hreg hgone
  · have hacc : s.kernel.accepts epfd .del eventFd o.kernelOk = true := by
      rw [← Kernel.epollCtl_isSome 0, hk]
      rfl
    have hbefore : s.kernel.interestOf epfd eventFd ≠ none := by
      obtain ⟨-, i, hi, happ, -⟩ := Kernel.epollCtl_eq_some_iff.mp hk
      intro hnone
      rw [Kernel.interestOf, hi, Option.bind_some] at hnone
      rw [hnone] at happ
      cases happ
    have hafter : ({ s with kernel := k }.removeEvent intKeys n.pEventHash eventFd
        ).kernel.interestOf epfd eventFd = none := by
      rw [Sys.removeEvent_kernel, Kernel.interestOf_of_epollCtl hk, if_pos rfl]
      rfl
    have hget : ∀ h, (({ s with kernel := k }.removeEvent intKeys n.pEventHash eventFd
        ).table h).get eventFd = none ↔ h = n.pEventHash ∨ (s.table h).get eventFd = none := by
      intro h
      rw [Sys.removeEvent_get (s := { s with kernel := k }) hw]
      simp only [and_true, ite_eq_left_iff]
      tauto
    rw [he, allOrNothing_zero, hacc]
    constructor
    · rintro ⟨h, hown, -, -, hnone⟩
      exact ⟨fun _ => ⟨h, hown, (hget h).mp hnone⟩, fun hno => by cases hno⟩
    · rintro ⟨hown, -⟩
      obtain ⟨h, hown, hh⟩ := hown rfl
      exact ⟨h, hown, hbefore, hafter, (hget h).mpr hh⟩

/-- What MOD copies is the event of the call unless the removal took it away. -/
theorem readEvent_removeEvent {h : Nat} {x : Int} (hw : WellFormed (s.table h)) :
    (s.removeEvent intKeys h x).readEvent arg = s.readEvent arg ↔
      arg.Survives s ((s.table h).get x) := by
  cases arg with
  | own ev => exact ⟨fun _ => trivial, fun _ => rfl⟩
  | block p stale =>
    simp only [EventArg.Survives, Sys.readEvent, Sys.removeEvent_blocks_get hw]
    by_cases hp : (s.table h).get x = some p
    · rw [hp]
      simp [Arena.freeOpt, Arena.free, eq_comm]
    · rw [Arena.cells_freeOpt_of_ne hp]
      simp [hp]

theorem allOrNothing_mod (hs : Sane s) :
    AllOrNothing s (s.exchangeBlock intKeys intKeys eventFd o n epfd eventFd arg) epfd .mod
        eventFd arg ↔
      (o.mallocOk = true → s.kernel.accepts epfd .mod eventFd o.kernelOk = true →
        OwnTable s epfd n.pEventHash ∧
        InsertFits (hashTableRemove intKeys (s.table n.pEventHash) eventFd).2 eventFd
          o.callocOk o.entryOk ∧
        arg.Survives s ((s.table n.pEventHash).get eventFd)) ∧
      ((o.mallocOk && s.kernel.accepts epfd .mod eventFd o.kernelOk) = false →
        (s.table n.pEventHash).get eventFd = none) := by
  have hw := hs.wellFormed n.pEventHash
  have hs1 := hs.removeEvent n.pEventHash eventFd
  have hnext : (s.removeEvent intKeys n.pEventHash eventFd).blocks.next = s.blocks.next := by
    simp [Sys.removeEvent_blocks]
  have htab : (s.removeEvent intKeys n.pEventHash eventFd).table n.pEventHash =
      (hashTableRemove intKeys (s.table n.pEventHash) eventFd).2 := by
    rw [Sys.removeEvent_table, if_pos rfl]
  have hkern : (s.removeEvent intKeys n.pEventHash eventFd).kernel = s.kernel :=
    Sys.removeEvent_kernel
  simp only [Sys.exchangeBlock]
  cases hf : (o.mallocOk && s.kernel.accepts epfd .mod eventFd o.kernelOk) with
  | false =>
    obtain ⟨A, he, hlive, hdead⟩ := attachBlock_fails hs1 n
      ((s.removeEvent intKeys n.pEventHash eventFd).readEvent arg) (hkern ▸ hf)
    rw [he, allOrNothing_minusOne]
    constructor
    · rintro ⟨-, hunch⟩
      refine ⟨fun hm ha => ?_, fun _ => ?_⟩
      · rw [hm, ha] at hf
        cases hf
      · rw [← hunch.tables n.pEventHash]
        exact (Sys.removeEvent_get hw).trans (if_pos ⟨rfl, rfl⟩)
    · rintro ⟨-, hnone⟩
      obtain ⟨hunch, hb⟩ := unchanged_removeEvent hs (hnone rfl)
      refine ⟨not_tookEffect_of_dead (.inr rfl) (hnext ▸ hdead), hunch.interest, hunch.tables, ?_⟩
      intro p _ hp
      exact hlive p (hb ▸ hp)
  | true =>
    obtain ⟨s', he, hk, hb, -, hiff⟩ := attachBlock_succeeds hs1 n
      ((s.removeEvent intKeys n.pEventHash eventFd).readEvent arg) (hkern ▸ hf) (by decide)
    rw [he, allOrNothing_zero]
    rw [hnext] at hk hb hiff
    rw [htab] at hiff
    rw [Bool.and_eq_true] at hf
    constructor
    · rintro ⟨h, hown, -, hget, hcell⟩
      obtain ⟨rfl, hfit⟩ := (hiff h).mp hget
      have hread := Option.some.inj (hb.symm.trans hcell)
      exact ⟨fun _ _ => ⟨hown, hfit, (readEvent_removeEvent hw).mp hread⟩,
        fun hno => by cases hno⟩
    · rintro ⟨hhonest, -⟩
      obtain ⟨hown, hfit, hsurv⟩ := hhonest hf.1 hf.2
      refine ⟨n.pEventHash, hown, hk, (hiff _).mpr ⟨rfl, hfit⟩, ?_⟩
      rw [hb, (readEvent_removeEvent hw).mpr hsurv]

/-- An ADD, MOD or DEL that changes nothing has not taken effect. -/
theorem not_tookEffect_self (hs : Sane s) : ¬ TookEffect s s epfd op eventFd arg := by
  rintro ⟨h, -, heff⟩
  cases op with
  | add => exact Nat.lt_irrefl _ (hs.values_lt _ _ _ heff.2.1)
  | mod => exact Nat.lt_irrefl _ (hs.values_lt _ _ _ heff.2.1)
  | del => exact heff.1 heff.2.1
  | other c => exact heff

end

/-- Exactly when `base_epoll_ctl` is all or nothing and reports the truth. -/
theorem ctl_allOrNothing_iff (s : Registry) (o : Sys.CtlOutcome) (epfd : Int) (op : CtlOp)
    (eventFd : Int) (arg : EventArg) :
    AllOrNothing s.1 (s.1.epollCtl o epfd op eventFd arg) epfd op eventFd arg ↔
      CtlHonest s.1 o epfd op eventFd arg := by
  obtain ⟨s, hs⟩ := s
  simp only [Sys.epollCtl, CtlHonest]
  cases hn : s.findEpoll epfd with
  | none =>
    rw [Sys.ctl_of_unknown hn, allOrNothing_zero]
    constructor
    · intro heff
      exact absurd heff (not_tookEffect_self hs)
    · rintro ⟨n, hn', -⟩
      cases hn'
  | some n =>
    simp only [Option.some.injEq, exists_eq_left']
    cases op with
    | add => rw [Sys.ctl_add hn]; exact allOrNothing_add hs
    | del => rw [Sys.ctl_del hn]; exact allOrNothing_del hs
    | mod => rw [Sys.ctl_mod hn]; exact allOrNothing_mod hs
    | other c =>
      rw [Sys.ctl_other, allOrNothing_zero]
      exact ⟨not_tookEffect_self hs, fun hfalse => hfalse.elim⟩

/-- Epoll 5 with descriptor 7 registered on it. -/
def oneEvent : Registry where
  val := ((Sys.empty.baseEpollCreate (.fine 5)).2.epollCtl .fine 5 .add 7
    (.own ⟨5, 7, 0, none, 0⟩)).2
  property := (sane_empty.create (.fine 5)).epollCtl .fine 5 .add 7 fun c hc => by cases hc

/-- A MOD whose block cannot be allocated reports the failure, but the descriptor's entry and
block are gone, and the kernel still holds the block. -/
theorem ctl_not_allOrNothing :
    ¬ ∀ (s : Registry) (o : Sys.CtlOutcome) (epfd : Int) (op : CtlOp) (eventFd : Int)
      (arg : EventArg), 0 < epfd → 0 < eventFd →
      AllOrNothing s.1 (s.1.epollCtl o epfd op eventFd arg) epfd op eventFd arg := by
  intro h
  have hmod := h oneEvent ⟨false, true, true, true⟩ 5 .mod 7 (.own ⟨5, 7, 1, none, 0⟩)
    (by decide) (by decide)
  have htable := (hmod.2 (by decide)).tables 0
  have hentry := congrArg (fun t => t.get 7) htable
  revert hentry
  decide

end BaseCode.Epoll
