import BaseCode.Comm.HashTableSpec
import BaseCode.Epoll.Frames
import BaseCode.Epoll.TimerStart
import BaseCode.Foundation.Ledger
import BaseCode.Foundation.Runs

/-!
# Who owns what

Runs of `base_epoll_create`, `base_epoll_ctl`, `base_timer_start`, `base_timer_stop` and
`base_epoll_close` under all failures of their allocations and system calls. Between calls the
list is to own every object: its nodes, their epolls and event tables, the blocks in the tables
and the copies attached to the blocks. `Owns` is this as a set of ledgers, with the copies that
a running `base_timer_start` holds itself.
-/

namespace BaseCode.Epoll
open Foundation Comm

/-- The copy attached to an event. -/
def EpollEvent.copy? (ev : EpollEvent) : Option Nat :=
  match ev.data with
  | some (.copy c) => some c
  | _ => none

/-- The copy attached to the block at an address. -/
def copyAt (B : Arena EpollEvent) (p : Nat) : Option Nat := (B.cells p).bind EpollEvent.copy?

section Blocks

variable {B : Arena EpollEvent} {D : Arena (List UInt8)} {P P' held : List Nat} {p : Nat}

/-- The blocks `P` and their copies, besides the copies `held` elsewhere, are all there is. -/
structure BlocksOwned (B : Arena EpollEvent) (D : Arena (List UInt8)) (P held : List Nat) :
    Prop where
  blocks : Holds B P
  datas : Holds D (held ++ P.filterMap (copyAt B))

theorem copyAt_free (hp : ∀ q ∈ P, q ≠ p) :
    P.filterMap (copyAt (B.free p)) = P.filterMap (copyAt B) := by
  apply List.filterMap_congr
  intro q hq
  simp [copyAt, Arena.free, hp q hq]

theorem copyAt_alloc {ev : EpollEvent} (hp : ∀ q ∈ P, q ≠ B.next) :
    P.filterMap (copyAt (B.alloc ev)) = P.filterMap (copyAt B) := by
  apply List.filterMap_congr
  intro q hq
  simp [copyAt, Arena.alloc, hp q hq]

theorem filterMap_cons_toList {f : Nat → Option Nat} :
    (p :: P).filterMap f = (f p).toList ++ P.filterMap f := by
  cases h : f p <;> simp [h]

namespace BlocksOwned

theorem perm (h : BlocksOwned B D P held) (hP : P.Perm P') : BlocksOwned B D P' held :=
  ⟨h.blocks.perm hP, h.datas.perm ((hP.filterMap _).append_left held)⟩

/-- A block goes together with its copy. -/
theorem free (h : BlocksOwned B D (p :: P) held) :
    BlocksOwned (B.free p) (D.freeOpt (copyAt B p)) P held := by
  have hne : ∀ q ∈ P, q ≠ p := by
    rintro q hq rfl
    exact (List.nodup_cons.mp h.blocks.nodup).1 hq
  refine ⟨h.blocks.free, ?_⟩
  rw [copyAt_free hne]
  refine Holds.freeOpt (h.datas.perm ?_)
  rw [filterMap_cons_toList, ← List.append_assoc, ← List.append_assoc]
  exact List.perm_append_comm.append_right _

theorem freeOpt {v : Option Nat} (h : BlocksOwned B D (v.toList ++ P) held) :
    BlocksOwned (B.freeOpt v) (D.freeOpt (v.bind (copyAt B))) P held := by
  cases v with
  | none => exact h
  | some p => exact h.free

/-- A new block takes over the copy that its event names. -/
theorem alloc {ev : EpollEvent} (h : BlocksOwned B D P (ev.copy?.toList ++ held)) :
    BlocksOwned (B.alloc ev) D (B.next :: P) held := by
  have hne : ∀ q ∈ P, q ≠ B.next := by
    rintro q hq rfl
    exact h.blocks.next_notMem hq
  refine ⟨h.blocks.alloc ev, h.datas.perm ?_⟩
  have hnew : copyAt (B.alloc ev) B.next = ev.copy? := by simp [copyAt, Arena.alloc]
  rw [filterMap_cons_toList, hnew, copyAt_alloc hne, ← List.append_assoc]
  exact List.perm_append_comm.append_right _

/-- A block that is freed at once leaves its copy to the caller. -/
theorem alloc_free {ev : EpollEvent} (h : BlocksOwned B D P held) :
    BlocksOwned ((B.alloc ev).free B.next) D P held := by
  have hne : ∀ q ∈ P, q ≠ B.next := by
    rintro q hq rfl
    exact h.blocks.next_notMem hq
  refine ⟨h.blocks.alloc_free ev, ?_⟩
  rw [copyAt_free hne, copyAt_alloc hne]
  exact h.datas

end BlocksOwned

end Blocks

/-- The blocks in the event tables of the listed epolls. -/
def allBlocks (s : Sys Int) : List Nat :=
  s.epollList.flatMap fun n => (s.table n.pEventHash).values

theorem allBlocks_perm {s s' : Sys Int} {n : EpollNode} {rest : List EpollNode}
    (hl : s.epollList.Perm (n :: rest)) (hl' : s'.epollList = s.epollList)
    (ht : ∀ m ∈ rest, s'.table m.pEventHash = s.table m.pEventHash) :
    (allBlocks s').Perm ((s'.table n.pEventHash).values ++
      rest.flatMap fun m => (s.table m.pEventHash).values) := by
  simp only [allBlocks]
  rw [hl']
  exact flatMap_perm_of_congr hl fun m hm => by rw [ht m hm]

/-- The list owns everything but its own nodes, except for the blocks `loose` that are not yet
in a table and the copies `held` by a running call. -/
structure Owns (s : Sys Int) (loose held : List Nat) : Prop where
  wellFormed : ∀ n ∈ s.epollList, WellFormed (s.table n.pEventHash)
  epolls : Holds s.epolls (s.epollList.map EpollNode.epoll)
  tables : Holds s.tables (s.epollList.map EpollNode.pEventHash)
  blocks : BlocksOwned s.blocks s.datas (loose ++ allBlocks s) held

theorem freeValue_datas (s : Sys Int) (v : Option Nat) :
    (s.freeValue v).datas = s.datas.freeOpt (v.bind (copyAt s.blocks)) := by
  cases v with
  | none => rfl
  | some p =>
    simp only [Sys.freeValue, Sys.baseEpollFreeEventBlock, Option.bind_some, copyAt]
    cases s.blocks.cells p with
    | none => rfl
    | some ev =>
      simp only [Option.bind_some, EpollEvent.copy?]
      rcases ev.data with _ | ⟨c | a⟩ <;> rfl

/-- Where ADD or MOD is accepted, the event it copies into the new block has no copy attached,
and `hash_table_insert` gets its memory. -/
def CtlConserves (s : Sys Int) (o : Sys.CtlOutcome) (epfd : Int) (op : CtlOp) (x : Int)
    (arg : EventArg) : Prop :=
  ∀ n, s.findEpoll epfd = some n → o.mallocOk = true →
    s.kernel.accepts epfd op x o.kernelOk = true →
    match op with
    | .add => (s.readEvent arg).copy? = none ∧
        InsertFits (s.table n.pEventHash) x o.callocOk o.entryOk
    | .mod => ((s.removeEvent intKeys n.pEventHash x).readEvent arg).copy? = none ∧
        InsertFits (hashTableRemove intKeys (s.table n.pEventHash) x).2 x o.callocOk o.entryOk
    | _ => True

namespace Owns

variable {s : Sys Int} {loose held : List Nat} {n : EpollNode}

theorem kernel (h : Owns s loose held) (k : Kernel) : Owns { s with kernel := k } loose held :=
  ⟨h.wellFormed, h.epolls, h.tables, h.blocks⟩

/-- A listed epoll and the others, which have other tables. -/
theorem others (h : Owns s loose held) (hn : n ∈ s.epollList) :
    ∃ rest, s.epollList.Perm (n :: rest) ∧ ∀ m ∈ rest, m.pEventHash ≠ n.pEventHash := by
  obtain ⟨a, b, hl⟩ := List.append_of_mem hn
  have hperm : s.epollList.Perm (n :: (a ++ b)) := hl ▸ List.perm_middle
  refine ⟨a ++ b, hperm, fun m hm heq => ?_⟩
  have hnd := (hperm.map EpollNode.pEventHash).nodup_iff.mp h.tables.nodup
  rw [List.map_cons, List.nodup_cons] at hnd
  exact hnd.1 (List.mem_map.mpr ⟨m, hm, heq⟩)

/-- A table operation on a listed epoll: of its values and the loose blocks, `v` is freed and
the others are in the table afterwards. -/
theorem tableOp (h : Owns s loose held) (hn : n ∈ s.epollList) {t' : HashTable Int Nat}
    (hw : WellFormed t') {v : Option Nat}
    (hperm : (loose ++ (s.table n.pEventHash).values).Perm (v.toList ++ t'.values)) :
    Owns (({ s with tables := s.tables.set n.pEventHash t' } : Sys Int).freeValue v) [] held := by
  obtain ⟨rest, hl, hne⟩ := h.others hn
  have htable : ∀ m, (({ s with tables := s.tables.set n.pEventHash t' } : Sys Int).freeValue
      v).table m = if m = n.pEventHash then t' else s.table m := by
    intro m
    rw [Sys.table_congr Sys.freeValue_tables, Sys.table_set]
  have hold := allBlocks_perm (s := s) hl rfl fun m _ => rfl
  have hnew : (allBlocks (({ s with tables := s.tables.set n.pEventHash t' } : Sys Int).freeValue
      v)).Perm (t'.values ++ rest.flatMap fun m => (s.table m.pEventHash).values) := by
    have hp := allBlocks_perm (s := s) hl
      (Sys.freeValue_epollList (s := { s with tables := s.tables.set n.pEventHash t' }) (v := v))
      fun m hm => by rw [htable, if_neg (hne m hm)]
    rwa [htable, if_pos rfl] at hp
  -- the other tables, the epolls and the table addresses are untouched
  refine ⟨?_, ?_, ?_, ?_⟩
  · intro m hm
    rw [Sys.freeValue_epollList] at hm
    rw [htable]
    split
    · exact hw
    · exact h.wellFormed m hm
  · simpa using h.epolls
  · simpa using h.tables.set (List.mem_map.mpr ⟨n, hn, rfl⟩) t'
  · rw [Sys.freeValue_blocks, freeValue_datas, List.nil_append]
    refine BlocksOwned.freeOpt (h.blocks.perm ?_)
    calc (loose ++ allBlocks s).Perm
          (loose ++ ((s.table n.pEventHash).values ++
            rest.flatMap fun m => (s.table m.pEventHash).values)) := hold.append_left _
      _ |>.Perm (v.toList ++ (t'.values ++
            rest.flatMap fun m => (s.table m.pEventHash).values)) := by
          rw [← List.append_assoc, ← List.append_assoc]
          exact hperm.append_right _
      _ |>.Perm (v.toList ++ allBlocks (({ s with
            tables := s.tables.set n.pEventHash t' } : Sys Int).freeValue v)) :=
          hnew.symm.append_left _

theorem removeEvent (h : Owns s [] held) (hn : n ∈ s.epollList) (x : Int) :
    Owns (s.removeEvent intKeys n.pEventHash x) [] held := by
  have hw := h.wellFormed n hn
  refine h.tableOp hn (hw.remove x) ?_
  obtain ⟨-, he⟩ | ⟨p, t', -, he, -, hp⟩ := remove_spec hw x
  · rw [he]
    exact List.Perm.refl _
  · rw [he]
    exact hp.map Prod.snd

theorem insertEvent {p : Nat} (h : Owns s [p] held) (hn : n ∈ s.epollList) (x : Int)
    {o : Sys.CtlOutcome} (hfit : InsertFits (s.table n.pEventHash) x o.callocOk o.entryOk) :
    Owns (s.insertEvent intKeys n.pEventHash x p o) [] held := by
  have hw := h.wellFormed n hn
  obtain ⟨hi, hret⟩ := insert_spec hw x p o.callocOk o.entryOk
  refine h.tableOp hn hi.wellFormed ?_
  have hok := hret.mpr hfit
  generalize hashTableInsert intKeys (s.table n.pEventHash) x p o.callocOk o.entryOk = r at hi hok
  cases hi with
  | fails => cases hok
  | adds _ _ hp => exact (hp.map Prod.snd).symm
  | @exchanges t' q rest _ _ hp hp' =>
    calc (p :: (s.table n.pEventHash).values).Perm (p :: q :: rest.map Prod.snd) :=
          (hp.map Prod.snd).cons p
      _ |>.Perm (q :: p :: rest.map Prod.snd) := List.Perm.swap ..
      _ |>.Perm (q :: t'.values) := ((hp'.map Prod.snd).cons q).symm

/-- ADD and MOD from the block on: the copy goes over to the list, or stays with the caller. -/
theorem attachBlock {ev : EpollEvent} (h : Owns s [] (ev.copy?.toList ++ held))
    (hn : n ∈ s.epollList) {o : Sys.CtlOutcome} (epfd : Int) (op : CtlOp) (x : Int)
    (hfit : o.mallocOk = true → s.kernel.accepts epfd op x o.kernelOk = true →
      InsertFits (s.table n.pEventHash) x o.callocOk o.entryOk) :
    ∃ s', (s.attachBlock intKeys x o n epfd op x ev = (0, s') ∧ Owns s' [] held) ∨
      (s.attachBlock intKeys x o n epfd op x ev = (-1, s') ∧
        Owns s' [] (ev.copy?.toList ++ held)) := by
  obtain ⟨-, he⟩ | ⟨-, -, he⟩ | ⟨k, hm, hk, he⟩ :=
    Sys.attachBlock_cases intKeys x o s n epfd op x ev
  · exact ⟨_, .inr ⟨he, h⟩⟩
  · exact ⟨_, .inr ⟨he, h.wellFormed, h.epolls, h.tables, h.blocks.alloc_free⟩⟩
  · have hacc : s.kernel.accepts epfd op x o.kernelOk = true := by
      rw [← Kernel.epollCtl_isSome s.blocks.next, hk]
      rfl
    have hloose : Owns { s with blocks := s.blocks.alloc ev, kernel := k } [s.blocks.next] held :=
      ⟨h.wellFormed, h.epolls, h.tables, h.blocks.alloc⟩
    exact ⟨_, .inl ⟨he, hloose.insertEvent hn x (hfit hm hacc)⟩⟩

/-- ADD and MOD of an event without a copy; one that is refused may have one. -/
theorem attachOwn {ev : EpollEvent} (h : Owns s [] []) (hn : n ∈ s.epollList)
    {o : Sys.CtlOutcome} (epfd : Int) (op : CtlOp) (x : Int)
    (hok : o.mallocOk = true → s.kernel.accepts epfd op x o.kernelOk = true →
      ev.copy? = none ∧ InsertFits (s.table n.pEventHash) x o.callocOk o.entryOk) :
    Owns (s.attachBlock intKeys x o n epfd op x ev).2 [] [] := by
  by_cases hev : ev.copy? = none
  · have hpre : Owns s [] (ev.copy?.toList ++ []) := by
      rw [hev]
      exact h
    obtain ⟨s', ⟨he, ho⟩ | ⟨he, ho⟩⟩ :=
      hpre.attachBlock hn epfd op x fun hm ha => (hok hm ha).2
    · rw [he]
      exact ho
    · rw [he]
      rw [hev] at ho
      exact ho
  · obtain ⟨-, he⟩ | ⟨-, -, he⟩ | ⟨k, hm, hk, -⟩ :=
      Sys.attachBlock_cases intKeys x o s n epfd op x ev
    · rw [he]
      exact h
    · rw [he]
      exact ⟨h.wellFormed, h.epolls, h.tables, h.blocks.alloc_free⟩
    · have hacc : s.kernel.accepts epfd op x o.kernelOk = true := by
        rw [← Kernel.epollCtl_isSome s.blocks.next, hk]
        rfl
      exact absurd (hok hm hacc).1 hev

theorem detachBlock {o : Sys.CtlOutcome} {epfd x : Int} (h : Owns s [] held)
    (hn : n ∈ s.epollList) : Owns (s.detachBlock intKeys x o n epfd x).2 [] held := by
  obtain ⟨-, he⟩ | ⟨k, -, he⟩ := Sys.detachBlock_cases intKeys x o s n epfd x
  · rw [he]
    exact h.removeEvent hn x
  · rw [he]
    exact (h.kernel k).removeEvent hn x

theorem safeClose (h : Owns s loose held) (fd : Int) : Owns (s.safeClose fd) loose held := by
  obtain ⟨-, he⟩ | ⟨-, he⟩ := Sys.safeClose_cases s fd
  · rw [he]
    exact h.kernel _
  · rw [he]
    exact h

/-- A new epoll brings an empty table. -/
theorem create (h : Owns s [] []) {o : Sys.CreateOutcome}
    (hok : 0 < o.eplfd → o.hashOk = true → o.tableOk = true →
      o.epollOk = true ∧ o.nodeOk = true) : Owns (s.baseEpollCreate o).2 [] [] := by
  have hends := Sys.create_ends s o
  generalize s.baseEpollCreate o = r at hends
  cases hends with
  | refused => exact h.kernel _
  | noHash => exact h.kernel _
  | noEpoll hgt hh ht he =>
    rw [(hok hgt hh ht).1] at he
    cases he
  | noNode hgt hh ht _ hn =>
    rw [(hok hgt hh ht).2] at hn
    cases hn
  | created =>
    have hold : ∀ (s' : Sys Int), s'.tables = s.tables.alloc emptyTable → ∀ m ∈ s.epollList,
        s'.table m.pEventHash = s.table m.pEventHash := by
      intro s' hs' m hm
      have hlt := h.tables.lt_next (List.mem_map.mpr ⟨m, hm, rfl⟩)
      have hne : m.pEventHash ≠ s.tables.next := by omega
      simp [Sys.table, hs', Arena.alloc, hne]
    have hnew : ∀ (s' : Sys Int), s'.tables = s.tables.alloc emptyTable →
        s'.table s.tables.next = emptyTable := by
      intro s' hs'
      simp [Sys.table, hs', Arena.alloc]
    have hblocks : ∀ (s' : Sys Int), s'.tables = s.tables.alloc emptyTable →
        ∀ e, e.pEventHash = s.tables.next → s'.epollList = s.epollList ++ [e] →
        allBlocks s' = allBlocks s := by
      intro s' hs' e he hl
      simp only [allBlocks]
      rw [hl, List.flatMap_append, List.flatMap_singleton, he, hnew s' hs', HashTable.values,
        emptyTable_toList, List.map_nil, List.append_nil]
      exact List.flatMap_congr fun m hm => by rw [hold s' hs' m hm]
    refine ⟨?_, ?_, ?_, ?_⟩
    · intro m hm
      rcases List.mem_append.mp hm with hm | hm
      · rw [hold _ rfl m hm]
        exact h.wellFormed m hm
      · rw [List.mem_singleton] at hm
        rw [hm, hnew _ rfl]
        exact wellFormed_emptyTable
    · rw [List.map_append]
      exact (h.epolls.alloc ()).perm (List.perm_append_singleton _ _).symm
    · rw [List.map_append]
      exact (h.tables.alloc emptyTable).perm (List.perm_append_singleton _ _).symm
    · rw [hblocks _ rfl _ rfl rfl]
      exact h.blocks

/-- Freeing the blocks of a table one by one. -/
theorem freeBlocks {P vs : List Nat} {s : Sys Int}
    (h : BlocksOwned s.blocks s.datas (vs ++ P) held) :
    BlocksOwned (vs.foldl Sys.baseEpollFreeEventBlock s).blocks
      (vs.foldl Sys.baseEpollFreeEventBlock s).datas P held := by
  induction vs generalizing s with
  | nil => exact h
  | cons p vs ih =>
    apply ih (s := s.freeValue (some p))
    rw [Sys.freeValue_blocks, freeValue_datas]
    exact BlocksOwned.freeOpt h

/-- Freeing all that hangs from a node that has been unlinked; the node itself stays. -/
theorem unlinked (h : Owns s [] []) (s₁ : Sys Int) {s' : Sys Int}
    (hl : s.epollList.Perm (n :: s'.epollList)) (hb : s₁.blocks = s.blocks)
    (hd : s₁.datas = s.datas) (he' : s'.epolls = s.epolls.free n.epoll)
    (ht' : s'.tables = s.tables.free n.pEventHash)
    (hb' : s'.blocks = ((s.table n.pEventHash).values.foldl Sys.baseEpollFreeEventBlock s₁).blocks)
    (hd' : s'.datas = ((s.table n.pEventHash).values.foldl Sys.baseEpollFreeEventBlock s₁).datas) :
    Owns s' [] [] := by
  have hne : ∀ m ∈ s'.epollList, m.pEventHash ≠ n.pEventHash := by
    intro m hm heq
    have hnd := (hl.map EpollNode.pEventHash).nodup_iff.mp h.tables.nodup
    rw [List.map_cons, List.nodup_cons] at hnd
    exact hnd.1 (List.mem_map.mpr ⟨m, hm, heq⟩)
  have htable : ∀ m ∈ s'.epollList, s'.table m.pEventHash = s.table m.pEventHash := by
    intro m hm
    simp [Sys.table, ht', Arena.free, hne m hm]
  have hall : (allBlocks s).Perm ((s.table n.pEventHash).values ++ allBlocks s') := by
    have hrest : allBlocks s' = s'.epollList.flatMap fun m => (s.table m.pEventHash).values :=
      List.flatMap_congr fun m hm => by rw [htable m hm]
    rw [hrest]
    exact allBlocks_perm (s := s) hl rfl fun m _ => rfl
  refine ⟨?_, ?_, ?_, ?_⟩
  · intro m hm
    rw [htable m hm]
    exact h.wellFormed m (hl.mem_iff.mpr (List.mem_cons_of_mem _ hm))
  · rw [he']
    exact (h.epolls.perm (hl.map EpollNode.epoll)).free
  · rw [ht']
    exact (h.tables.perm (hl.map EpollNode.pEventHash)).free
  · rw [hb', hd', List.nil_append]
    apply freeBlocks
    rw [hb, hd]
    exact h.blocks.perm hall

/-- Closing a registered epoll. -/
theorem close (h : Owns s [] []) (epfd : Int) : Owns (s.baseEpollClose epfd) [] [] := by
  obtain ⟨-, he⟩ | ⟨-, he⟩ | ⟨n, hf, he⟩ := Sys.close_cases s epfd
  · rw [he]
    exact h
  · rw [he]
    exact h.safeClose epfd
  · rw [he]
    apply safeClose
    refine h.unlinked { s with epollList := s.epollList.eraseP fun n => n.epollFd == epfd }
      ?_ rfl rfl ?_ ?_ rfl rfl
    · simp only [Sys.unlinkEpoll, Sys.freeHash_epollList]
      exact perm_eraseP_of_find? hf
    · simp only [Sys.unlinkEpoll, Sys.freeHash_epolls]
    · simp only [Sys.unlinkEpoll, Sys.freeHash_tables]

theorem epollCtl {o : Sys.CtlOutcome} {epfd x : Int} {op : CtlOp} {arg : EventArg}
    (h : Owns s [] []) (hc : CtlConserves s o epfd op x arg) :
    Owns (s.epollCtl o epfd op x arg).2 [] [] := by
  simp only [Sys.epollCtl]
  cases hf : s.findEpoll epfd with
  | none =>
    rw [Sys.ctl_of_unknown hf]
    exact h
  | some n =>
    have hn := (Sys.findEpoll_spec hf).1
    cases op with
    | add =>
      rw [Sys.ctl_add hf]
      exact h.attachOwn hn epfd .add x (hc n hf)
    | del =>
      rw [Sys.ctl_del hf]
      exact h.detachBlock hn
    | mod =>
      rw [Sys.ctl_mod hf, Sys.exchangeBlock]
      refine (h.removeEvent hn x).attachOwn (by simpa using hn) epfd .mod x ?_
      rw [Sys.removeEvent_kernel, Sys.removeEvent_table, if_pos rfl]
      exact hc n hf
    | other c =>
      rw [Sys.ctl_other]
      exact h

/-- The copy is made and filled, and the timer set. -/
theorem timerSet {a : TimerArgs} {its : Itimerspec} (h : Owns s [] []) :
    Owns (timerSet s a its) [] (copyPtr s a).toList := by
  refine ⟨h.wellFormed, h.epolls, h.tables, h.blocks.blocks, ?_⟩
  simp only [Epoll.timerSet, copyPtr]
  by_cases hcopy : (a.data.isSome && a.len != 0) = true
  · rw [if_pos hcopy]
    simp only [hcopy, if_true]
    exact (h.blocks.datas.alloc _).set List.mem_cons_self _
  · rw [if_neg hcopy]
    simp only [hcopy]
    exact h.blocks.datas

/-- The copy that `base_timer_start` still holds is freed at its exit. -/
theorem freeData {pdata : Option Nat} (h : Owns s [] pdata.toList) :
    Owns (s.freeData (pdata.map .copy)) [] [] := by
  cases pdata with
  | none => exact h
  | some c => exact ⟨h.wellFormed, h.epolls, h.tables, h.blocks.blocks, h.blocks.datas.free⟩

theorem timerEvent_copy? {a : TimerArgs} {pdata : Option Nat} :
    (Sys.timerEvent a pdata).copy? = pdata := by
  cases pdata <;> rfl

theorem baseTimerStart {o : TimerOutcome} {a : TimerArgs} (h : Owns s [] [])
    (hok : ∀ its, o.setting a = some its → (a.data ≠ none ∧ 4 ≤ a.len) ∧
      ∃ n, s.findEpoll a.eplfd = some n ∧ (o.ctl.mallocOk = true →
        s.kernel.accepts a.eplfd .add a.tfd o.ctl.kernelOk = true →
        InsertFits (s.table n.pEventHash) a.tfd o.ctl.callocOk o.ctl.entryOk)) :
    Owns (s.baseTimerStart o a).sys [] [] := by
  cases hset : o.setting a with
  | none =>
    obtain ⟨D, he, hD⟩ := start_of_unset (s := s) hset
    rw [he]
    refine ⟨h.wellFormed, h.epolls, h.tables, h.blocks.blocks, ?_⟩
    rcases hD with rfl | ⟨v, rfl⟩
    · exact h.blocks.datas
    · exact h.blocks.datas.alloc_free v
  | some its =>
    obtain ⟨hroom, n, hf, hfit⟩ := hok its hset
    have hpre : Owns (Epoll.timerSet s a its) []
        ((Sys.timerEvent a (copyPtr s a)).copy?.toList ++ []) := by
      rw [timerEvent_copy?, List.append_nil]
      exact h.timerSet
    rw [start_of_room hset hroom]
    simp only [Sys.epollCtl]
    rw [Sys.ctl_add (s := Epoll.timerSet s a its) hf]
    obtain ⟨s', ⟨he, ho⟩ | ⟨he, ho⟩⟩ := hpre.attachBlock (Sys.findEpoll_spec hf).1 a.eplfd .add
      a.tfd (by rw [accepts_timerSet]; exact hfit)
    · simp only [Sys.readEvent]
      rw [he, Sys.timerExit_zero]
      exact ho
    · simp only [Sys.readEvent]
      rw [he, Sys.timerExit_minusOne]
      rw [timerEvent_copy?, List.append_nil] at ho
      exact ho.freeData

theorem baseTimerStop {settimeOk : Bool} {o : Sys.CtlOutcome} {eplfd tfd : Int}
    (h : Owns s [] []) : Owns (s.baseTimerStop settimeOk o eplfd tfd) [] [] := by
  simp only [Sys.baseTimerStop]
  apply safeClose
  apply (h.kernel _).epollCtl
  intro n _ _ _
  trivial

end Owns

/-- The calls of a run. -/
inductive OwnerCall
  | create (o : Sys.CreateOutcome)
  | ctl (o : Sys.CtlOutcome) (epfd : Int) (op : CtlOp) (eventFd : Int) (arg : EventArg)
  | timerStart (o : TimerOutcome) (a : TimerArgs)
  | timerStop (settimeOk : Bool) (o : Sys.CtlOutcome) (eplfd tfd : Int)
  | close (epfd : Int)

namespace OwnerCall

/-- The kernel returns no open number, `base_epoll_ctl` asserts its arguments, and a caller has
no pointer to a copy that was not made yet. -/
def Allowed (s : Sys Int) : OwnerCall → Prop
  | .create o => s.kernel.epollOf o.eplfd = none
  | .ctl _ epfd _ eventFd arg =>
    0 < epfd ∧ 0 < eventFd ∧ CopyBelow arg.spare s.datas.next
  | .timerStart _ a => 0 < a.eplfd ∧ 0 < a.tfd
  | .timerStop _ _ eplfd tfd => 0 < eplfd ∧ 0 < tfd
  | .close _ => True

def next (s : Sys Int) : OwnerCall → Sys Int
  | .create o => (s.baseEpollCreate o).2
  | .ctl o epfd op eventFd arg => (s.epollCtl o epfd op eventFd arg).2
  | .timerStart o a => (s.baseTimerStart o a).sys
  | .timerStop settimeOk o eplfd tfd => s.baseTimerStop settimeOk o eplfd tfd
  | .close epfd => s.baseEpollClose epfd

/-- What loses or shares an object other than a list node: a creation that fails after its table
was made, an insertion without memory, a timer that is set without four bytes to copy or for an
unknown epoll, and an event that names a copy already attached elsewhere. -/
def Conserves (s : Sys Int) : OwnerCall → Prop
  | .create o => 0 < o.eplfd → o.hashOk = true → o.tableOk = true →
      o.epollOk = true ∧ o.nodeOk = true
  | .ctl o epfd op eventFd arg => CtlConserves s o epfd op eventFd arg
  | .timerStart o a => ∀ its, o.setting a = some its → (a.data ≠ none ∧ 4 ≤ a.len) ∧
      ∃ n, s.findEpoll a.eplfd = some n ∧ (o.ctl.mallocOk = true →
        s.kernel.accepts a.eplfd .add a.tfd o.ctl.kernelOk = true →
        InsertFits (s.table n.pEventHash) a.tfd o.ctl.callocOk o.ctl.entryOk)
  | .timerStop _ _ _ _ => True
  | .close _ => True

/-- Every close that finds its epoll loses the list node as well. -/
def KeepsNodes (s : Sys Int) : OwnerCall → Prop
  | .close epfd => s.findEpoll epfd = none
  | _ => True

end OwnerCall

def ownerSystem : System (Sys Int) OwnerCall where
  Init s := s = .empty
  Step s l s' := l.Allowed s ∧ s' = l.next s

/-- A block that the list leads to. -/
def ReachesBlock (s : Sys Int) (p : Nat) : Prop :=
  ∃ n ∈ s.epollList, p ∈ (s.table n.pEventHash).values

/-- A copy that is attached to such a block. -/
def ReachesCopy (s : Sys Int) (c : Nat) : Prop :=
  ∃ p ev, ReachesBlock s p ∧ s.blocks.cells p = some ev ∧ ev.data = some (.copy c)

/-- Epolls, tables, blocks and copies are freed at most once, and those still allocated are the
ones reachable from the list. -/
structure OwnedObjects (s : Sys Int) : Prop where
  epolls_once : s.epolls.frees.Nodup
  tables_once : s.tables.frees.Nodup
  blocks_once : s.blocks.frees.Nodup
  datas_once : s.datas.frees.Nodup
  epolls : ∀ a, s.epolls.Live a ↔ ∃ n ∈ s.epollList, n.epoll = a
  tables : ∀ h, s.tables.Live h ↔ ∃ n ∈ s.epollList, n.pEventHash = h
  blocks : ∀ p, s.blocks.Live p ↔ ReachesBlock s p
  datas : ∀ c, s.datas.Live c ↔ ReachesCopy s c

/-- The same for every kind of object, the list nodes included. -/
structure Owned (s : Sys Int) : Prop extends OwnedObjects s where
  nodes_once : s.nodes.frees.Nodup
  nodes : ∀ a, s.nodes.Live a ↔ ∃ n ∈ s.epollList, n.node = a

theorem copyAt_eq_some {B : Arena EpollEvent} {p c : Nat} :
    copyAt B p = some c ↔ ∃ ev, B.cells p = some ev ∧ ev.data = some (.copy c) := by
  simp only [copyAt]
  rw [Option.bind_eq_some_iff]
  refine exists_congr fun ev => and_congr_right fun _ => ?_
  simp only [EpollEvent.copy?]
  rcases ev.data with _ | ⟨c' | a⟩ <;> simp

theorem Owns.ownedObjects {s : Sys Int} (h : Owns s [] []) : OwnedObjects s := by
  have hblock : ∀ p, p ∈ allBlocks s ↔ ReachesBlock s p := fun p => List.mem_flatMap
  refine ⟨h.epolls.sound.once, h.tables.sound.once, h.blocks.blocks.sound.once,
    h.blocks.datas.sound.once, ?_, ?_, ?_, ?_⟩
  · intro a
    rw [h.epolls.live, List.mem_map]
  · intro a
    rw [h.tables.live, List.mem_map]
  · intro p
    rw [h.blocks.blocks.live]
    exact hblock p
  · intro c
    rw [h.blocks.datas.live, List.nil_append, List.nil_append, List.mem_filterMap]
    constructor
    · rintro ⟨p, hp, hc⟩
      obtain ⟨ev, hev⟩ := copyAt_eq_some.mp hc
      exact ⟨p, ev, (hblock p).mp hp, hev⟩
    · rintro ⟨p, ev, hp, hev⟩
      exact ⟨p, (hblock p).mpr hp, copyAt_eq_some.mpr ⟨ev, hev⟩⟩

/-- One call that loses or shares nothing. -/
theorem Owns.next {s : Sys Int} {l : OwnerCall} (h : Owns s [] []) (hc : l.Conserves s) :
    Owns (l.next s) [] [] := by
  cases l with
  | create o => exact h.create hc
  | ctl o epfd op eventFd arg => exact h.epollCtl hc
  | timerStart o a => exact h.baseTimerStart hc
  | timerStop settimeOk o eplfd tfd => exact h.baseTimerStop
  | close epfd => exact h.close epfd

theorem owns_empty : Owns Sys.empty [] [] :=
  ⟨fun _ hn => absurd hn List.not_mem_nil, .empty, .empty, .empty, .empty⟩

/-- Apart from the list nodes, every run of calls that lose or share nothing keeps all objects
in the list's ownership, closing included. -/
theorem owned_objects {s : Sys Int}
    (h : ownerSystem.ReachableUnder (fun s l => l.Conserves s) s) : OwnedObjects s := by
  have hinv : Owns s [] [] := by
    refine System.ReachableUnder.invariant (I := fun s => Owns s [] []) ?_ ?_ h
    · rintro s rfl
      exact owns_empty
    · rintro s l s' hI hc ⟨-, rfl⟩
      exact hI.next hc
  exact hinv.ownedObjects

/-- The list's own nodes. -/
def NodesOwned (s : Sys Int) : Prop := Holds s.nodes (s.epollList.map EpollNode.node)

theorem NodesOwned.of_same {s s' : Sys Int} (h : NodesOwned s) (hn : s'.nodes = s.nodes)
    (hl : s'.epollList = s.epollList) : NodesOwned s' := by
  simp only [NodesOwned]
  rw [hn, hl]
  exact h

theorem NodesOwned.ctl {s : Sys Int} (h : NodesOwned s) (o : Sys.CtlOutcome) (epfd : Int)
    (op : CtlOp) (x : Int) (arg : EventArg) : NodesOwned (s.epollCtl o epfd op x arg).2 := by
  have hsame : Sys.SameRegistry s (s.epollCtl o epfd op x arg).2 := Sys.sameRegistry_ctl
  exact h.of_same hsame.nodes hsame.epollList

theorem NodesOwned.timerExit {s : Sys Int} {r : Int} {pdata : Option Nat} {ws : List CopyWrite}
    (h : NodesOwned s) : NodesOwned (Sys.timerExit pdata ws (r, s)).sys := by
  simp only [Sys.timerExit]
  split
  · exact h
  · exact h.of_same Sys.freeData_nodes Sys.freeData_epollList

theorem NodesOwned.safeClose {s : Sys Int} (h : NodesOwned s) (fd : Int) :
    NodesOwned (s.safeClose fd) := by
  obtain ⟨-, he⟩ | ⟨-, he⟩ := Sys.safeClose_cases s fd
  · rw [he]
    exact h
  · rw [he]
    exact h

theorem NodesOwned.next {s : Sys Int} {l : OwnerCall} (h : NodesOwned s)
    (hk : l.KeepsNodes s) : NodesOwned (l.next s) := by
  cases l with
  | create o =>
    have hends := Sys.create_ends s o
    simp only [OwnerCall.next]
    generalize s.baseEpollCreate o = r at hends
    cases hends with
    | refused => exact h
    | noHash => exact h
    | noEpoll => exact h
    | noNode => exact h
    | created =>
      simp only [NodesOwned]
      rw [List.map_append]
      exact (Holds.alloc h ()).perm (List.perm_append_singleton _ _).symm
  | ctl o epfd op eventFd arg => exact h.ctl o epfd op eventFd arg
  | timerStart o a =>
    simp only [OwnerCall.next]
    cases hset : o.setting a with
    | none =>
      obtain ⟨D, he, -⟩ := start_of_unset (s := s) hset
      rw [he]
      exact h
    | some its =>
      by_cases hroom : a.data ≠ none ∧ 4 ≤ a.len
      · rw [start_of_room hset hroom]
        have hset' : NodesOwned (timerSet s a its) := h
        exact (hset'.ctl o.ctl a.eplfd .add a.tfd _).timerExit
      · rw [start_of_noRoom hset hroom]
        exact h
  | timerStop settimeOk o eplfd tfd =>
    have hset : NodesOwned { s with kernel :=
      (s.kernel.timerfdSettime tfd ⟨⟨0, 0⟩, ⟨0, 0⟩⟩ settimeOk).getD s.kernel } := h
    exact (hset.ctl o eplfd .del tfd _).safeClose tfd
  | close epfd =>
    simp only [OwnerCall.next]
    obtain ⟨-, he⟩ | ⟨-, he⟩ | ⟨n, hf, -⟩ := Sys.close_cases s epfd
    · rw [he]
      exact h
    · rw [he]
      exact h.safeClose epfd
    · exact absurd (hf.symm.trans hk) (Option.some_ne_none n)

/-- In every run of calls that lose or share nothing, and in which no close finds its epoll, each
object is freed at most once and those still allocated are exactly the ones reachable from the
list. -/
theorem registry_owned {s : Sys Int}
    (h : ownerSystem.ReachableUnder (fun s l => l.Conserves s ∧ l.KeepsNodes s) s) : Owned s := by
  have hinv : Owns s [] [] ∧ NodesOwned s := by
    refine System.ReachableUnder.invariant (I := fun s => Owns s [] [] ∧ NodesOwned s) ?_ ?_ h
    · rintro s rfl
      exact ⟨owns_empty, Holds.empty⟩
    · rintro s l s' ⟨hI, hN⟩ ⟨hc, hk⟩ ⟨-, rfl⟩
      exact ⟨hI.next hc, hN.next hk⟩
  obtain ⟨hI, hN⟩ := hinv
  refine ⟨hI.ownedObjects, hN.sound.once, fun a => ?_⟩
  rw [Holds.live hN, List.mem_map]

/-- A timer with four bytes of data is started and stopped on a new epoll. -/
theorem registry_owned_timer :
    Owned (OwnerCall.next (OwnerCall.next (OwnerCall.next Sys.empty (.create (.fine 5)))
      (.timerStart ⟨true, some ⟨100, 0⟩, true, .fine⟩
        ⟨5, 7, 1, 0, 0, 0, 0, some fun _ => 9, 4⟩)) (.timerStop true .fine 5 7)) := by
  refine registry_owned (.step (.step (.step (.init rfl) ⟨?_, ?_⟩ ⟨?_, rfl⟩)
    ⟨?_, ?_⟩ ⟨?_, rfl⟩) ⟨?_, ?_⟩ ⟨?_, rfl⟩)
  · intro _ _ _
    exact ⟨rfl, rfl⟩
  · trivial
  · rfl
  · intro its _
    exact ⟨⟨by simp, by decide⟩, _, rfl, fun _ _ => ⟨fun _ => rfl, fun _ => rfl⟩⟩
  · trivial
  · exact ⟨by decide, by decide⟩
  · trivial
  · trivial
  · exact ⟨by decide, by decide⟩

/-- Creating an epoll and closing it leaves the list node allocated. -/
theorem list_node_leaks : ¬ ∀ s : Sys Int, ownerSystem.Reachable s → Owned s := by
  intro h
  have hr : ownerSystem.Reachable
      (OwnerCall.next (OwnerCall.next Sys.empty (.create (.fine 5))) (.close 5)) := by
    refine .step (.step (.init rfl) trivial ⟨?_, rfl⟩) trivial ⟨?_, rfl⟩
    · rfl
    · trivial
  have hnode := ((h _ hr).nodes 0).mp (by decide)
  obtain ⟨n, hn, -⟩ := hnode
  revert hn
  exact List.not_mem_nil

end BaseCode.Epoll
