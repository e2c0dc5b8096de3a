import BaseCode.Epoll.Registry

/-!
# What each operation leaves alone

Freeing a block touches the blocks and the copies, a table operation also one table, and
`base_epoll_ctl` neither the list nor the open descriptors. The branches of the calls are
listed once here.
-/

namespace BaseCode.Epoll
open Foundation Comm

namespace Sys

variable {κ : Type} {f : KeyFuncs κ} {s : Sys κ} {p h : Nat} {key : κ} {o : CtlOutcome}
  {v : Option Nat} {d : Option DataPtr}

section Free

/-- Freeing attached data touches the copies only. -/
theorem freeData_frame : ∃ D, s.freeData d = { s with datas := D } ∧ D.next = s.datas.next := by
  rcases d with _ | ⟨c | a⟩
  · exact ⟨s.datas, rfl, rfl⟩
  · exact ⟨s.datas.free c, rfl, rfl⟩
  · exact ⟨s.datas, rfl, rfl⟩

@[simp] theorem freeData_nodes : (s.freeData d).nodes = s.nodes := by
  obtain ⟨D, he, -⟩ := freeData_frame (s := s) (d := d)
  rw [he]

@[simp] theorem freeData_epolls : (s.freeData d).epolls = s.epolls := by
  obtain ⟨D, he, -⟩ := freeData_frame (s := s) (d := d)
  rw [he]

@[simp] theorem freeData_tables : (s.freeData d).tables = s.tables := by
  obtain ⟨D, he, -⟩ := freeData_frame (s := s) (d := d)
  rw [he]

@[simp] theorem freeData_blocks : (s.freeData d).blocks = s.blocks := by
  obtain ⟨D, he, -⟩ := freeData_frame (s := s) (d := d)
  rw [he]

@[simp] theorem freeData_epollList : (s.freeData d).epollList = s.epollList := by
  obtain ⟨D, he, -⟩ := freeData_frame (s := s) (d := d)
  rw [he]

@[simp] theorem freeData_kernel : (s.freeData d).kernel = s.kernel := by
  obtain ⟨D, he, -⟩ := freeData_frame (s := s) (d := d)
  rw [he]

@[simp] theorem freeData_datas_next : (s.freeData d).datas.next = s.datas.next := by
  obtain ⟨D, he, hn⟩ := freeData_frame (s := s) (d := d)
  rw [he]
  exact hn

@[simp] theorem freeBlock_datas_next :
    (s.baseEpollFreeEventBlock p).datas.next = s.datas.next := by
  simp [baseEpollFreeEventBlock]

@[simp] theorem freeBlock_nodes : (s.baseEpollFreeEventBlock p).nodes = s.nodes := by
  simp [baseEpollFreeEventBlock]

@[simp] theorem freeBlock_epolls : (s.baseEpollFreeEventBlock p).epolls = s.epolls := by
  simp [baseEpollFreeEventBlock]

@[simp] theorem freeBlock_tables : (s.baseEpollFreeEventBlock p).tables = s.tables := by
  simp [baseEpollFreeEventBlock]

@[simp] theorem freeBlock_blocks : (s.baseEpollFreeEventBlock p).blocks = s.blocks.free p := by
  simp [baseEpollFreeEventBlock]

@[simp] theorem freeBlock_epollList :
    (s.baseEpollFreeEventBlock p).epollList = s.epollList := by
  simp [baseEpollFreeEventBlock]

@[simp] theorem freeBlock_kernel : (s.baseEpollFreeEventBlock p).kernel = s.kernel := by
  simp [baseEpollFreeEventBlock]

@[simp] theorem freeValue_nodes : (s.freeValue v).nodes = s.nodes := by
  cases v <;> simp [freeValue]

@[simp] theorem freeValue_epolls : (s.freeValue v).epolls = s.epolls := by
  cases v <;> simp [freeValue]

@[simp] theorem freeValue_tables : (s.freeValue v).tables = s.tables := by
  cases v <;> simp [freeValue]

@[simp] theorem freeValue_blocks : (s.freeValue v).blocks = s.blocks.freeOpt v := by
  cases v <;> simp [freeValue, Arena.freeOpt]

@[simp] theorem freeValue_epollList : (s.freeValue v).epollList = s.epollList := by
  cases v <;> simp [freeValue]

@[simp] theorem freeValue_kernel : (s.freeValue v).kernel = s.kernel := by
  cases v <;> simp [freeValue]

@[simp] theorem freeValue_datas_next : (s.freeValue v).datas.next = s.datas.next := by
  cases v <;> simp [freeValue]

/-- Only a copy attached to the freed block goes with it. -/
theorem freeValue_datas_cells {c : Nat}
    (hc : ∀ q ev, v = some q → s.blocks.cells q = some ev → ev.data ≠ some (.copy c)) :
    (s.freeValue v).datas.cells c = s.datas.cells c := by
  cases v with
  | none => rfl
  | some q =>
    simp only [freeValue, baseEpollFreeEventBlock]
    cases hq : s.blocks.cells q with
    | none => rfl
    | some ev =>
      have hne := hc q ev rfl hq
      simp only [Option.bind_some]
      rcases hd : ev.data with _ | ⟨c' | a⟩
      · rfl
      · have hcc : c ≠ c' := fun heq => hne (by rw [hd, heq])
        simp [freeData, Arena.free, hcc]
      · rfl

/-- Freeing blocks one after the other touches the blocks and the copies only. -/
theorem freeBlocks_frame (l : List Nat) (s : Sys κ) :
    ∃ D B, l.foldl baseEpollFreeEventBlock s = { s with datas := D, blocks := B } := by
  induction l generalizing s with
  | nil => exact ⟨s.datas, s.blocks, rfl⟩
  | cons p l ih =>
    obtain ⟨D, B, he⟩ := ih (s.baseEpollFreeEventBlock p)
    refine ⟨D, B, ?_⟩
    rw [List.foldl_cons, he]
    simp

theorem freeHash_frame (s : Sys κ) (h : Nat) : ∃ D B, s.baseEpollFreeEventHash h =
    { s with datas := D, blocks := B, tables := s.tables.free h } := by
  obtain ⟨D, B, he⟩ := freeBlocks_frame (s.table h).values s
  refine ⟨D, B, ?_⟩
  simp only [baseEpollFreeEventHash, he]

@[simp] theorem freeHash_nodes : (s.baseEpollFreeEventHash h).nodes = s.nodes := by
  obtain ⟨D, B, he⟩ := freeHash_frame s h
  rw [he]

@[simp] theorem freeHash_epolls : (s.baseEpollFreeEventHash h).epolls = s.epolls := by
  obtain ⟨D, B, he⟩ := freeHash_frame s h
  rw [he]

@[simp] theorem freeHash_tables :
    (s.baseEpollFreeEventHash h).tables = s.tables.free h := by
  obtain ⟨D, B, he⟩ := freeHash_frame s h
  rw [he]

@[simp] theorem freeHash_epollList : (s.baseEpollFreeEventHash h).epollList = s.epollList := by
  obtain ⟨D, B, he⟩ := freeHash_frame s h
  rw [he]

@[simp] theorem freeHash_kernel : (s.baseEpollFreeEventHash h).kernel = s.kernel := by
  obtain ⟨D, B, he⟩ := freeHash_frame s h
  rw [he]

end Free

section Close

/-- The node found is in the list and has the descriptor. -/
theorem findEpoll_spec {n : EpollNode} {epfd : Int} (hn : s.findEpoll epfd = some n) :
    n ∈ s.epollList ∧ n.epollFd = epfd :=
  ⟨List.mem_of_find?_eq_some hn, by simpa using List.find?_some hn⟩

theorem safeClose_cases (s : Sys κ) (fd : Int) :
    (0 < fd ∧ s.safeClose fd = { s with kernel := s.kernel.close fd }) ∨
      (¬ 0 < fd ∧ s.safeClose fd = s) := by
  by_cases hfd : 0 < fd
  · exact .inl ⟨hfd, by rw [safeClose, if_pos hfd]⟩
  · exact .inr ⟨hfd, by rw [safeClose, if_neg hfd]⟩

/-- The node is out of the list, and what hung from it is freed; the node itself is not. -/
def unlinkEpoll (s : Sys κ) (epfd : Int) (n : EpollNode) : Sys κ :=
  let s := { s with epollList := s.epollList.eraseP fun n => n.epollFd == epfd }
  let s := s.baseEpollFreeEventHash n.pEventHash
  { s with epolls := s.epolls.free n.epoll }

/-- The ends of `base_epoll_close`. -/
theorem close_cases (s : Sys κ) (epfd : Int) :
    (epfd = -1 ∧ s.baseEpollClose epfd = s) ∨
    (s.findEpoll epfd = none ∧ s.baseEpollClose epfd = s.safeClose epfd) ∨
    ∃ n, s.findEpoll epfd = some n ∧
      s.baseEpollClose epfd = (s.unlinkEpoll epfd n).safeClose epfd := by
  by_cases hm : epfd = -1
  · exact .inl ⟨hm, by rw [baseEpollClose, if_pos hm]⟩
  · cases hn : s.findEpoll epfd with
    | none => exact .inr (.inl ⟨rfl, by rw [baseEpollClose, if_neg hm, hn]⟩)
    | some n => exact .inr (.inr ⟨n, rfl, by rw [baseEpollClose, if_neg hm, hn]; rfl⟩)

end Close

section TableOps

@[simp] theorem insertEvent_nodes : (s.insertEvent f h key p o).nodes = s.nodes := by
  simp [insertEvent]

@[simp] theorem insertEvent_epolls : (s.insertEvent f h key p o).epolls = s.epolls := by
  simp [insertEvent]

@[simp] theorem insertEvent_epollList :
    (s.insertEvent f h key p o).epollList = s.epollList := by
  simp [insertEvent]

@[simp] theorem insertEvent_kernel : (s.insertEvent f h key p o).kernel = s.kernel := by
  simp [insertEvent]

/-- The value that the table gives up is freed. -/
theorem insertEvent_blocks :
    (s.insertEvent f h key p o).blocks =
      s.blocks.freeOpt (hashTableInsert f (s.table h) key p o.callocOk o.entryOk).freed := by
  simp [insertEvent]

theorem removeEvent_blocks :
    (s.removeEvent f h key).blocks =
      s.blocks.freeOpt (hashTableRemove f (s.table h) key).1 := by
  simp [removeEvent]

@[simp] theorem removeEvent_nodes : (s.removeEvent f h key).nodes = s.nodes := by
  simp [removeEvent]

@[simp] theorem removeEvent_epolls : (s.removeEvent f h key).epolls = s.epolls := by
  simp [removeEvent]

@[simp] theorem removeEvent_epollList : (s.removeEvent f h key).epollList = s.epollList := by
  simp [removeEvent]

@[simp] theorem removeEvent_kernel : (s.removeEvent f h key).kernel = s.kernel := by
  simp [removeEvent]

@[simp] theorem removeEvent_datas_next :
    (s.removeEvent f h key).datas.next = s.datas.next := by
  simp [removeEvent]

theorem table_set {h' : Nat} {t : HashTable κ Nat} {s : Sys κ} :
    ({ s with tables := s.tables.set h t } : Sys κ).table h' =
      if h' = h then t else s.table h' := by
  simp only [table, Arena.set]
  by_cases hh : h' = h
  · simp [hh]
  · simp [hh]

theorem table_congr {s' : Sys κ} (ht : s'.tables = s.tables) (h : Nat) :
    s'.table h = s.table h := by
  simp only [table]
  rw [ht]

theorem insertEvent_table {h' : Nat} :
    (s.insertEvent f h key p o).table h' =
      if h' = h then (hashTableInsert f (s.table h) key p o.callocOk o.entryOk).table
      else s.table h' := by
  simp only [insertEvent]
  rw [table_congr freeValue_tables, table_set]

theorem removeEvent_table {h' : Nat} :
    (s.removeEvent f h key).table h' =
      if h' = h then (hashTableRemove f (s.table h) key).2 else s.table h' := by
  simp only [removeEvent]
  rw [table_congr freeValue_tables, table_set]

end TableOps

section Create

/-- The ends of `base_epoll_create`, from the first exit to the last. -/
inductive CreateEnds (s : Sys κ) (o : CreateOutcome) : Int × Sys κ → Prop
  | refused : o.eplfd ≤ 0 →
      CreateEnds s o (-1, { s with kernel := s.kernel.epollCreate o.eplfd })
  | noHash : 0 < o.eplfd → ¬ (o.hashOk = true ∧ o.tableOk = true) →
      CreateEnds s o (-1, { s with kernel := (s.kernel.epollCreate o.eplfd).close o.eplfd })
  | noEpoll : 0 < o.eplfd → o.hashOk = true → o.tableOk = true → o.epollOk = false →
      CreateEnds s o (-1, { s with
        tables := s.tables.alloc emptyTable
        kernel := (s.kernel.epollCreate o.eplfd).close o.eplfd })
  | noNode : 0 < o.eplfd → o.hashOk = true → o.tableOk = true → o.epollOk = true →
      o.nodeOk = false →
      CreateEnds s o (o.eplfd, { s with
        tables := s.tables.alloc emptyTable
        epolls := s.epolls.alloc ()
        kernel := s.kernel.epollCreate o.eplfd })
  | created : 0 < o.eplfd → o.hashOk = true → o.tableOk = true → o.epollOk = true →
      o.nodeOk = true →
      CreateEnds s o (o.eplfd, { s with
        tables := s.tables.alloc emptyTable
        epolls := s.epolls.alloc ()
        nodes := s.nodes.alloc ()
        epollList := s.epollList ++
          [⟨s.nodes.next, s.epolls.next, o.eplfd, s.tables.next, s.kernel.instances⟩]
        kernel := s.kernel.epollCreate o.eplfd })

theorem create_ends (s : Sys κ) (o : CreateOutcome) : CreateEnds s o (s.baseEpollCreate o) := by
  simp only [baseEpollCreate]
  by_cases hpos : o.eplfd ≤ 0
  · rw [if_pos hpos]
    exact .refused hpos
  · rw [if_neg hpos]
    have hgt : 0 < o.eplfd := by omega
    cases hh : o.hashOk with
    | false => simpa [hashTableNew, safeClose, hgt] using CreateEnds.noHash hgt (by simp [hh])
    | true =>
      cases ht : o.tableOk with
      | false => simpa [hashTableNew, safeClose, hgt] using CreateEnds.noHash hgt (by simp [ht])
      | true =>
        cases he : o.epollOk with
        | false => simpa [hashTableNew, safeClose, hgt] using CreateEnds.noEpoll hgt hh ht he
        | true =>
          cases hn : o.nodeOk with
          | false => simpa [hashTableNew, listAppend] using CreateEnds.noNode hgt hh ht he hn
          | true => simpa [hashTableNew, listAppend] using CreateEnds.created hgt hh ht he hn

end Create

section Ctl

variable {f₁ f₂ : KeyFuncs κ} {n : EpollNode} {epfd eventFd : Int} {op : CtlOp}
  {ev : EpollEvent} {arg : EventArg}

/-- The ends of the part that ADD and MOD share. -/
theorem attachBlock_cases (f : KeyFuncs κ) (key : κ) (o : CtlOutcome) (s : Sys κ)
    (n : EpollNode) (epfd : Int) (op : CtlOp) (eventFd : Int) (ev : EpollEvent) :
    (o.mallocOk = false ∧ s.attachBlock f key o n epfd op eventFd ev = (-1, s)) ∨
    (o.mallocOk = true ∧ s.kernel.epollCtl epfd op eventFd s.blocks.next o.kernelOk = none ∧
      s.attachBlock f key o n epfd op eventFd ev =
        (-1, { s with blocks := (s.blocks.alloc ev).free s.blocks.next })) ∨
    ∃ k, o.mallocOk = true ∧
      s.kernel.epollCtl epfd op eventFd s.blocks.next o.kernelOk = some k ∧
      s.attachBlock f key o n epfd op eventFd ev =
        (0, { s with blocks := s.blocks.alloc ev, kernel := k }.insertEvent f n.pEventHash key
          s.blocks.next o) := by
  unfold attachBlock
  cases hm : o.mallocOk with
  | false => exact .inl ⟨rfl, rfl⟩
  | true =>
    cases hk : s.kernel.epollCtl epfd op eventFd s.blocks.next o.kernelOk with
    | none => exact .inr (.inl ⟨rfl, rfl, by simp [hk]⟩)
    | some k => exact .inr (.inr ⟨k, rfl, rfl, by simp [hk]⟩)

/-- The ends of the DEL branch. -/
theorem detachBlock_cases (f : KeyFuncs κ) (key : κ) (o : CtlOutcome) (s : Sys κ)
    (n : EpollNode) (epfd eventFd : Int) :
    (s.kernel.epollCtl epfd .del eventFd 0 o.kernelOk = none ∧
      s.detachBlock f key o n epfd eventFd = (-1, s.removeEvent f n.pEventHash key)) ∨
    ∃ k, s.kernel.epollCtl epfd .del eventFd 0 o.kernelOk = some k ∧
      s.detachBlock f key o n epfd eventFd =
        (0, { s with kernel := k }.removeEvent f n.pEventHash key) := by
  simp only [detachBlock]
  cases hk : s.kernel.epollCtl epfd .del eventFd 0 o.kernelOk with
  | none => exact .inl ⟨rfl, rfl⟩
  | some k => exact .inr ⟨k, rfl, rfl⟩

theorem ctl_of_unknown (hn : s.findEpoll epfd = none) :
    s.baseEpollCtl f₁ f₂ key o epfd op eventFd arg = (0, s) := by
  simp [baseEpollCtl, hn]

theorem ctl_add (hn : s.findEpoll epfd = some n) :
    s.baseEpollCtl f₁ f₂ key o epfd .add eventFd arg =
      s.attachBlock f₂ key o n epfd .add eventFd (s.readEvent arg) := by
  simp [baseEpollCtl, hn]

theorem ctl_del (hn : s.findEpoll epfd = some n) :
    s.baseEpollCtl f₁ f₂ key o epfd .del eventFd arg =
      s.detachBlock f₁ key o n epfd eventFd := by
  simp [baseEpollCtl, hn]

theorem ctl_mod (hn : s.findEpoll epfd = some n) :
    s.baseEpollCtl f₁ f₂ key o epfd .mod eventFd arg =
      s.exchangeBlock f₁ f₂ key o n epfd eventFd arg := by
  simp [baseEpollCtl, hn]

theorem ctl_other {c : Int} :
    s.baseEpollCtl f₁ f₂ key o epfd (.other c) eventFd arg = (0, s) := by
  simp only [baseEpollCtl]
  split <;> rfl

/-- `base_epoll_ctl` is one of the three branches, or does nothing. -/
theorem ctl_induction {P : Int × Sys κ → Prop} (f₁ f₂ : KeyFuncs κ) (key : κ)
    (o : CtlOutcome) (s : Sys κ) (epfd : Int) (op : CtlOp) (eventFd : Int) (arg : EventArg)
    (hnone : P (0, s))
    (hadd : ∀ n, s.findEpoll epfd = some n →
      P (s.attachBlock f₂ key o n epfd .add eventFd (s.readEvent arg)))
    (hdel : ∀ n, s.findEpoll epfd = some n → P (s.detachBlock f₁ key o n epfd eventFd))
    (hmod : ∀ n, s.findEpoll epfd = some n →
      P (s.exchangeBlock f₁ f₂ key o n epfd eventFd arg)) :
    P (s.baseEpollCtl f₁ f₂ key o epfd op eventFd arg) := by
  cases hn : s.findEpoll epfd with
  | none =>
    rw [ctl_of_unknown hn]
    exact hnone
  | some n =>
    cases op with
    | add => rw [ctl_add hn]; exact hadd n hn
    | del => rw [ctl_del hn]; exact hdel n hn
    | mod => rw [ctl_mod hn]; exact hmod n hn
    | other c => rw [ctl_other]; exact hnone

/-- What no branch touches. -/
structure SameRegistry (s s' : Sys κ) : Prop where
  nodes : s'.nodes = s.nodes
  epolls : s'.epolls = s.epolls
  epollList : s'.epollList = s.epollList
  epollOf : s'.kernel.epollOf = s.kernel.epollOf
  instances : s'.kernel.instances = s.kernel.instances
  timers : s'.kernel.timers = s.kernel.timers
  armings : s'.kernel.armings = s.kernel.armings

theorem SameRegistry.refl (s : Sys κ) : SameRegistry s s := ⟨rfl, rfl, rfl, rfl, rfl, rfl, rfl⟩

theorem SameRegistry.trans {s₁ s₂ s₃ : Sys κ} (h₁ : SameRegistry s₁ s₂)
    (h₂ : SameRegistry s₂ s₃) : SameRegistry s₁ s₃ :=
  ⟨h₂.nodes.trans h₁.nodes, h₂.epolls.trans h₁.epolls, h₂.epollList.trans h₁.epollList,
    h₂.epollOf.trans h₁.epollOf, h₂.instances.trans h₁.instances, h₂.timers.trans h₁.timers,
    h₂.armings.trans h₁.armings⟩

theorem sameRegistry_kernel {k : Kernel} {ptr : Nat} {ok : Bool} (A : Arena EpollEvent)
    (hk : s.kernel.epollCtl epfd op eventFd ptr ok = some k) :
    SameRegistry s { s with blocks := A, kernel := k } := by
  obtain ⟨-, i, -, -, rfl⟩ := Kernel.epollCtl_eq_some_iff.mp hk
  exact ⟨rfl, rfl, rfl, rfl, rfl, rfl, rfl⟩

theorem sameRegistry_removeEvent : SameRegistry s (s.removeEvent f h key) := by
  constructor <;> simp

theorem sameRegistry_insertEvent : SameRegistry s (s.insertEvent f h key p o) := by
  constructor <;> simp

theorem sameRegistry_attachBlock :
    SameRegistry s (s.attachBlock f key o n epfd op eventFd ev).2 := by
  obtain ⟨-, he⟩ | ⟨-, -, he⟩ | ⟨k, -, hk, he⟩ :=
    attachBlock_cases f key o s n epfd op eventFd ev
  · rw [he]
    exact .refl s
  · rw [he]
    exact ⟨rfl, rfl, rfl, rfl, rfl, rfl, rfl⟩
  · rw [he]
    exact (sameRegistry_kernel (s.blocks.alloc ev) hk).trans sameRegistry_insertEvent

theorem sameRegistry_exchangeBlock :
    SameRegistry s (s.exchangeBlock f₁ f₂ key o n epfd eventFd arg).2 :=
  sameRegistry_removeEvent.trans sameRegistry_attachBlock

theorem sameRegistry_detachBlock : SameRegistry s (s.detachBlock f key o n epfd eventFd).2 := by
  obtain ⟨-, he⟩ | ⟨k, hk, he⟩ := detachBlock_cases f key o s n epfd eventFd
  · rw [he]
    exact sameRegistry_removeEvent
  · rw [he]
    exact (sameRegistry_kernel s.blocks hk).trans sameRegistry_removeEvent

/-- `base_epoll_ctl` keeps the list, the open descriptors and the timers. -/
theorem sameRegistry_ctl :
    SameRegistry s (s.baseEpollCtl f₁ f₂ key o epfd op eventFd arg).2 := by
  refine ctl_induction (P := fun r => SameRegistry s r.2) f₁ f₂ key o s epfd op eventFd arg
    (.refl s) ?_ ?_ ?_
  · intro n _
    exact sameRegistry_attachBlock
  · intro n _
    exact sameRegistry_detachBlock
  · intro n _
    exact sameRegistry_exchangeBlock

end Ctl

end Sys

end BaseCode.Epoll
