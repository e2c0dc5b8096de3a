import BaseCode.Foundation.Runs
import BaseCode.Comm.LinkedList
import BaseCode.Epoll.Frames

/-!
# The registry, pointer by pointer

The other modules keep `g_p_epoll_list` as a list of nodes. Here `base_epoll_create` and
`base_epoll_close` work on the list of `src/comm/list.c` itself: entries that point to each
other and to `BsaeEpoll` records. A call gives `none` if it follows a pointer to no object, or
if a loop over the list does not end. Over every run of the two functions neither happens, and
the list holds, in both directions, the sequence that the other modules work with.
-/

namespace BaseCode.Epoll
open Foundation Comm

variable {κ : Type}

structure BsaeEpoll where
  epollFd : Int
  pEventHash : Nat
  deriving DecidableEq, Repr

/-- The memory with the list in pointers. `rest` is the other memory and the kernel; its own
registry stays empty. -/
structure PtrSys (κ : Type) where
  registry : ListHeap Nat
  epolls : Arena BsaeEpoll
  rest : Sys κ

namespace PtrSys

def empty : PtrSys κ := ⟨.empty, .empty, .empty⟩

/-- `base_epoll_list_equal`, which reads the record. -/
def baseEpollListEqual (p : PtrSys κ) (epfd : Int) (value : Nat) : Option Bool :=
  (p.epolls.cells value).map fun e => e.epollFd == epfd

def baseEpollCreate (p : PtrSys κ) (o : Sys.CreateOutcome) : Option (Int × PtrSys κ) :=
  let p := { p with rest := { p.rest with kernel := p.rest.kernel.epollCreate o.eplfd } }
  if o.eplfd ≤ 0 then some (-1, p)
  else
    match hashTableNew o.hashOk o.tableOk with
    | none => some (-1, { p with rest := p.rest.safeClose o.eplfd })
    | some t =>
      let h := p.rest.tables.next
      let p := { p with rest := { p.rest with tables := p.rest.tables.alloc t } }
      if o.epollOk then do
        let e := p.epolls.next
        let p := { p with epolls := p.epolls.alloc ⟨o.eplfd, h⟩ }
        let r ← listAppend p.registry e o.nodeOk
        some (o.eplfd, { p with registry := r.2 })
      else some (-1, { p with rest := p.rest.safeClose o.eplfd })

def baseEpollClose (p : PtrSys κ) (epfd : Int) : Option (PtrSys κ) :=
  if epfd = -1 then some p
  else do
    match ← listFindData p.registry (p.baseEpollListEqual epfd) with
    | none => some { p with rest := p.rest.safeClose epfd }
    | some node =>
      let entry ← p.registry.entries.cells node
      let r ← listRemoveEntry p.registry (some node)
      let epoll ← p.epolls.cells entry.data
      let rest := p.rest.baseEpollFreeEventHash epoll.pEventHash
      some ⟨r.2, p.epolls.free entry.data, rest.safeClose epfd⟩

end PtrSys

/-- A call of a run. -/
inductive RegistryCall
  | create (o : Sys.CreateOutcome)
  | close (epfd : Int)
  deriving DecidableEq, Repr

def PtrSys.next (p : PtrSys κ) : RegistryCall → Option (PtrSys κ)
  | .create o => (p.baseEpollCreate o).map Prod.snd
  | .close epfd => p.baseEpollClose epfd

def Sys.next (s : Sys κ) : RegistryCall → Sys κ
  | .create o => (s.baseEpollCreate o).2
  | .close epfd => s.baseEpollClose epfd

namespace Sys

/-- The memory apart from the registry. -/
def forget (s : Sys κ) : Sys κ := { s with nodes := .empty, epolls := .empty, epollList := [] }

variable {s : Sys κ}

theorem forget_freeBlock (s : Sys κ) (p : Nat) :
    (s.baseEpollFreeEventBlock p).forget = s.forget.baseEpollFreeEventBlock p := by
  simp only [baseEpollFreeEventBlock, forget, freeData]
  rcases (s.blocks.cells p).bind EpollEvent.data with _ | ⟨a | a⟩ <;> rfl

theorem forget_freeHash (s : Sys κ) (h : Nat) :
    (s.baseEpollFreeEventHash h).forget = s.forget.baseEpollFreeEventHash h := by
  have hfold : ∀ (l : List Nat) (s : Sys κ),
      (l.foldl baseEpollFreeEventBlock s).forget = l.foldl baseEpollFreeEventBlock s.forget := by
    intro l
    induction l with
    | nil => exact fun _ => rfl
    | cons p l ih =>
      intro s
      rw [List.foldl_cons, List.foldl_cons, ih, forget_freeBlock]
  have htable : s.forget.table h = s.table h := rfl
  simp only [baseEpollFreeEventHash, htable, ← hfold]
  rfl

theorem forget_safeClose (s : Sys κ) (fd : Int) :
    (s.safeClose fd).forget = s.forget.safeClose fd := by
  simp only [safeClose]
  split <;> rfl

end Sys

/-- The pointers hold the list of nodes `s.epollList`, and the rest of the memory is the same. -/
structure Refines (p : PtrSys κ) (s : Sys κ) : Prop where
  chain : Chain p.registry.entries.cells p.registry.list (s.epollList.map EpollNode.node)
  data : ∀ n ∈ s.epollList, dataAt p.registry.entries n.node = some n.epoll
  record : ∀ n ∈ s.epollList, p.epolls.cells n.epoll = some ⟨n.epollFd, n.pEventHash⟩
  distinct : (s.epollList.map EpollNode.epoll).Nodup
  node_lt : ∀ n ∈ s.epollList, n.node < p.registry.entries.next
  epoll_lt : ∀ n ∈ s.epollList, n.epoll < p.epolls.next
  nodes_next : s.nodes.next = p.registry.entries.next
  epolls_next : s.epolls.next = p.epolls.next
  rest : p.rest = s.forget

namespace Refines

variable {p : PtrSys κ} {s s' : Sys κ}

theorem empty : Refines (.empty : PtrSys κ) .empty where
  chain := ⟨rfl, List.nodup_nil⟩
  data n hn := by cases hn
  record n hn := by cases hn
  distinct := List.nodup_nil
  node_lt n hn := by cases hn
  epoll_lt n hn := by cases hn
  nodes_next := rfl
  epolls_next := rfl
  rest := rfl

theorem addr_lt (h : Refines p s) :
    ∀ a ∈ s.epollList.map EpollNode.node, a < p.registry.entries.next := by
  intro a ha
  obtain ⟨n, hmem, rfl⟩ := List.mem_map.mp ha
  exact h.node_lt n hmem

/-- A step that leaves the registry alone. -/
theorem of_rest (h : Refines p s) (hl : s'.epollList = s.epollList) (hn : s'.nodes = s.nodes)
    (he : s'.epolls = s.epolls) : Refines { p with rest := s'.forget } s' where
  chain := hl ▸ h.chain
  data := hl ▸ h.data
  record := hl ▸ h.record
  distinct := hl ▸ h.distinct
  node_lt := hl ▸ h.node_lt
  epoll_lt := hl ▸ h.epoll_lt
  nodes_next := hn ▸ h.nodes_next
  epolls_next := he ▸ h.epolls_next
  rest := rfl

/-- A new record that is not in the list. -/
theorem allocEpoll (h : Refines p s) (e : BsaeEpoll) (hl : s'.epollList = s.epollList)
    (hn : s'.nodes = s.nodes) (he : s'.epolls = s.epolls.alloc ()) :
    Refines { p with epolls := p.epolls.alloc e, rest := s'.forget } s' where
  chain := hl ▸ h.chain
  data := hl ▸ h.data
  record n hmem := by
    rw [hl] at hmem
    exact (Function.update_of_ne (Nat.ne_of_lt (h.epoll_lt n hmem)) ..).trans (h.record n hmem)
  distinct := hl ▸ h.distinct
  node_lt := hl ▸ h.node_lt
  epoll_lt n hmem := Nat.lt_succ_of_lt (h.epoll_lt n (hl ▸ hmem))
  nodes_next := hn ▸ h.nodes_next
  epolls_next := by
    rw [he]
    exact congrArg Nat.succ h.epolls_next
  rest := rfl

/-- A new record with a new entry at the end of the list. -/
theorem appendEpoll (h : Refines p s) (epollFd : Int) (pEventHash : Nat) :
    ∃ l', listAppend p.registry p.epolls.next true = some (some p.registry.entries.next, l') ∧
      ∀ (inst : Nat) (s' : Sys κ), s'.epollList = s.epollList ++
          [⟨s.nodes.next, s.epolls.next, epollFd, pEventHash, inst⟩] →
        s'.nodes = s.nodes.alloc () → s'.epolls = s.epolls.alloc () →
        Refines ⟨l', p.epolls.alloc ⟨epollFd, pEventHash⟩, s'.forget⟩ s' := by
  obtain ⟨l', happ, hchain, hnext, hdata⟩ := listAppend_spec h.chain h.addr_lt p.epolls.next
  refine ⟨l', happ, ?_⟩
  intro inst s' hl hn he
  have hcases : ∀ n ∈ s'.epollList, n ∈ s.epollList ∨
      n = ⟨s.nodes.next, s.epolls.next, epollFd, pEventHash, inst⟩ := by
    intro n hmem
    rw [hl, List.mem_append, List.mem_singleton] at hmem
    exact hmem
  refine ⟨?_, ?_, ?_, ?_, ?_, ?_, ?_, ?_, rfl⟩
  · rw [hl, List.map_append, List.map_singleton, h.nodes_next]
    exact hchain
  · intro n hmem
    rw [hdata]
    rcases hcases n hmem with hmem | rfl
    · rw [Function.update_of_ne (Nat.ne_of_lt (h.node_lt n hmem))]
      exact h.data n hmem
    · rw [h.nodes_next, Function.update_self, h.epolls_next]
  · intro n hmem
    rcases hcases n hmem with hmem | rfl
    · exact (Function.update_of_ne (Nat.ne_of_lt (h.epoll_lt n hmem)) ..).trans (h.record n hmem)
    · rw [h.epolls_next]
      exact Function.update_self ..
  · rw [hl, List.map_append, List.map_singleton, List.nodup_append]
    refine ⟨h.distinct, List.nodup_singleton _, ?_⟩
    rintro a ha b hb rfl
    obtain ⟨n, hmem, rfl⟩ := List.mem_map.mp ha
    rw [List.mem_singleton, h.epolls_next] at hb
    exact Nat.lt_irrefl _ (hb ▸ h.epoll_lt n hmem)
  · intro n hmem
    rw [hnext]
    rcases hcases n hmem with hmem | rfl
    · exact Nat.lt_succ_of_lt (h.node_lt n hmem)
    · rw [h.nodes_next]
      exact Nat.lt_succ_self _
  · intro n hmem
    rcases hcases n hmem with hmem | rfl
    · exact Nat.lt_succ_of_lt (h.epoll_lt n hmem)
    · rw [h.epolls_next]
      exact Nat.lt_succ_self _
  · rw [hn, hnext, ← h.nodes_next]
    rfl
  · rw [he]
    exact congrArg Nat.succ h.epolls_next

/-- `base_epoll_create` returns the same on both sides. -/
theorem create (h : Refines p s) (o : Sys.CreateOutcome) :
    ∃ p', p.baseEpollCreate o = some ((s.baseEpollCreate o).1, p') ∧
      Refines p' (s.baseEpollCreate o).2 := by
  have hends := Sys.create_ends s o
  generalize s.baseEpollCreate o = r at hends
  cases hends with
  | refused hle =>
    refine ⟨_, ?_, h.of_rest rfl rfl rfl⟩
    simp only [PtrSys.baseEpollCreate, if_pos hle, h.rest]
    rfl
  | noHash hgt hno =>
    refine ⟨_, ?_, h.of_rest rfl rfl rfl⟩
    have hnew : (hashTableNew o.hashOk o.tableOk : Option (HashTable κ Nat)) = none := by
      simpa [hashTableNew] using hno
    simp only [PtrSys.baseEpollCreate, if_neg (Int.not_le.mpr hgt), h.rest, hnew, Sys.safeClose,
      if_pos hgt]
    rfl
  | noEpoll hgt hh ht he =>
    refine ⟨_, ?_, h.of_rest rfl rfl rfl⟩
    simp only [PtrSys.baseEpollCreate, if_neg (Int.not_le.mpr hgt), h.rest, hh, ht, he,
      Sys.safeClose, if_pos hgt]
    rfl
  | noNode hgt hh ht he hn =>
    refine ⟨_, ?_, h.allocEpoll ⟨o.eplfd, s.tables.next⟩ rfl rfl rfl⟩
    simp only [PtrSys.baseEpollCreate, if_neg (Int.not_le.mpr hgt), h.rest, hh, ht, he, hn,
      listAppend]
    rfl
  | created hgt hh ht he hn =>
    obtain ⟨l', happ, href⟩ := h.appendEpoll o.eplfd s.tables.next
    refine ⟨_, ?_, href _ _ rfl rfl rfl⟩
    simp only [PtrSys.baseEpollCreate, if_neg (Int.not_le.mpr hgt), h.rest, hh, ht, he, hn, happ]
    rfl

/-- `list_find_data` selects the node that a search of the list of nodes finds. -/
theorem listFindData (h : Refines p s) (epfd : Int) :
    Comm.listFindData p.registry (p.baseEpollListEqual epfd) =
      some ((s.findEpoll epfd).map EpollNode.node) := by
  have hlen := length_le_next h.chain.nodup h.addr_lt
  rw [List.length_map] at hlen
  refine findData_eq h.chain.segment ?_ hlen
  intro n hmem
  rw [h.data n hmem, Option.bind_some, PtrSys.baseEpollListEqual, h.record n hmem]
  rfl

/-- The first node with the number is unlinked and its record freed. -/
theorem unlink (h : Refines p s) {epfd : Int} {n : EpollNode} (hn : s.findEpoll epfd = some n) :
    ∃ l', listRemoveEntry p.registry (some n.node) = some (1, l') ∧
      Refines ⟨l', p.epolls.free n.epoll, (s.unlinkEpoll epfd n).forget⟩
        (s.unlinkEpoll epfd n) := by
  obtain ⟨as, bs, hl, herase⟩ := eraseP_of_find? hn
  have hlist : (s.unlinkEpoll epfd n).epollList = as ++ bs := by
    simp only [Sys.unlinkEpoll, Sys.freeHash_epollList, herase]
  have hchain := h.chain
  rw [hl, List.map_append, List.map_cons] at hchain
  obtain ⟨l', hrem, hchain', hnext, hdata⟩ := listRemoveEntry_spec hchain
  have hsub : (as ++ bs).Sublist s.epollList := by
    rw [hl]
    exact (List.sublist_cons_self n bs).append_left as
  -- no other node has this record
  have hne : ∀ m ∈ as ++ bs, m.epoll ≠ n.epoll := by
    have hperm : (s.epollList.map EpollNode.epoll).Perm
        (n.epoll :: (as ++ bs).map EpollNode.epoll) := by
      rw [hl]
      exact (List.perm_middle (a := n)).map EpollNode.epoll
    have hnd := hperm.nodup h.distinct
    intro m hm heq
    exact (List.nodup_cons.mp hnd).1 (heq ▸ List.mem_map_of_mem hm)
  refine ⟨l', hrem, ?_, ?_, ?_, ?_, ?_, ?_, ?_, ?_, rfl⟩
  · rw [hlist, List.map_append]
    exact hchain'
  · intro m hm
    rw [hlist] at hm
    rw [hdata]
    exact h.data m (hsub.subset hm)
  · intro m hm
    rw [hlist] at hm
    exact (Function.update_of_ne (hne m hm) ..).trans (h.record m (hsub.subset hm))
  · rw [hlist]
    exact h.distinct.sublist (hsub.map EpollNode.epoll)
  · intro m hm
    rw [hlist] at hm
    rw [hnext]
    exact h.node_lt m (hsub.subset hm)
  · intro m hm
    rw [hlist] at hm
    exact h.epoll_lt m (hsub.subset hm)
  · simp only [Sys.unlinkEpoll, Sys.freeHash_nodes, hnext]
    exact h.nodes_next
  · simp only [Sys.unlinkEpoll, Sys.freeHash_epolls]
    exact h.epolls_next

theorem safeClose (h : Refines p s) (fd : Int) :
    Refines { p with rest := p.rest.safeClose fd } (s.safeClose fd) := by
  rw [h.rest, ← Sys.forget_safeClose]
  obtain ⟨-, he⟩ | ⟨-, he⟩ := Sys.safeClose_cases s fd
  · rw [he]
    exact h.of_rest rfl rfl rfl
  · rw [he]
    exact h.of_rest rfl rfl rfl

theorem close (h : Refines p s) (epfd : Int) :
    ∃ p', p.baseEpollClose epfd = some p' ∧ Refines p' (s.baseEpollClose epfd) := by
  by_cases hm : epfd = -1
  · refine ⟨p, if_pos hm, ?_⟩
    rw [Sys.baseEpollClose, if_pos hm]
    exact h
  · have hfind := h.listFindData epfd
    cases hn : s.findEpoll epfd with
    | none =>
      refine ⟨{ p with rest := p.rest.safeClose epfd }, ?_, ?_⟩
      · rw [hn, Option.map_none] at hfind
        simp only [PtrSys.baseEpollClose, if_neg hm, hfind, Option.bind_eq_bind, Option.bind_some]
      · rw [Sys.baseEpollClose, if_neg hm, hn]
        exact h.safeClose epfd
    | some n =>
      obtain ⟨hmem, -⟩ := Sys.findEpoll_spec hn
      obtain ⟨l', hrem, href⟩ := h.unlink hn
      obtain ⟨c, hc, hcd⟩ := Option.map_eq_some_iff.mp (h.data n hmem)
      have hrest : (s.unlinkEpoll epfd n).forget = p.rest.baseEpollFreeEventHash n.pEventHash := by
        rw [h.rest]
        exact Sys.forget_freeHash ..
      rw [hrest] at href
      refine ⟨⟨l', p.epolls.free n.epoll,
        (p.rest.baseEpollFreeEventHash n.pEventHash).safeClose epfd⟩, ?_, ?_⟩
      · rw [hn, Option.map_some] at hfind
        simp only [PtrSys.baseEpollClose, if_neg hm, hfind, hc, hcd, hrem, h.record n hmem,
          Option.bind_eq_bind, Option.bind_some]
      · have hclose : s.baseEpollClose epfd = (s.unlinkEpoll epfd n).safeClose epfd := by
          rw [Sys.baseEpollClose, if_neg hm, hn]
          rfl
        rw [hclose]
        exact href.safeClose epfd

theorem next (h : Refines p s) (c : RegistryCall) :
    ∃ p', p.next c = some p' ∧ Refines p' (s.next c) := by
  cases c with
  | create o =>
    obtain ⟨p', hp', href⟩ := h.create o
    refine ⟨p', ?_, href⟩
    rw [PtrSys.next, hp']
    rfl
  | close epfd => exact h.close epfd

end Refines

/-- An epoll of the list: the entry, the record it carries and the descriptor in it. -/
structure ListedEpoll where
  node : Nat
  epoll : Nat
  epollFd : Int
  deriving DecidableEq, Repr

/-- The list as a plain sequence. Entries and records are numbered as they are allocated. -/
structure EpollSequence where
  nodes : Nat
  epolls : Nat
  items : List ListedEpoll
  deriving DecidableEq, Repr

namespace EpollSequence

def empty : EpollSequence := ⟨0, 0, []⟩

/-- A create that gets all its memory appends; without the entry its record stays unlisted. A
close takes the first item with the descriptor out. -/
def next (q : EpollSequence) : RegistryCall → EpollSequence
  | .create o =>
    if 0 < o.eplfd ∧ o.hashOk = true ∧ o.tableOk = true ∧ o.epollOk = true then
      if o.nodeOk then
        ⟨q.nodes + 1, q.epolls + 1, q.items ++ [⟨q.nodes, q.epolls, o.eplfd⟩]⟩
      else { q with epolls := q.epolls + 1 }
    else q
  | .close epfd => { q with items := q.items.eraseP fun i => i.epollFd == epfd }

end EpollSequence

def EpollNode.listed (n : EpollNode) : ListedEpoll := ⟨n.node, n.epoll, n.epollFd⟩

/-- The list of nodes, without what hangs from them. -/
structure Lists (s : Sys κ) (q : EpollSequence) : Prop where
  items : q.items = s.epollList.map EpollNode.listed
  nodes : q.nodes = s.nodes.next
  epolls : q.epolls = s.epolls.next
  -- so a close of -1, which returns at once, has nothing to take out
  positive : ∀ n ∈ s.epollList, 0 < n.epollFd

namespace Lists

variable {s s' : Sys κ} {q : EpollSequence}

theorem empty : Lists (.empty : Sys κ) .empty :=
  ⟨rfl, rfl, rfl, fun n hn => by cases hn⟩

theorem congr (h : Lists s q) (hl : s'.epollList = s.epollList)
    (hn : s'.nodes.next = s.nodes.next) (he : s'.epolls.next = s.epolls.next) : Lists s' q :=
  ⟨hl ▸ h.items, hn ▸ h.nodes, he ▸ h.epolls, hl ▸ h.positive⟩

theorem create (h : Lists s q) (o : Sys.CreateOutcome) :
    Lists (s.baseEpollCreate o).2 (q.next (.create o)) := by
  have hends := Sys.create_ends s o
  generalize s.baseEpollCreate o = r at hends
  cases hends with
  | refused hle =>
    rw [EpollSequence.next, if_neg fun hall => Int.not_lt.mpr hle hall.1]
    exact h.congr rfl rfl rfl
  | noHash hgt hno =>
    rw [EpollSequence.next, if_neg fun hall => hno ⟨hall.2.1, hall.2.2.1⟩]
    exact h.congr rfl rfl rfl
  | noEpoll hgt hh ht he =>
    rw [EpollSequence.next, if_neg (by simp [he])]
    exact h.congr rfl rfl rfl
  | noNode hgt hh ht he hn =>
    rw [EpollSequence.next, if_pos ⟨hgt, hh, ht, he⟩, if_neg (by simp [hn])]
    exact ⟨h.items, h.nodes, congrArg Nat.succ h.epolls, h.positive⟩
  | created hgt hh ht he hn =>
    rw [EpollSequence.next, if_pos ⟨hgt, hh, ht, he⟩, if_pos hn]
    refine ⟨?_, congrArg Nat.succ h.nodes, congrArg Nat.succ h.epolls, ?_⟩
    · rw [List.map_append, ← h.items, h.nodes, h.epolls]
      rfl
    · intro n hmem
      rcases List.mem_append.mp hmem with hmem | hmem
      · exact h.positive n hmem
      · obtain rfl := List.mem_singleton.mp hmem
        exact hgt

theorem close (h : Lists s q) (epfd : Int) :
    Lists (s.baseEpollClose epfd) (q.next (.close epfd)) := by
  have hsafe : ∀ {s' : Sys κ} {q : EpollSequence}, Lists s' q → Lists (s'.safeClose epfd) q := by
    intro s' q h'
    obtain ⟨-, he⟩ | ⟨-, he⟩ := Sys.safeClose_cases s' epfd
    · rw [he]
      exact h'.congr rfl rfl rfl
    · rw [he]
      exact h'
  have herase : (q.next (.close epfd)).items =
      (s.epollList.eraseP fun n => n.epollFd == epfd).map EpollNode.listed := by
    rw [EpollSequence.next, h.items, List.eraseP_map]
    rfl
  have hnot : s.findEpoll epfd = none → Lists s (q.next (.close epfd)) := by
    intro hno
    refine ⟨herase.trans ?_, h.nodes, h.epolls, h.positive⟩
    rw [List.eraseP_of_forall_not fun n hn => List.find?_eq_none.mp hno n hn]
  rcases Sys.close_cases s epfd with ⟨rfl, he⟩ | ⟨hno, he⟩ | ⟨n, hn, he⟩
  · rw [he]
    refine hnot (List.find?_eq_none.mpr fun n hn => ?_)
    have hpos := h.positive n hn
    rw [beq_iff_eq]
    omega
  · rw [he]
    exact hsafe (hnot hno)
  · rw [he]
    refine hsafe ⟨?_, ?_, ?_, ?_⟩
    · rw [herase]
      simp only [Sys.unlinkEpoll, Sys.freeHash_epollList]
    · simp only [Sys.unlinkEpoll, Sys.freeHash_nodes]
      exact h.nodes
    · simp only [Sys.unlinkEpoll, Sys.freeHash_epolls]
      exact h.epolls
    · simp only [Sys.unlinkEpoll, Sys.freeHash_epollList]
      exact fun m hm => h.positive m (List.mem_of_mem_eraseP hm)

theorem next (h : Lists s q) (c : RegistryCall) : Lists (s.next c) (q.next c) := by
  cases c with
  | create o => exact h.create o
  | close epfd => exact h.close epfd

end Lists

/-- The pointers of the list are those of a doubly linked list that holds `items`. -/
structure HoldsSequence (p : PtrSys κ) (items : List ListedEpoll) : Prop where
  head : p.registry.list = (items.map ListedEpoll.node).head?
  head_prev : ∀ a c, p.registry.list = some a → p.registry.entries.cells a = some c →
    c.prev = none
  prev_of_next : ∀ a ∈ items.map ListedEpoll.node, ∀ c b, p.registry.entries.cells a = some c →
    c.next = some b → ∃ c', p.registry.entries.cells b = some c' ∧ c'.prev = some a
  next_of_prev : ∀ a ∈ items.map ListedEpoll.node, ∀ c b, p.registry.entries.cells a = some c →
    c.prev = some b → ∃ c', p.registry.entries.cells b = some c' ∧ c'.next = some a
  -- however long `next` is followed
  visits : ∀ fuel, items.length ≤ fuel →
    follow p.registry.entries.cells fuel p.registry.list = items.map ListedEpoll.node
  once : (items.map ListedEpoll.node).Nodup
  data : ∀ i ∈ items, dataAt p.registry.entries i.node = some i.epoll ∧
    (p.epolls.cells i.epoll).map BsaeEpoll.epollFd = some i.epollFd
  -- nothing else is reached, along `next` and `prev` in any order
  closed : ∀ a b, p.registry.list = some a →
    Relation.ReflTransGen (Chain.Touches p.registry.entries.cells) a b →
      b ∈ items.map ListedEpoll.node

theorem HoldsSequence.of_refines {p : PtrSys κ} {s : Sys κ} {q : EpollSequence}
    (href : Refines p s) (hlist : Lists s q) : HoldsSequence p q.items := by
  have hnodes : q.items.map ListedEpoll.node = s.epollList.map EpollNode.node := by
    rw [hlist.items, List.map_map]
    rfl
  have hchain := href.chain
  rw [← hnodes] at hchain
  refine ⟨hchain.head_eq, fun a c => hchain.head_prev, ?_, ?_, ?_, hchain.nodup, ?_,
    fun a b => hchain.mem_of_reaches⟩
  · intro a ha c b hc hb
    exact (hchain.prev_of_next ha hc hb).2
  · intro a ha c b hc hb
    exact (hchain.next_of_prev ha hc hb).2
  · intro fuel hfuel
    exact hchain.segment.follow_eq (by rwa [List.length_map])
  · intro i hi
    rw [hlist.items] at hi
    obtain ⟨n, hn, rfl⟩ := List.mem_map.mp hi
    refine ⟨href.data n hn, ?_⟩
    rw [EpollNode.listed, href.record n hn]
    rfl

/-- Over every run of the two functions no pointer goes astray and every loop ends, and the list
holds the sequence of the epolls appended and not yet taken out. -/
theorem list_holds_sequence (calls : List RegistryCall) :
    ∃ p : PtrSys κ, calls.foldlM PtrSys.next .empty = some p ∧
      HoldsSequence p (calls.foldl EpollSequence.next .empty).items := by
  have hstep : ∀ (p : PtrSys κ) (q : EpollSequence) (c : RegistryCall),
      (∃ s, Refines p s ∧ Lists s q) →
        ∃ p', p.next c = some p' ∧ ∃ s', Refines p' s' ∧ Lists s' (q.next c) := by
    rintro p q c ⟨s, href, hlist⟩
    obtain ⟨p', hp', href'⟩ := href.next c
    exact ⟨p', hp', s.next c, href', hlist.next c⟩
  obtain ⟨p, hrun, s, href, hlist⟩ :=
    exists_foldlM_of_simulates hstep ⟨.empty, Refines.empty, Lists.empty⟩ calls
  exact ⟨p, hrun, .of_refines href hlist⟩

end BaseCode.Epoll
