import BaseCode.Comm.HashTable
import BaseCode.Epoll.Kernel
import BaseCode.Foundation.Arena

/-!
# The epoll registry

`src/epoll.c`: the list `g_p_epoll_list` of created epolls, each with a hash table from
descriptors to control blocks, next to the kernel's own interest sets. Every kind of object
the module allocates has an arena, so that leaks and double frees can be seen. The outcomes of
`malloc`, `calloc` and the system calls are arguments.

The key that `base_epoll_ctl` stores is the address of its own parameter. The functions are
therefore generic in the key type: with addresses for keys they follow the source to the
letter, with the descriptors themselves they are the module as it is meant to be.
-/

namespace BaseCode.Epoll
open Foundation Comm

/-- The `data` field of a control block: a copy made by `base_timer_start`, or memory that the
caller of `base_epoll_ctl` hands over. -/
inductive DataPtr
  | copy (a : Nat)
  | foreign (a : Nat)
  deriving DecidableEq, Repr

/-- A control block; `callback` is a code address. -/
structure EpollEvent where
  eplfd : Int
  fd : Int
  callback : Nat
  data : Option DataPtr
  len : Int
  deriving DecidableEq, Repr

/-- What the argument `p_epoll_type` points to: an event of the caller's own, or a control block
of this module. `stale` is what the memory of that block reads once it has been freed. -/
inductive EventArg
  | own (ev : EpollEvent)
  | block (p : Nat) (stale : EpollEvent)
  deriving DecidableEq, Repr

/-- A node of `g_p_epoll_list` together with the `BsaeEpoll` it points to. `inst` is not in the
source: it is the kernel's instance that the node was made for. -/
structure EpollNode where
  node : Nat
  epoll : Nat
  epollFd : Int
  pEventHash : Nat
  inst : Nat
  deriving DecidableEq, Repr

structure Sys (κ : Type) where
  nodes : Arena Unit
  epolls : Arena Unit
  tables : Arena (HashTable κ Nat)
  blocks : Arena EpollEvent
  datas : Arena (List UInt8)
  epollList : List EpollNode
  kernel : Kernel

namespace Sys

variable {κ : Type}

def empty : Sys κ := ⟨.empty, .empty, .empty, .empty, .empty, [], .empty⟩

/-- The event table at an address. -/
def table (s : Sys κ) (h : Nat) : HashTable κ Nat := (s.tables.cells h).getD default

/-- The event that `memcpy` gets through `p_epoll_type`. -/
def readEvent (s : Sys κ) : EventArg → EpollEvent
  | .own ev => ev
  | .block p stale => (s.blocks.cells p).getD stale

/-- `list_find_data` with `base_epoll_list_equal`. -/
def findEpoll (s : Sys κ) (epfd : Int) : Option EpollNode :=
  s.epollList.find? fun n => n.epollFd == epfd

/-- `SAFE_CLOSE`. -/
def safeClose (s : Sys κ) (fd : Int) : Sys κ :=
  if 0 < fd then { s with kernel := s.kernel.close fd } else s

/-- `SAFE_FREE` of the memory behind a `data` field. -/
def freeData (s : Sys κ) (data : Option DataPtr) : Sys κ :=
  match data with
  | some (.copy a) => { s with datas := s.datas.free a }
  | _ => s

/-- `base_epoll_free_event_block`: the block and what is attached to it. -/
def baseEpollFreeEventBlock (s : Sys κ) (p : Nat) : Sys κ :=
  let s := s.freeData ((s.blocks.cells p).bind EpollEvent.data)
  { s with blocks := s.blocks.free p }

/-- The table's value-free function on what a table operation gives up. -/
def freeValue (s : Sys κ) (v : Option Nat) : Sys κ :=
  match v with
  | some p => s.baseEpollFreeEventBlock p
  | none => s

/-- `base_epoll_free_event_hash`. -/
def baseEpollFreeEventHash (s : Sys κ) (h : Nat) : Sys κ :=
  let s := (s.table h).values.foldl baseEpollFreeEventBlock s
  { s with tables := s.tables.free h }

/-- How the calls made by `base_epoll_create` end; `eplfd` is what `epoll_create` returns. -/
structure CreateOutcome where
  eplfd : Int
  hashOk : Bool
  tableOk : Bool
  epollOk : Bool
  nodeOk : Bool
  deriving DecidableEq, Repr

/-- Every call succeeds and the kernel returns `eplfd`. -/
def CreateOutcome.fine (eplfd : Int) : CreateOutcome := ⟨eplfd, true, true, true, true⟩

/-- `list_append` on the registry, its result ignored by the caller. -/
def listAppend (s : Sys κ) (epoll : Nat) (epollFd : Int) (h inst : Nat) (nodeOk : Bool) :
    Sys κ :=
  if nodeOk then
    { s with
      nodes := s.nodes.alloc ()
      epollList := s.epollList ++ [⟨s.nodes.next, epoll, epollFd, h, inst⟩] }
  else s

def baseEpollCreate (s : Sys κ) (o : CreateOutcome) : Int × Sys κ :=
  let inst := s.kernel.instances
  let s := { s with kernel := s.kernel.epollCreate o.eplfd }
  if o.eplfd ≤ 0 then (-1, s)
  else
    match hashTableNew o.hashOk o.tableOk with
    | none => (-1, s.safeClose o.eplfd)
    | some t =>
      let h := s.tables.next
      let s := { s with tables := s.tables.alloc t }
      if o.epollOk then
        let e := s.epolls.next
        let s := { s with epolls := s.epolls.alloc () }
        (o.eplfd, s.listAppend e o.eplfd h inst o.nodeOk)
      else (-1, s.safeClose o.eplfd) -- p_hash is not freed here

def baseEpollClose (s : Sys κ) (epfd : Int) : Sys κ :=
  if epfd = -1 then s
  else
    match s.findEpoll epfd with
    | none => s.safeClose epfd
    | some n =>
      -- list_remove_entry unlinks the node and does not free it
      let s := { s with epollList := s.epollList.eraseP fun n => n.epollFd == epfd }
      let s := s.baseEpollFreeEventHash n.pEventHash
      let s := { s with epolls := s.epolls.free n.epoll }
      s.safeClose epfd

/-- How the calls made by `base_epoll_ctl` end: the block's `malloc`, `epoll_ctl` as far as its
state leaves it open, and the two allocations of `hash_table_insert`. -/
structure CtlOutcome where
  mallocOk : Bool
  kernelOk : Bool
  callocOk : Bool
  entryOk : Bool
  deriving DecidableEq, Repr

def CtlOutcome.fine : CtlOutcome := ⟨true, true, true, true⟩

/-- `hash_table_insert` on an event table. -/
def insertEvent (f : KeyFuncs κ) (s : Sys κ) (h : Nat) (key : κ) (p : Nat) (o : CtlOutcome) :
    Sys κ :=
  let r := hashTableInsert f (s.table h) key p o.callocOk o.entryOk
  { s with tables := s.tables.set h r.table }.freeValue r.freed

/-- `hash_table_remove` on an event table. -/
def removeEvent (f : KeyFuncs κ) (s : Sys κ) (h : Nat) (key : κ) : Sys κ :=
  let r := hashTableRemove f (s.table h) key
  { s with tables := s.tables.set h r.2 }.freeValue r.1

/-- The part that ADD and MOD share: a new block with the event `ev` goes to the kernel and then
to the table. A failed insertion is not reported, and the block is freed only when `epoll_ctl`
fails. -/
def attachBlock (f : KeyFuncs κ) (key : κ) (o : CtlOutcome) (s : Sys κ) (n : EpollNode)
    (epfd : Int) (op : CtlOp) (eventFd : Int) (ev : EpollEvent) : Int × Sys κ :=
  if o.mallocOk then
    let p := s.blocks.next
    let s := { s with blocks := s.blocks.alloc ev }
    match s.kernel.epollCtl epfd op eventFd p o.kernelOk with
    | none => (-1, { s with blocks := s.blocks.free p })
    | some k => (0, { s with kernel := k }.insertEvent f n.pEventHash key p o)
  else (-1, s)

/-- The DEL branch; the entry goes whatever `epoll_ctl` says. -/
def detachBlock (f : KeyFuncs κ) (key : κ) (o : CtlOutcome) (s : Sys κ) (n : EpollNode)
    (epfd eventFd : Int) : Int × Sys κ :=
  match s.kernel.epollCtl epfd .del eventFd 0 o.kernelOk with
  | none => (-1, s.removeEvent f n.pEventHash key)
  | some k => (0, { s with kernel := k }.removeEvent f n.pEventHash key)

/-- The MOD branch; the event is read when the old block has been freed. -/
def exchangeBlock (f₁ f₂ : KeyFuncs κ) (key : κ) (o : CtlOutcome) (s : Sys κ) (n : EpollNode)
    (epfd eventFd : Int) (arg : EventArg) : Int × Sys κ :=
  let s := s.removeEvent f₁ n.pEventHash key
  s.attachBlock f₂ key o n epfd .mod eventFd (s.readEvent arg)

/-- `base_epoll_ctl`. `key` is what the table is given for `event_fd`; `f₁` and `f₂` are the
key functions at the time of the removal and of the insertion. -/
def baseEpollCtl (f₁ f₂ : KeyFuncs κ) (key : κ) (o : CtlOutcome) (s : Sys κ) (epfd : Int)
    (op : CtlOp) (eventFd : Int) (arg : EventArg) : Int × Sys κ :=
  match s.findEpoll epfd with
  | none => (0, s)
  | some n =>
    match op with
    | .add => s.attachBlock f₂ key o n epfd .add eventFd (s.readEvent arg)
    | .del => s.detachBlock f₁ key o n epfd eventFd
    | .mod => s.exchangeBlock f₁ f₂ key o n epfd eventFd arg
    | .other _ => (0, s)

/-- `base_epoll_ctl` on tables keyed by the descriptors themselves. -/
def epollCtl (o : CtlOutcome) (s : Sys Int) (epfd : Int) (op : CtlOp) (eventFd : Int)
    (arg : EventArg) : Int × Sys Int :=
  s.baseEpollCtl intKeys intKeys eventFd o epfd op eventFd arg

end Sys

end BaseCode.Epoll
