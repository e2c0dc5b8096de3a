import BaseCode.Foundation.Runs
import Mathlib.Data.List.Basic
import Mathlib.Logic.Function.Basic

/-!
# The select server

`src/select/server.c`: one thread answers all clients from a loop around `select`. Each
of its system calls is one step, so that clients connect, send and disconnect between any
two of them. The kernel side is POSIX: `select` leaves in the set exactly the descriptors
that are readable when it returns, `FIONREAD` counts the unread bytes, and `accept` hands
out any number below `FD_SETSIZE` that is not open.
-/

namespace BaseCode.SelectServer
open Foundation

def fdSetSize : Nat := 1024

/-- Where a connection is: not made yet, made and waiting for `accept`, open under a
descriptor of the server, or closed by the server. -/
inductive Place where
  | absent
  | backlog
  | opened (fd : Nat)
  | closed
deriving DecidableEq, Repr

/-- A connection: what the client sent and whether it has closed, and what the server read
and wrote. The last three fields are a record of the server's calls on it: how often it was
closed, in which scan it was accepted, and in which scans it was read or closed. -/
structure Conn where
  place : Place := .absent
  sent : List UInt8 := []
  peerClosed : Bool := false
  received : List UInt8 := []
  written : List UInt8 := []
  closes : Nat := 0
  acceptedIn : Option Nat := none
  servedIn : List Nat := []

def Conn.unread (c : Conn) : List UInt8 := c.sent.drop c.received.length

/-- Where the server stands in its loop: before `select`, at the test of a descriptor, and
between the calls made for a descriptor. `exit` is the error exit after `select`, and
stands for any call on a descriptor that is not open. -/
inductive Pc where
  | select
  | scan (fd : Nat)
  | accepted (fd client : Nat)
  | counted (fd nread : Nat)
  | removed (fd : Nat)
  | answer (fd : Nat) (ch : UInt8)
  | exit
deriving DecidableEq, Repr

structure State where
  conns : Nat → Conn
  clients : Nat
  backlog : List Nat
  files : Nat → Option Nat
  readfds : Nat → Bool
  testfds : Nat → Bool
  pc : Pc
  scanNo : Nat

def State.setConn (s : State) (c : Nat) (k : Conn) : State :=
  { s with conns := Function.update s.conns c k }

def State.isOpen (srv : Nat) (s : State) (fd : Nat) : Bool := fd == srv || (s.files fd).isSome

def State.readable (srv : Nat) (s : State) (fd : Nat) : Bool :=
  if fd = srv then !s.backlog.isEmpty
  else match s.files fd with
    | none => false
    | some c => !(s.conns c).unread.isEmpty || (s.conns c).peerClosed

/-- The connection `c`, as `accept` in the current scan leaves it. -/
def State.accept (s : State) (fd client c : Nat) (rest : List Nat) : State :=
  { s.setConn c { s.conns c with place := .opened client, acceptedIn := some s.scanNo } with
    backlog := rest
    files := Function.update s.files client (some c)
    pc := .accepted fd client }

def State.close (s : State) (fd c : Nat) : State :=
  { s.setConn c { s.conns c with
      place := .closed
      closes := (s.conns c).closes + 1
      servedIn := s.scanNo :: (s.conns c).servedIn } with
    files := Function.update s.files fd none
    pc := .removed fd }

def State.readByte (s : State) (fd c : Nat) (ch : UInt8) : State :=
  { s.setConn c { s.conns c with
      received := (s.conns c).received ++ [ch]
      servedIn := s.scanNo :: (s.conns c).servedIn } with
    pc := .answer fd ch }

/-- `ch++` and the write; a `char` counts modulo 256. -/
def State.writeByte (s : State) (fd c : Nat) (ch : UInt8) : State :=
  { s.setConn c { s.conns c with written := (s.conns c).written ++ [ch + 1] } with
    pc := .scan (fd + 1) }

/-- The next call of the server; `client` is the number `accept` returns if that is the
call. `none` while the call blocks. -/
def serverStep (srv client : Nat) (s : State) : Option State :=
  match s.pc with
  | .select =>
    if (List.range fdSetSize).any (fun fd => s.readfds fd && !s.isOpen srv fd) then
      some { s with pc := .exit }
    else if (List.range fdSetSize).any (fun fd => s.readfds fd && s.readable srv fd) then
      some { s with
        testfds := fun fd => s.readfds fd && s.readable srv fd
        pc := .scan 0
        scanNo := s.scanNo + 1 }
    else none
  | .scan fd =>
    if fd < fdSetSize then
      if s.testfds fd then
        if fd = srv then
          match s.backlog with
          | [] => none
          | c :: rest =>
            if client < fdSetSize ∧ s.isOpen srv client = false then
              some (s.accept fd client c rest)
            else none
        else match s.files fd with
          | none => some { s with pc := .exit }
          | some c => some { s with pc := .counted fd (s.conns c).unread.length }
      else some { s with pc := .scan (fd + 1) }
    else some { s with pc := .select }
  | .accepted fd client =>
    some { s with readfds := Function.update s.readfds client true, pc := .scan (fd + 1) }
  | .counted fd nread =>
    match s.files fd with
    | none => some { s with pc := .exit }
    | some c =>
      if nread = 0 then some (s.close fd c)
      else match (s.conns c).unread with
        | [] => some { s with pc := .exit }
        | ch :: _ => some (s.readByte fd c ch)
  | .removed fd =>
    some { s with readfds := Function.update s.readfds fd false, pc := .scan (fd + 1) }
  | .answer fd ch =>
    match s.files fd with
    | none => some { s with pc := .exit }
    | some c => some (s.writeByte fd c ch)
  | .exit => none

inductive Event where
  | connect
  | send (c : Nat) (b : UInt8)
  | disconnect (c : Nat)
  | server (client : Nat)
deriving DecidableEq, Repr

/-- A client sends and disconnects while its side of the connection is open. -/
def State.clientOpen (s : State) (c : Nat) : Bool :=
  decide (c < s.clients) && !(s.conns c).peerClosed

def step (srv : Nat) (s : State) : Event → Option State
  | .connect => some { s.setConn s.clients { place := .backlog } with
      clients := s.clients + 1
      backlog := s.backlog ++ [s.clients] }
  | .send c b =>
    if s.clientOpen c then some (s.setConn c { s.conns c with sent := (s.conns c).sent ++ [b] })
    else none
  | .disconnect c =>
    if s.clientOpen c then some (s.setConn c { s.conns c with peerClosed := true }) else none
  | .server client => serverStep srv client s

/-- The listening socket is alone in the set when the loop is entered. -/
def initial (srv : Nat) : State where
  conns _ := {}
  clients := 0
  backlog := []
  files _ := none
  readfds fd := fd == srv
  testfds _ := false
  pc := .select
  scanNo := 0

/-- All interleavings of the clients with the server whose listening socket is `srv`. -/
def system (srv : Nat) : System State Event where
  Init s := s = initial srv
  Step s e s' := step srv s e = some s'

end BaseCode.SelectServer
