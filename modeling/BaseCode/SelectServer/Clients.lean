import Mathlib.Data.Finset.Card
import BaseCode.SelectServer.Safety

/-!
# The select server with its clients

`src/select/client.c` on the other side of the connections: any number of clients, each of
which writes a byte, reads the reply, writes that back, reads again and closes. What a client
reads is what the server has written on its connection, in order; at the end of what was
written a read blocks, or finds the end of the stream if the server has closed.
-/

namespace BaseCode.SelectServer
open Foundation

/-- Where `select_client` stands, after its `connect`. -/
inductive ClientPc where
  | firstWrite
  | firstRead
  | secondWrite
  | secondRead
  | close
  | done
deriving DecidableEq, Repr

/-- `ch` starts as `'A'`; `got` is a record of the bytes read, and `eof` of a read that found
the end of the stream. -/
structure Client where
  pc : ClientPc := .firstWrite
  ch : UInt8 := 65
  got : List UInt8 := []
  eof : Bool := false
deriving DecidableEq, Repr

/-- The server and its connections, and the program at the other end of each. -/
structure Net where
  server : State
  clients : Nat → Client

def Net.setClient (n : Net) (c : Nat) (p : Client) : Net :=
  { n with clients := Function.update n.clients c p }

/-- `read(client_sockfd, &ch, 1)`; a read at the end of the stream leaves `ch` as it is. -/
def clientRead (k : Conn) (p : Client) : Option Client :=
  match k.written.drop p.got.length with
  | b :: _ => some { p with ch := b, got := p.got ++ [b] }
  | [] => if k.place = .closed then some { p with eof := true } else none

/-- The next call of client `c`. -/
def selectClient (srv : Nat) (n : Net) (c : Nat) : Option Net :=
  let p := n.clients c
  match p.pc with
  | .firstWrite => do
    let s ← step srv n.server (.send c p.ch)
    some { n.setClient c { p with pc := .firstRead } with server := s }
  | .firstRead => do
    let p ← clientRead (n.server.conns c) p
    some (n.setClient c { p with pc := .secondWrite })
  | .secondWrite => do
    let s ← step srv n.server (.send c p.ch)
    some { n.setClient c { p with pc := .secondRead } with server := s }
  | .secondRead => do
    let p ← clientRead (n.server.conns c) p
    some (n.setClient c { p with pc := .close })
  | .close => do
    let s ← step srv n.server (.disconnect c)
    some { n.setClient c { p with pc := .done } with server := s }
  | .done => none

inductive NetEvent where
  | connect
  | client (c : Nat)
  | server (fd : Nat)
deriving DecidableEq, Repr

def netStep (srv : Nat) (n : Net) : NetEvent → Option Net
  | .connect => do
    let s ← step srv n.server .connect
    some { n with server := s }
  | .client c => if c < n.server.clients then selectClient srv n c else none
  | .server fd => do
    let s ← serverStep srv fd n.server
    some { n with server := s }

/-- All interleavings of the server with clients that run `select_client`. -/
def netSystem (srv : Nat) : System Net NetEvent where
  Init n := n = ⟨initial srv, fun _ => {}⟩
  Step n e n' := netStep srv n e = some n'

/-- Client and connection at each place of the client. -/
def InStep (k : Conn) (p : Client) : Prop :=
  p.eof = false ∧
  match p.pc with
  | .firstWrite => k.sent = [] ∧ k.peerClosed = false ∧ p.ch = 65 ∧ p.got = []
  | .firstRead => k.sent = [65] ∧ k.peerClosed = false ∧ p.ch = 65 ∧ p.got = []
  | .secondWrite => k.sent = [65] ∧ k.peerClosed = false ∧ p.ch = 66 ∧ p.got = [66]
  | .secondRead => k.sent = [65, 66] ∧ k.peerClosed = false ∧ p.ch = 66 ∧ p.got = [66]
  | .close => k.sent = [65, 66] ∧ k.peerClosed = false ∧ p.ch = 67 ∧ p.got = [66, 67]
  | .done => k.sent = [65, 66] ∧ k.peerClosed = true ∧ p.ch = 67 ∧ p.got = [66, 67]

structure NetInv (srv : Nat) (n : Net) : Prop where
  server : Inv srv n.server
  clients : ∀ c, InStep (n.server.conns c) (n.clients c)
  got : ∀ c, (n.clients c).got <+: (n.server.conns c).written

variable {srv : Nat} {n n' : Net} {s s' : State} {c : Nat}

/-- The server neither sends for a client nor closes its side, and takes back nothing it has
written. -/
theorem conns_of_serverStep {fd : Nat} (hs : serverStep srv fd s = some s') (c : Nat) :
    (s'.conns c).sent = (s.conns c).sent ∧ (s'.conns c).peerClosed = (s.conns c).peerClosed ∧
      (s.conns c).written <+: (s'.conns c).written := by
  have hset : ∀ (d : Nat) (k : Conn), k.sent = (s.conns d).sent →
      k.peerClosed = (s.conns d).peerClosed → (s.conns d).written <+: k.written →
      ((s.setConn d k).conns c).sent = (s.conns c).sent ∧
        ((s.setConn d k).conns c).peerClosed = (s.conns c).peerClosed ∧
        (s.conns c).written <+: ((s.setConn d k).conns c).written := by
    intro d k h1 h2 h3
    by_cases hc : c = d
    · subst hc
      rw [setConn_conns_self]
      exact ⟨h1, h2, h3⟩
    · rw [setConn_conns_ne hc]
      exact ⟨rfl, rfl, List.prefix_rfl⟩
  cases move_of_serverStep hs with
  | accept d rest => exact hset d _ rfl rfl List.prefix_rfl
  | close fd d => exact hset d _ rfl rfl List.prefix_rfl
  | read fd d n ch bs => exact hset d _ rfl rfl List.prefix_rfl
  | write fd d ch => exact hset d _ rfl rfl (List.prefix_append _ _)
  | selectFails | select | scanEnd | skip | count | countFails | setFd | countedFails | clearFd
  | writeFails => exact ⟨rfl, rfl, List.prefix_rfl⟩

theorem InStep.congr {k k' : Conn} {p : Client} (h : InStep k p) (hsent : k'.sent = k.sent)
    (hpeer : k'.peerClosed = k.peerClosed) : InStep k' p := by
  unfold InStep at *
  rwa [hsent, hpeer]

/-- What is written on a connection is a part of the replies to all that was sent. -/
theorem Inv.written_prefix (h : Inv srv s) (c : Nat) :
    (s.conns c).written <+: (s.conns c).sent.map (· + 1) := by
  have hread := (h.conn c).read
  have hans := (h.conn c).answered
  refine List.IsPrefix.trans ⟨reply s c, hans⟩ ?_
  exact hread.map _

/-- A read on a connection that the client has not closed returns the next byte the server
has written on it, which is the next reply. -/
theorem clientRead_eq {k : Conn} {p p' : Client} (hpre : k.written <+: k.sent.map (· + 1))
    (hgot : p.got <+: k.written) (hclosed : k.place = .closed → k.peerClosed = true)
    (hpeer : k.peerClosed = false) (h : clientRead k p = some p') :
    ∃ b, (k.sent.map (· + 1))[p.got.length]? = some b ∧ p.got ++ [b] <+: k.written ∧
      p' = { p with ch := b, got := p.got ++ [b] } := by
  obtain ⟨t, ht⟩ := hgot
  have hdrop : k.written.drop p.got.length = t := by rw [← ht, List.drop_left]
  unfold clientRead at h
  cases t with
  | nil =>
    have hne : k.place ≠ .closed := fun hpl => by simp [hclosed hpl] at hpeer
    simp [hdrop, hne] at h
  | cons b rest =>
    simp only [hdrop, Option.some.injEq] at h
    refine ⟨b, ?_, ⟨rest, by simp [← ht]⟩, h.symm⟩
    obtain ⟨u, hu⟩ := hpre
    rw [← hu, ← ht]
    simp

theorem sent_of_send {b : UInt8} (hs : step srv s (.send c b) = some s') :
    s.clientOpen c = true ∧
      s' = s.setConn c { s.conns c with sent := (s.conns c).sent ++ [b] } := by
  simp only [step] at hs
  split at hs
  · next ho =>
    cases hs
    exact ⟨ho, rfl⟩
  · cases hs

theorem closed_of_disconnect (hs : step srv s (.disconnect c) = some s') :
    s' = s.setConn c { s.conns c with peerClosed := true } := by
  simp only [step] at hs
  split at hs
  · cases hs
    rfl
  · cases hs

/-- The client moves along its program; the others and their connections stay. -/
theorem NetInv.of_client {k : Conn} {p : Client} (h : NetInv srv n)
    (hserver : Inv srv (n.server.setConn c k)) (hp : InStep k p)
    (hgot : p.got = (n.clients c).got) (hk : k.written = (n.server.conns c).written) :
    NetInv srv { n.setClient c p with server := n.server.setConn c k } := by
  refine ⟨hserver, fun d => ?_, fun d => ?_⟩
  · show InStep ((n.server.setConn c k).conns d) (Function.update n.clients c p d)
    by_cases hd : d = c
    · subst hd
      rwa [setConn_conns_self, Function.update_self]
    · rw [setConn_conns_ne hd, Function.update_of_ne hd]
      exact h.clients d
  · show (Function.update n.clients c p d).got <+: ((n.server.setConn c k).conns d).written
    by_cases hd : d = c
    · subst hd
      rw [setConn_conns_self, Function.update_self, hgot, hk]
      exact h.got d
    · rw [setConn_conns_ne hd, Function.update_of_ne hd]
      exact h.got d

theorem NetInv.of_read {p : Client} (h : NetInv srv n) (hp : InStep (n.server.conns c) p)
    (hgot : p.got <+: (n.server.conns c).written) : NetInv srv (n.setClient c p) := by
  refine ⟨h.server, fun d => ?_, fun d => ?_⟩
  · show InStep (n.server.conns d) (Function.update n.clients c p d)
    by_cases hd : d = c
    · subst hd
      rwa [Function.update_self]
    · rw [Function.update_of_ne hd]
      exact h.clients d
  · show (Function.update n.clients c p d).got <+: (n.server.conns d).written
    by_cases hd : d = c
    · subst hd
      rwa [Function.update_self]
    · rw [Function.update_of_ne hd]
      exact h.got d

theorem selectClient_inv (h : NetInv srv n) (hs : selectClient srv n c = some n') :
    NetInv srv n' := by
  obtain ⟨heof, hc⟩ := h.clients c
  have hread : ∀ p', (n.server.conns c).peerClosed = false →
      clientRead (n.server.conns c) (n.clients c) = some p' →
      ∃ b, ((n.server.conns c).sent.map (· + 1))[(n.clients c).got.length]? = some b ∧
        (n.clients c).got ++ [b] <+: (n.server.conns c).written ∧
        p' = { n.clients c with ch := b, got := (n.clients c).got ++ [b] } := fun p' hp hr =>
    clientRead_eq (h.server.written_prefix c) (h.got c)
      (fun hpl => ((h.server.conn c).final hpl).1) hp hr
  simp only [selectClient] at hs
  cases hpc : (n.clients c).pc with
  | firstWrite =>
    simp only [hpc, Option.bind_eq_bind, Option.bind_eq_some_iff] at hs hc
    obtain ⟨s', hs', heq⟩ := hs
    have hinv := inv_step h.server hs'
    obtain ⟨-, rfl⟩ := sent_of_send hs'
    cases heq
    obtain ⟨hsent, hpeer, hch, hn⟩ := hc
    refine h.of_client hinv ⟨heof, ?_⟩ rfl rfl
    simp only
    rw [hsent, hch]
    exact ⟨rfl, hpeer, rfl, hn⟩
  | firstRead =>
    simp only [hpc, Option.bind_eq_bind, Option.bind_eq_some_iff] at hs hc
    obtain ⟨p', hp', heq⟩ := hs
    cases heq
    obtain ⟨hsent, hpeer, hch, hn⟩ := hc
    obtain ⟨b, hb, hgot, rfl⟩ := hread p' hpeer hp'
    rw [hsent, hn] at hb
    have hb66 : b = 66 := by simpa using hb.symm
    refine h.of_read ⟨heof, hsent, hpeer, hb66, ?_⟩ hgot
    show (n.clients c).got ++ [b] = [66]
    rw [hn, hb66]
    rfl
  | secondWrite =>
    simp only [hpc, Option.bind_eq_bind, Option.bind_eq_some_iff] at hs hc
    obtain ⟨s', hs', heq⟩ := hs
    have hinv := inv_step h.server hs'
    obtain ⟨-, rfl⟩ := sent_of_send hs'
    cases heq
    obtain ⟨hsent, hpeer, hch, hn⟩ := hc
    refine h.of_client hinv ⟨heof, ?_⟩ rfl rfl
    simp only
    rw [hsent, hch]
    exact ⟨rfl, hpeer, rfl, hn⟩
  | secondRead =>
    simp only [hpc, Option.bind_eq_bind, Option.bind_eq_some_iff] at hs hc
    obtain ⟨p', hp', heq⟩ := hs
    cases heq
    obtain ⟨hsent, hpeer, hch, hn⟩ := hc
    obtain ⟨b, hb, hgot, rfl⟩ := hread p' hpeer hp'
    rw [hsent, hn] at hb
    have hb67 : b = 67 := by simpa using hb.symm
    refine h.of_read ⟨heof, hsent, hpeer, hb67, ?_⟩ hgot
    show (n.clients c).got ++ [b] = [66, 67]
    rw [hn, hb67]
    rfl
  | close =>
    simp only [hpc, Option.bind_eq_bind, Option.bind_eq_some_iff] at hs hc
    obtain ⟨s', hs', heq⟩ := hs
    have hinv := inv_step h.server hs'
    obtain rfl := closed_of_disconnect hs'
    cases heq
    obtain ⟨hsent, hpeer, hch, hn⟩ := hc
    exact h.of_client hinv ⟨heof, hsent, rfl, hch, hn⟩ rfl rfl
  | done =>
    simp only [hpc] at hs
    cases hs

theorem netStep_inv (h : NetInv srv n) {e : NetEvent} (hs : netStep srv n e = some n') :
    NetInv srv n' := by
  cases e with
  | connect =>
    simp only [netStep, Option.bind_eq_bind, Option.bind_eq_some_iff] at hs
    obtain ⟨s', hs', heq⟩ := hs
    have hinv := inv_step h.server hs'
    cases heq
    cases hs'
    have hfresh := h.server.fresh n.server.clients (Nat.le_refl _)
    refine ⟨hinv, fun d => ?_, fun d => ?_⟩
    · show InStep (Function.update n.server.conns n.server.clients { place := .backlog } d) _
      by_cases hd : d = n.server.clients
      · subst hd
        rw [Function.update_self]
        have hc := h.clients n.server.clients
        rw [hfresh] at hc
        exact hc.congr rfl rfl
      · rw [Function.update_of_ne hd]
        exact h.clients d
    · show _ <+:
        (Function.update n.server.conns n.server.clients { place := .backlog } d).written
      by_cases hd : d = n.server.clients
      · subst hd
        rw [Function.update_self]
        have hc := h.got n.server.clients
        rwa [hfresh] at hc
      · rw [Function.update_of_ne hd]
        exact h.got d
  | client c =>
    simp only [netStep] at hs
    split at hs
    · exact selectClient_inv h hs
    · cases hs
  | server fd =>
    simp only [netStep, Option.bind_eq_bind, Option.bind_eq_some_iff] at hs
    obtain ⟨s', hs', heq⟩ := hs
    have hinv : Inv srv s' := inv_step h.server (e := .server fd) hs'
    cases heq
    refine ⟨hinv, fun d => ?_, fun d => ?_⟩
    · obtain ⟨hsent, hpeer, -⟩ := conns_of_serverStep hs' d
      exact (h.clients d).congr hsent hpeer
    · obtain ⟨-, -, hwritten⟩ := conns_of_serverStep hs' d
      exact (h.got d).trans hwritten

theorem netInv_reachable (h : (netSystem srv).Reachable n) : NetInv srv n := by
  apply h.invariant
  · rintro _ rfl
    exact ⟨inv_initial srv, fun c => ⟨rfl, rfl, rfl, rfl, rfl⟩, fun c => List.prefix_rfl⟩
  · intro n e n' hi hs
    exact netStep_inv hi hs

/-- A stream that holds all but one of the bytes promised, with the one under way. -/
theorem eq_of_reply_under_way {got written promised : List UInt8} {b : UInt8}
    (hgot : got <+: written) (hpre : written ++ [b] <+: promised)
    (hlen : promised.length ≤ got.length + 1) : written = got ∧ promised = got ++ [b] := by
  have h1 := hgot.length_le
  have h2 := hpre.length_le
  rw [List.length_append, List.length_singleton] at h2
  have heq : got = written := hgot.eq_of_length_le (by omega)
  subst heq
  refine ⟨rfl, (hpre.eq_of_length_le ?_).symm⟩
  rwa [List.length_append, List.length_singleton]

/-- A client that the server is answering waits in a read, for the byte it sent last, and has
read all that was written before. -/
theorem NetInv.waiting (h : NetInv srv n) {fd : Nat} {ch : UInt8}
    (hp : n.server.pc = .answer fd ch) (hf : n.server.files fd = some c) :
    ((n.clients c).pc = .firstRead ∨ (n.clients c).pc = .secondRead) ∧ (n.clients c).ch = ch ∧
      (n.server.conns c).written = (n.clients c).got := by
  obtain ⟨-, hc⟩ := h.clients c
  have hans := (h.server.conn c).answered
  have hreply : reply n.server c = [ch + 1] := by simp [reply, hp, hf]
  rw [hreply] at hans
  have hpre : (n.server.conns c).written ++ [ch + 1] <+: (n.server.conns c).sent.map (· + 1) := by
    rw [hans]
    exact (h.server.conn c).read.map _
  have heq := fun hlen => eq_of_reply_under_way (h.got c) hpre hlen
  have hlen := hpre.length_le
  have hgot := (h.got c).length_le
  rw [List.length_append, List.length_singleton] at hlen
  cases hpc : (n.clients c).pc with
  | firstWrite =>
    rw [hpc] at hc
    simp [hc.1] at hlen
  | firstRead =>
    rw [hpc] at hc
    obtain ⟨hsent, -, hch, hn⟩ := hc
    obtain ⟨hw, hall⟩ := heq (by simp [hsent])
    rw [hsent, hn] at hall
    refine ⟨.inl rfl, ?_, hw⟩
    rw [hch]
    exact UInt8.add_left_inj 1 |>.mp (List.cons.inj hall).1
  | secondWrite =>
    rw [hpc] at hc
    simp only [hc.1, hc.2.2.2, List.map_cons, List.map_nil, List.length_singleton] at hlen hgot
    omega
  | secondRead =>
    rw [hpc] at hc
    obtain ⟨hsent, -, hch, hn⟩ := hc
    obtain ⟨hw, hall⟩ := heq (by simp [hsent, hn])
    rw [hsent, hn] at hall
    refine ⟨.inr rfl, ?_, hw⟩
    rw [hch]
    exact UInt8.add_left_inj 1 |>.mp (List.cons.inj (List.cons.inj hall).2).1
  | close =>
    rw [hpc] at hc
    simp only [hc.1, hc.2.2.2, List.map_cons, List.map_nil, List.length_cons,
      List.length_nil] at hlen hgot
    omega
  | done =>
    rw [hpc] at hc
    simp only [hc.1, hc.2.2.2, List.map_cons, List.map_nil, List.length_cons,
      List.length_nil] at hlen hgot
    omega

/-- A client at a read takes what is there. -/
theorem selectClient_read {p : Client}
    (hpc : (n.clients c).pc = .firstRead ∨ (n.clients c).pc = .secondRead)
    (hr : clientRead (n.server.conns c) (n.clients c) = some p) :
    ∃ n', selectClient srv n c = some n' ∧ (n'.clients c).ch = p.ch ∧
      (n'.clients c).got = p.got := by
  rcases hpc with hpc | hpc
  · refine ⟨n.setClient c { p with pc := .secondWrite }, ?_, ?_, ?_⟩
    · simp only [selectClient, hpc, hr, Option.bind_eq_bind, Option.bind_some]
    · simp only [Net.setClient, Function.update_self]
    · simp only [Net.setClient, Function.update_self]
  · refine ⟨n.setClient c { p with pc := .close }, ?_, ?_, ?_⟩
    · simp only [selectClient, hpc, hr, Option.bind_eq_bind, Option.bind_some]
    · simp only [Net.setClient, Function.update_self]
    · simp only [Net.setClient, Function.update_self]

/-- The server's write completes the read the client waits in: the client gets the byte it
sent last, plus one. -/
theorem NetInv.answer_read (h : NetInv srv n) {fd : Nat} {ch : UInt8}
    (hp : n.server.pc = .answer fd ch) (hf : n.server.files fd = some c) (client : Nat) :
    ∃ n' n'', netStep srv n (.server client) = some n' ∧ netStep srv n' (.client c) = some n'' ∧
      (n''.clients c).ch = (n.clients c).ch + 1 ∧
      (n''.clients c).got = (n.clients c).got ++ [(n.clients c).ch + 1] := by
  obtain ⟨hpc, rfl, hw⟩ := h.waiting hp hf
  have hplace := (h.server.files_iff fd c).mp hf
  have hlt : c < n.server.clients := h.server.lt_clients (by simp [hplace])
  let n' : Net := { n with server := n.server.writeByte fd c (n.clients c).ch }
  have hserver : netStep srv n (.server client) = some n' := by
    simp only [netStep, serverStep, hp, hf, Option.bind_eq_bind, Option.bind_some, n']
  have hwritten : (n'.server.conns c).written = (n.clients c).got ++ [(n.clients c).ch + 1] := by
    simp only [n', State.writeByte, setConn_conns_self, hw]
  have hread : clientRead (n'.server.conns c) (n.clients c) = some { n.clients c with
      ch := (n.clients c).ch + 1, got := (n.clients c).got ++ [(n.clients c).ch + 1] } := by
    simp only [clientRead, hwritten, List.drop_left]
  have hsel : ∃ n'', selectClient srv n' c = some n'' ∧ (n''.clients c).ch = (n.clients c).ch + 1 ∧
      (n''.clients c).got = (n.clients c).got ++ [(n.clients c).ch + 1] :=
    selectClient_read (n := n') hpc hread
  obtain ⟨n'', hclient, hch, hgot⟩ := hsel
  refine ⟨n', n'', hserver, ?_, hch, hgot⟩
  rw [netStep]
  exact (if_pos hlt).trans hclient

/-- In every interleaving of the server with any number of clients the server stays in its
loop, and each client reads what the server has written on its connection: `'B'` first, then
`'C'`, and never the end of the stream. Where the server is about to write, the client on that
connection waits, and the write lets it read the byte it sent, plus one. -/
theorem clients_read_replies (h : (netSystem srv).Reachable n) :
    n.server.pc ≠ .exit ∧
    (∀ c, (n.clients c).eof = false ∧ (n.clients c).got <+: (n.server.conns c).written ∧
      ((n.clients c).pc = .secondWrite ∨ (n.clients c).pc = .secondRead →
        (n.clients c).ch = 66 ∧ (n.clients c).got = [66]) ∧
      ((n.clients c).pc = .close ∨ (n.clients c).pc = .done →
        (n.clients c).ch = 67 ∧ (n.clients c).got = [66, 67] ∧
        (n.server.conns c).written = [66, 67])) ∧
    ∀ c fd ch client, n.server.pc = .answer fd ch → (n.server.conns c).place = .opened fd →
      (n.clients c).ch = ch ∧ ∃ n' n'', netStep srv n (.server client) = some n' ∧
        netStep srv n' (.client c) = some n'' ∧ (n''.clients c).ch = ch + 1 ∧
        (n''.clients c).got = (n.clients c).got ++ [ch + 1] := by
  have hi := netInv_reachable h
  refine ⟨?_, fun c => ?_, ?_⟩
  · intro hp
    have hh := hi.server.here
    simp [Here, hp] at hh
  · obtain ⟨heof, hc⟩ := hi.clients c
    have hgot := hi.got c
    -- the server has written no more than the replies to the two bytes sent
    have hall : (n.server.conns c).sent = [65, 66] → (n.clients c).got = [66, 67] →
        (n.server.conns c).written = [66, 67] := by
      intro hsent hg
      have hpre := hi.server.written_prefix c
      rw [hsent] at hpre
      rw [hg] at hgot
      exact (hgot.eq_of_length_le hpre.length_le).symm
    refine ⟨heof, hgot, ?_, ?_⟩
    · rintro (hp | hp) <;> rw [hp] at hc <;> exact hc.2.2
    · rintro (hp | hp) <;> rw [hp] at hc <;> exact ⟨hc.2.2.1, hc.2.2.2, hall hc.1 hc.2.2.2⟩
  · intro c fd ch client hp hplace
    have hf := (hi.server.files_iff fd c).mpr hplace
    have hch := (hi.waiting hp hf).2.1
    subst hch
    exact ⟨rfl, hi.answer_read hp hf client⟩

theorem netReachable_scanEnd (fd : Nat) (h : (netSystem srv).Reachable n)
    (hp : n.server.pc = .scan fd) (ht : ∀ x < fdSetSize, fd ≤ x → n.server.testfds x = false) :
    (netSystem srv).Reachable { n with server := { n.server with pc := .select } } := by
  have hkeep : ∀ s client s', (netSystem srv).Reachable { n with server := s } →
      serverStep srv client s = some s' → (netSystem srv).Reachable { n with server := s' } := by
    intro s client s' hr hs
    refine hr.step (l := NetEvent.server client) trivial ?_
    show netStep srv _ _ = _
    simp only [netStep, hs, Option.bind_eq_bind, Option.bind_some]
  exact scan_ends (P := fun s => (netSystem srv).Reachable { n with server := s }) hkeep fd h hp ht

/-- Two clients connect and write, and the server has accepted the first. -/
def twoClients : List NetEvent :=
  [.connect, .connect, .client 0, .client 1, .server 0, .server 0, .server 0, .server 0, .server 4]

/-- Four scans answer both clients to the end, the second always one scan behind. -/
theorem clients_read_replies_two : ∃ n, (netSystem 3).Reachable n ∧
    (n.clients 0).got = [66, 67] ∧ (n.clients 1).got = [66, 67] ∧
    (n.server.conns 0).written = [66, 67] ∧ (n.server.conns 1).written = [66, 67] := by
  have h0 : (netSystem 3).Reachable ⟨initial 3, fun _ => {}⟩ := .init rfl
  have h1 := h0.replay_get (netStep 3) (fun _ _ _ hs => hs)
    (twoClients ++ [.server 0]) (by decide +kernel)
  have h2 := netReachable_scanEnd 4 h1 (by decide +kernel) (by decide +kernel)
  have h3 := h2.replay_get (netStep 3) (fun _ _ _ hs => hs)
    [.server 0, .server 0, .server 0, .server 0, .server 5, .server 0, .server 0, .server 0,
      .server 0] (by decide +kernel)
  have h4 := netReachable_scanEnd 5 h3 (by decide +kernel) (by decide +kernel)
  have h5 := h4.replay_get (netStep 3) (fun _ _ _ hs => hs)
    [.client 0, .client 0, .server 0, .server 0, .server 0, .server 0, .server 0, .server 0,
      .server 0, .server 0, .server 0, .server 0, .server 0] (by decide +kernel)
  have h6 := netReachable_scanEnd 6 h5 (by decide +kernel) (by decide +kernel)
  have h7 := h6.replay_get (netStep 3) (fun _ _ _ hs => hs)
    [.client 0, .client 1, .client 1, .client 0, .server 0, .server 0, .server 0, .server 0,
      .server 0, .server 0, .server 0, .server 0, .server 0, .server 0, .server 0, .client 1]
    (by decide +kernel)
  obtain ⟨-, hall, -⟩ := clients_read_replies h7
  generalize hn : Option.get _ _ = n at h7 hall
  have hp0 : (n.clients 0).pc = .done := by
    rw [← hn]
    decide +kernel
  have hp1 : (n.clients 1).pc = .close := by
    rw [← hn]
    decide +kernel
  obtain ⟨-, hg0, hw0⟩ := (hall 0).2.2.2 (.inr hp0)
  obtain ⟨-, hg1, hw1⟩ := (hall 1).2.2.2 (.inl hp1)
  exact ⟨n, h7, hg0, hg1, hw0, hw1⟩

section Progress

/-- What keeps the server going: an `accept` that is due finds a connection, descriptors are
below `FD_SETSIZE`, and every client is connected. -/
structure Supply (srv : Nat) (s : State) : Prop where
  pending : nextFd s.pc ≤ srv → s.testfds srv = true → s.backlog ≠ []
  small : ∀ fd, s.files fd ≠ none → fd < fdSetSize
  present : ∀ c, c < s.clients → (s.conns c).place ≠ .absent

/-- A step that keeps the connections and the backlog, and goes on in the scan. -/
theorem Supply.frame (h : Supply srv s) (hpc : nextFd s.pc ≤ nextFd s'.pc)
    (htest : s'.testfds = s.testfds) (hback : s'.backlog = s.backlog)
    (hfiles : ∀ fd, s'.files fd ≠ none → s.files fd ≠ none) (hclients : s'.clients = s.clients)
    (hplace : ∀ c, (s'.conns c).place = .absent → (s.conns c).place = .absent) :
    Supply srv s' where
  pending hlt ht := by
    rw [hback]
    rw [htest] at ht
    exact h.pending (Nat.le_trans hpc hlt) ht
  small fd hf := h.small fd (hfiles fd hf)
  present c hc habs := h.present c (hclients ▸ hc) (hplace c habs)

/-- A new record for a connection that is there. -/
theorem place_setConn {k : Conn} (hk : k.place = .absent → (s.conns c).place = .absent) (d : Nat)
    (h : ((s.setConn c k).conns d).place = .absent) : (s.conns d).place = .absent := by
  by_cases hd : d = c
  · subst hd
    rw [setConn_conns_self] at h
    exact hk h
  · rwa [setConn_conns_ne hd] at h

theorem supply_serverStep {fd : Nat} (h : Supply srv s) (hsrv : srv < fdSetSize)
    (hs : serverStep srv fd s = some s') : Supply srv s' := by
  -- outside a scan no descriptor is left to come
  have hout : ∀ pc, nextFd pc = fdSetSize → Supply srv { s with pc := pc } := by
    intro pc hpc
    refine ⟨fun hlt => ?_, h.small, h.present⟩
    have hlt : nextFd pc ≤ srv := hlt
    omega
  cases move_of_serverStep hs with
  | selectFails => exact hout .exit rfl
  | select hp =>
    refine ⟨fun _ ht => ?_, h.small, h.present⟩
    have ht : (s.readfds srv && s.readable srv srv) = true := ht
    intro hnil
    have hnil : s.backlog = [] := hnil
    simp [State.readable, hnil] at ht
  | scanEnd => exact hout .select rfl
  | skip x hp =>
    refine h.frame ?_ rfl rfl (fun _ hf => hf) rfl fun _ hp => hp
    rw [hp]
    exact Nat.le_succ x
  | accept d rest hp hback =>
    have hnum : fd < fdSetSize := by
      by_contra hge
      simp only [serverStep, hp, hback, if_pos hsrv, if_true, hge, false_and, if_false] at hs
      split at hs
      · cases hs
      · have hpc := congrArg (Option.map State.pc) hs
        simp [State.accept] at hpc
    refine ⟨fun hlt => ?_, fun x hx => ?_, fun c hc habs => h.present c hc ?_⟩
    · exact absurd hlt (Nat.not_le.mpr (Nat.lt_succ_self srv))
    · have hx : Function.update s.files fd (some d) x ≠ none := hx
      by_cases hxf : x = fd
      · rwa [hxf]
      · rw [Function.update_of_ne hxf] at hx
        exact h.small x hx
    · exact place_setConn (by simp) c habs
  | count x d hp =>
    refine h.frame ?_ rfl rfl (fun _ hf => hf) rfl fun _ hp => hp
    rw [hp]
    exact Nat.le_succ x
  | countFails => exact hout .exit rfl
  | setFd x new hp =>
    refine h.frame ?_ rfl rfl (fun _ hf => hf) rfl fun _ hp => hp
    rw [hp]
    exact Nat.le_refl _
  | close x d hp hf =>
    refine h.frame ?_ rfl rfl (fun y hy => ?_) rfl fun c hc => place_setConn (by simp) c hc
    · rw [hp]
      exact Nat.le_refl _
    · have hy : Function.update s.files x none y ≠ none := hy
      by_cases hyx : y = x
      · rw [hyx, Function.update_self] at hy
        exact absurd rfl hy
      · rwa [Function.update_of_ne hyx] at hy
  | read x d m ch bs hp =>
    refine h.frame ?_ rfl rfl (fun _ hf => hf) rfl fun c hc =>
      place_setConn (by exact fun hk => hk) c hc
    rw [hp]
    exact Nat.le_refl _
  | countedFails => exact hout .exit rfl
  | clearFd x hp =>
    refine h.frame ?_ rfl rfl (fun _ hf => hf) rfl fun _ hp => hp
    rw [hp]
    exact Nat.le_refl _
  | write x d ch hp =>
    refine h.frame ?_ rfl rfl (fun _ hf => hf) rfl fun c hc =>
      place_setConn (by exact fun hk => hk) c hc
    rw [hp]
    exact Nat.le_refl _
  | writeFails => exact hout .exit rfl

theorem supply_step {e : Event} (h : Supply srv s) (hsrv : srv < fdSetSize)
    (hs : step srv s e = some s') : Supply srv s' := by
  cases e with
  | connect =>
    cases hs
    refine ⟨fun _ _ => by simp, h.small, fun c hc habs => ?_⟩
    have habs : (Function.update s.conns s.clients { place := .backlog } c).place = .absent := habs
    have hc : c < s.clients + 1 := hc
    by_cases hcs : c = s.clients
    · rw [hcs, Function.update_self] at habs
      cases habs
    · rw [Function.update_of_ne hcs] at habs
      exact h.present c (by omega) habs
  | send c b =>
    obtain ⟨-, rfl⟩ := sent_of_send hs
    exact h.frame (Nat.le_refl _) rfl rfl (fun _ hf => hf) rfl fun d hd =>
      place_setConn (by exact fun hk => hk) d hd
  | disconnect c =>
    obtain rfl := closed_of_disconnect hs
    exact h.frame (Nat.le_refl _) rfl rfl (fun _ hf => hf) rfl fun d hd =>
      place_setConn (by exact fun hk => hk) d hd
  | server fd => exact supply_serverStep h hsrv hs

/-- The connection on which the server's calls are due. -/
theorem readable_of_unread {fd : Nat} (hi : Inv srv s) (hf : s.files fd = some c)
    (hu : (s.conns c).unread ≠ []) : s.readable srv fd = true := by
  have hne : fd ≠ srv := by
    rintro rfl
    rw [hi.files_srv] at hf
    cases hf
  simp [State.readable, hne, hf, hu]

/-- With fewer clients than descriptors there is a number for `accept`. -/
theorem exists_free_fd (hi : Inv srv s) (hlt : s.clients + 1 < fdSetSize) :
    ∃ fd, fd < fdSetSize ∧ s.isOpen srv fd = false := by
  by_contra hno
  have hopen : ∀ fd, fd < fdSetSize → fd ≠ srv → ∃ c, c < s.clients ∧ s.files fd = some c := by
    intro fd hfd hne
    by_contra hclosed
    refine hno ⟨fd, hfd, ?_⟩
    cases hf : s.files fd with
    | none => simp [State.isOpen, hne, hf]
    | some c =>
      have hplace := (hi.files_iff fd c).mp hf
      exact absurd ⟨c, hi.lt_clients (by simp [hplace]), hf⟩ hclosed
  -- all of them open would be more connections than clients
  have hcard : (Finset.range s.clients).card < ((Finset.range fdSetSize).erase srv).card := by
    have herase := Finset.pred_card_le_card_erase (s := Finset.range fdSetSize) (a := srv)
    rw [Finset.card_range] at herase ⊢
    omega
  obtain ⟨x, hx, y, hy, hne, heq⟩ := Finset.exists_ne_map_eq_of_card_lt_of_maps_to hcard
    (f := fun fd => (s.files fd).getD 0) (by
      intro fd hfd
      obtain ⟨hsrv, hlt⟩ := Finset.mem_erase.mp (Finset.mem_coe.mp hfd)
      obtain ⟨c, hc, hf⟩ := hopen fd (Finset.mem_range.mp hlt) hsrv
      simpa [hf] using hc)
  obtain ⟨hxsrv, hxlt⟩ := Finset.mem_erase.mp hx
  obtain ⟨hysrv, hylt⟩ := Finset.mem_erase.mp hy
  obtain ⟨c, -, hfx⟩ := hopen x (Finset.mem_range.mp hxlt) hxsrv
  obtain ⟨d, -, hfy⟩ := hopen y (Finset.mem_range.mp hylt) hysrv
  simp only [hfx, hfy, Option.getD_some] at heq
  exact hne (files_inj hi hfx (heq ▸ hfy))

/-- The server can go on while some connection has bytes it has not read. -/
theorem serverStep_isSome (hi : Inv srv s) (h : Supply srv s) (hsrv : srv < fdSetSize)
    (hlt : s.clients + 1 < fdSetSize) (hc : c < s.clients) (hpeer : (s.conns c).peerClosed = false)
    (hdue : s.pc = .select → (s.conns c).unread ≠ []) :
    ∃ fd, (serverStep srv fd s).isSome = true := by
  obtain ⟨free, hfree, hclosed⟩ := exists_free_fd hi hlt
  refine ⟨free, ?_⟩
  cases hp : s.pc with
  | select =>
    have hwatch : ∀ fd, s.readfds fd = true ↔ fd = srv ∨ s.files fd ≠ none := by
      intro fd
      rw [hi.readfds_iff fd]
      simp [Watched, hp]
    have hready :
        (List.range fdSetSize).any (fun fd => s.readfds fd && s.readable srv fd) = true := by
      rw [List.any_eq_true]
      cases hplace : (s.conns c).place with
      | absent => exact absurd hplace (h.present c hc)
      | backlog =>
        refine ⟨srv, List.mem_range.mpr hsrv, ?_⟩
        have hmem := (hi.backlog_iff c).mpr hplace
        have hne : s.backlog ≠ [] := List.ne_nil_of_mem hmem
        simp [(hwatch srv).mpr (.inl rfl), State.readable, hne]
      | opened fd =>
        have hf := (hi.files_iff fd c).mpr hplace
        refine ⟨fd, List.mem_range.mpr (h.small fd (by simp [hf])), ?_⟩
        rw [(hwatch fd).mpr (.inr (by simp [hf])), readable_of_unread hi hf (hdue hp)]
        rfl
      | closed =>
        have := ((hi.conn c).final hplace).1
        rw [hpeer] at this
        cases this
    simp only [serverStep, hp]
    split
    · rfl
    · rfl
  | scan fd =>
    simp only [serverStep, hp]
    split
    · split
      · split
        · next hfd ht heq =>
          subst heq
          have hback := h.pending (by rw [hp]; exact Nat.le_refl _) ht
          cases hb : s.backlog with
          | nil => exact absurd hb hback
          | cons d rest =>
            simp only [hfree, hclosed, and_self, if_true]
            rfl
        · split <;> rfl
      · rfl
    · rfl
  | accepted fd new => simp only [serverStep, hp, Option.isSome_some]
  | counted fd nread =>
    simp only [serverStep, hp]
    split
    · rfl
    · split
      · rfl
      · split <;> rfl
  | removed fd => simp only [serverStep, hp, Option.isSome_some]
  | answer fd ch =>
    simp only [serverStep, hp]
    split <;> rfl
  | exit =>
    have hh := hi.here
    simp [Here, hp] at hh

theorem supply_netStep {e : NetEvent} (h : Supply srv n.server) (hsrv : srv < fdSetSize)
    (hs : netStep srv n e = some n') : Supply srv n'.server := by
  cases e with
  | connect =>
    simp only [netStep, Option.bind_eq_bind, Option.bind_eq_some_iff] at hs
    obtain ⟨s', hs', heq⟩ := hs
    cases heq
    exact supply_step h hsrv hs'
  | client c =>
    simp only [netStep] at hs
    split at hs
    · simp only [selectClient] at hs
      split at hs
      · simp only [Option.bind_eq_bind, Option.bind_eq_some_iff] at hs
        obtain ⟨s', hs', heq⟩ := hs
        cases heq
        exact supply_step h hsrv hs'
      · simp only [Option.bind_eq_bind, Option.bind_eq_some_iff] at hs
        obtain ⟨p', -, heq⟩ := hs
        cases heq
        exact h
      · simp only [Option.bind_eq_bind, Option.bind_eq_some_iff] at hs
        obtain ⟨s', hs', heq⟩ := hs
        cases heq
        exact supply_step h hsrv hs'
      · simp only [Option.bind_eq_bind, Option.bind_eq_some_iff] at hs
        obtain ⟨p', -, heq⟩ := hs
        cases heq
        exact h
      · simp only [Option.bind_eq_bind, Option.bind_eq_some_iff] at hs
        obtain ⟨s', hs', heq⟩ := hs
        cases heq
        exact supply_step h hsrv hs'
      · cases hs
    · cases hs
  | server fd =>
    simp only [netStep, Option.bind_eq_bind, Option.bind_eq_some_iff] at hs
    obtain ⟨s', hs', heq⟩ := hs
    cases heq
    exact supply_serverStep h hsrv hs'

theorem supply_reachable (hsrv : srv < fdSetSize) (h : (netSystem srv).Reachable n) :
    Supply srv n.server := by
  refine h.invariant (I := fun n => Supply srv n.server) ?_ ?_
  · rintro _ rfl
    exact ⟨fun _ ht => absurd ht (by simp [initial]), fun fd hf => absurd rfl hf,
      fun c hc => absurd hc (Nat.not_lt_zero c)⟩
  · intro n e n' hi hs
    exact supply_netStep hi hsrv hs

/-- A client at a read with nothing to read leaves the server something to do. -/
theorem unread_of_waiting (hi : Inv srv s) {p : Client} (hpc : s.pc = .select)
    (hlen : (s.conns c).sent.length = p.got.length + 1) (hread : clientRead (s.conns c) p = none) :
    (s.conns c).unread ≠ [] := by
  have hnil : (s.conns c).written.drop p.got.length = [] := by
    cases hd : (s.conns c).written.drop p.got.length with
    | nil => rfl
    | cons b rest => simp [clientRead, hd] at hread
  have hans := (hi.conn c).answered
  rw [reply_eq_nil (by simp [hpc]) c, List.append_nil] at hans
  have hw : (s.conns c).written.length ≤ p.got.length := List.drop_eq_nil_iff.mp hnil
  rw [hans, List.length_map] at hw
  intro hu
  have hall : (s.conns c).sent.length ≤ (s.conns c).received.length := List.drop_eq_nil_iff.mp hu
  omega

/-- No interleaving ends in a deadlock: as long as a client is not done, it or the server can
make its next call, if the descriptors suffice for all clients. -/
theorem client_or_server_goes_on (hsrv : srv < fdSetSize) (h : (netSystem srv).Reachable n)
    (hlt : n.server.clients + 1 < fdSetSize) (hc : c < n.server.clients)
    (hpc : (n.clients c).pc ≠ .done) :
    (selectClient srv n c).isSome = true ∨
      ∃ fd, (serverStep srv fd n.server).isSome = true := by
  have hi := netInv_reachable h
  have hsup := supply_reachable hsrv h
  obtain ⟨-, hstep⟩ := hi.clients c
  have hwait : (n.server.conns c).peerClosed = false →
      (n.server.conns c).sent.length = (n.clients c).got.length + 1 →
      (clientRead (n.server.conns c) (n.clients c)).isSome = true ∨
        ∃ fd, (serverStep srv fd n.server).isSome = true := by
    intro hpeer hlen
    cases hr : clientRead (n.server.conns c) (n.clients c) with
    | some p' => exact .inl rfl
    | none =>
      exact .inr (serverStep_isSome hi.server hsup hsrv hlt hc hpeer fun hsel =>
        unread_of_waiting hi.server hsel hlen hr)
  cases hp : (n.clients c).pc with
  | firstWrite =>
    rw [hp] at hstep
    refine .inl ?_
    simp [selectClient, hp, step, State.clientOpen, hc, hstep.2.1]
  | firstRead =>
    rw [hp] at hstep
    obtain ⟨hsent, hpeer, -, hn⟩ := hstep
    rcases hwait hpeer (by rw [hsent, hn]; rfl) with hr | hsrv'
    · obtain ⟨p', hp'⟩ := Option.isSome_iff_exists.mp hr
      exact .inl (by simp [selectClient, hp, hp'])
    · exact .inr hsrv'
  | secondWrite =>
    rw [hp] at hstep
    refine .inl ?_
    simp [selectClient, hp, step, State.clientOpen, hc, hstep.2.1]
  | secondRead =>
    rw [hp] at hstep
    obtain ⟨hsent, hpeer, -, hn⟩ := hstep
    rcases hwait hpeer (by rw [hsent, hn]; rfl) with hr | hsrv'
    · obtain ⟨p', hp'⟩ := Option.isSome_iff_exists.mp hr
      exact .inl (by simp [selectClient, hp, hp'])
    · exact .inr hsrv'
  | close =>
    rw [hp] at hstep
    refine .inl ?_
    simp [selectClient, hp, step, State.clientOpen, hc, hstep.2.1]
  | done => exact absurd hp hpc

theorem client_or_server_goes_on_two : ∃ n, (netSystem 3).Reachable n ∧
    (n.clients 1).pc = .firstRead ∧ ((selectClient 3 n 1).isSome = true ∨
      ∃ fd, (serverStep 3 fd n.server).isSome = true) := by
  have h0 : (netSystem 3).Reachable ⟨initial 3, fun _ => {}⟩ := .init rfl
  have h := h0.replay_get (netStep 3) (fun _ _ _ hs => hs) twoClients (by decide +kernel)
  exact ⟨_, h, by decide +kernel, client_or_server_goes_on (by decide) h (by decide +kernel)
    (by decide +kernel) (by decide +kernel)⟩

end Progress

end BaseCode.SelectServer
