import BaseCode.SelectServer.Model

/-!
# What every run of the select server keeps

The invariant ties the descriptors the kernel has open to the connections, the set
`readfds` to those descriptors, and the snapshot `testfds` to the connections that were
there when `select` returned. The last is the point of the scan order: a number freed in
the current scan lies below the listening socket when `accept` hands it out again, and the
scan has passed it.
-/

namespace BaseCode.SelectServer
open Foundation

/-- The reply to connection `c` that has been read for but not written yet. -/
def reply (s : State) (c : Nat) : List UInt8 :=
  match s.pc with
  | .answer fd ch => if s.files fd = some c then [ch + 1] else []
  | _ => []

/-- The first descriptor the current scan has not come to yet. -/
def nextFd : Pc → Nat
  | .select => fdSetSize
  | .scan fd => fd
  | .accepted fd _ => fd + 1
  | .counted fd _ => fd + 1
  | .removed fd => fd + 1
  | .answer fd _ => fd + 1
  | .exit => fdSetSize

/-- Accepted in a scan before scan `n`. -/
def Conn.AcceptedBefore (c : Conn) (n : Nat) : Prop := ∃ a, c.acceptedIn = some a ∧ a < n

/-- What `select` found at a connection, and what stays so until the server calls on it. -/
def Due (s : State) (c : Nat) : Prop :=
  (s.conns c).AcceptedBefore s.scanNo ∧ ((s.conns c).unread ≠ [] ∨ (s.conns c).peerClosed = true)

/-- What `readfds` holds: the listening socket and the open connections, up to the one
being added or removed. -/
def Watched (srv : Nat) (s : State) (fd : Nat) : Prop :=
  fd = srv ∨ match s.pc with
    | .accepted _ client => s.files fd ≠ none ∧ fd ≠ client
    | .removed old => s.files fd ≠ none ∨ fd = old
    | _ => s.files fd ≠ none

/-- What is known between the calls made for one descriptor. -/
def Here (srv : Nat) (s : State) : Prop :=
  match s.pc with
  | .select => True
  | .scan _ => True
  | .accepted _ client => client ≠ srv ∧ s.files client ≠ none
  | .counted fd nread => ∃ c, s.files fd = some c ∧ (s.conns c).AcceptedBefore s.scanNo ∧
      (nread = 0 → (s.conns c).peerClosed = true ∧ (s.conns c).unread = []) ∧
      (nread ≠ 0 → (s.conns c).unread ≠ [])
  | .removed fd => fd ≠ srv ∧ s.files fd = none
  | .answer fd _ => ∃ c, s.files fd = some c
  | .exit => False

/-- The history of one connection; `r` is the reply under way. -/
structure ConnInv (k : Conn) (scanNo : Nat) (r : List UInt8) : Prop where
  read : k.received <+: k.sent
  answered : k.written ++ r = k.received.map (· + 1)
  closes : k.closes = if k.place = .closed then 1 else 0
  final : k.place = .closed → k.peerClosed = true ∧ k.received = k.sent
  served : ∀ n ∈ k.servedIn, k.AcceptedBefore n
  accepted : ∀ a, k.acceptedIn = some a → a ≤ scanNo
  opened : ∀ fd, k.place = .opened fd → k.acceptedIn ≠ none
  waiting : k.place = .backlog → k.servedIn = []

structure Inv (srv : Nat) (s : State) : Prop where
  files_iff : ∀ fd c, s.files fd = some c ↔ (s.conns c).place = .opened fd
  files_srv : s.files srv = none
  backlog_iff : ∀ c, c ∈ s.backlog ↔ (s.conns c).place = .backlog
  backlog_nodup : s.backlog.Nodup
  fresh : ∀ c, s.clients ≤ c → s.conns c = {}
  readfds_iff : ∀ fd, s.readfds fd = true ↔ Watched srv s fd
  due : ∀ fd, fd < fdSetSize → nextFd s.pc ≤ fd → s.testfds fd = true →
    fd = srv ∨ ∃ c, s.files fd = some c ∧ Due s c
  here : Here srv s
  conn : ∀ c, ConnInv (s.conns c) s.scanNo (reply s c)

variable {srv : Nat} {s : State}

@[simp] theorem setConn_conns_self (s : State) (c : Nat) (k : Conn) :
    (s.setConn c k).conns c = k := Function.update_self ..

theorem setConn_conns_ne {c d : Nat} (h : d ≠ c) (s : State) (k : Conn) :
    (s.setConn c k).conns d = s.conns d := Function.update_of_ne h ..

@[simp] theorem setConn_files (s : State) (c : Nat) (k : Conn) :
    (s.setConn c k).files = s.files := rfl

@[simp] theorem setConn_pc (s : State) (c : Nat) (k : Conn) : (s.setConn c k).pc = s.pc := rfl

@[simp] theorem setConn_scanNo (s : State) (c : Nat) (k : Conn) :
    (s.setConn c k).scanNo = s.scanNo := rfl

theorem inv_initial (srv : Nat) : Inv srv (initial srv) where
  files_iff _ _ := by simp [initial]
  files_srv := rfl
  backlog_iff _ := by simp [initial]
  backlog_nodup := List.nodup_nil
  fresh _ _ := rfl
  readfds_iff _ := by simp [initial, Watched]
  due _ _ _ h := absurd h (by simp [initial])
  here := trivial
  conn _ := ⟨List.prefix_rfl, rfl, rfl, by simp [initial], by simp [initial], by simp [initial],
    by simp [initial], by simp [initial]⟩

/-- What a client can do to its connection: send while its side is open, or close it. -/
inductive Grows (k : Conn) : Conn → Prop
  | send (b : UInt8) : k.peerClosed = false → Grows k { k with sent := k.sent ++ [b] }
  | close : k.peerClosed = false → Grows k { k with peerClosed := true }

section Grows

variable {k k' : Conn}

theorem Grows.unread_ne_nil (h : Grows k k') (hr : k.received <+: k.sent)
    (hu : k.unread ≠ []) : k'.unread ≠ [] := by
  cases h with
  | send b _ =>
    obtain ⟨t, ht⟩ := hr
    simp [Conn.unread, ← ht]
  | close _ => exact hu

theorem Grows.due (h : Grows k k') (hr : k.received <+: k.sent)
    (hd : k.unread ≠ [] ∨ k.peerClosed = true) : k'.unread ≠ [] ∨ k'.peerClosed = true := by
  rcases hd with hu | hc
  · exact .inl (h.unread_ne_nil hr hu)
  · cases h with
    | send _ ho => exact absurd hc (by simp [ho])
    | close ho => exact absurd hc (by simp [ho])

theorem Grows.connInv (h : Grows k k') {n : Nat} {r : List UInt8} (hi : ConnInv k n r) :
    ConnInv k' n r := by
  cases h with
  | send b ho =>
    exact ⟨hi.read.trans (List.prefix_append _ _), hi.answered, hi.closes,
      fun hp => absurd (hi.final hp).1 (by simp [ho]), hi.served, hi.accepted, hi.opened,
      hi.waiting⟩
  | close ho =>
    exact ⟨hi.read, hi.answered, hi.closes, fun hp => ⟨rfl, (hi.final hp).2⟩, hi.served,
      hi.accepted, hi.opened, hi.waiting⟩

theorem Grows.place_eq (h : Grows k k') : k'.place = k.place := by cases h <;> rfl

theorem Grows.acceptedIn_eq (h : Grows k k') : k'.acceptedIn = k.acceptedIn := by cases h <;> rfl

end Grows

section Frames

variable {s' : State} {c d : Nat} {k : Conn}

theorem setConn_place (hk : k.place = (s.conns c).place) (d : Nat) :
    ((s.setConn c k).conns d).place = (s.conns d).place := by
  by_cases hd : d = c
  · subst d
    rw [setConn_conns_self, hk]
  · rw [setConn_conns_ne hd]

/-- A connection that has got anywhere is one of the clients. -/
theorem Inv.lt_clients (h : Inv srv s) (hc : (s.conns c).place ≠ .absent) : c < s.clients := by
  by_contra hge
  refine hc ?_
  rw [h.fresh c (Nat.le_of_not_lt hge)]

theorem Inv.fresh_setConn (h : Inv srv s) (hc : c < s.clients) (k : Conn) :
    ∀ d, s.clients ≤ d → (s.setConn c k).conns d = {} := by
  intro d hd
  have hne : d ≠ c := by
    rintro rfl
    exact absurd hc (Nat.not_lt.mpr hd)
  rw [setConn_conns_ne hne]
  exact h.fresh d hd

theorem Due.congr (hd : Due s d) (hconn : s'.conns d = s.conns d) (hscan : s'.scanNo = s.scanNo) :
    Due s' d := by
  simp only [Due] at hd ⊢
  rwa [hconn, hscan]

/-- A step that does not concern the descriptors still to be visited. -/
theorem Inv.due_frame (h : Inv srv s) (hpc : nextFd s.pc ≤ nextFd s'.pc)
    (htest : s'.testfds = s.testfds) (hscan : s'.scanNo = s.scanNo)
    (hsame : ∀ fd d, nextFd s'.pc ≤ fd → s.files fd = some d →
      s'.files fd = some d ∧ s'.conns d = s.conns d) :
    ∀ fd, fd < fdSetSize → nextFd s'.pc ≤ fd → s'.testfds fd = true →
      fd = srv ∨ ∃ c, s'.files fd = some c ∧ Due s' c := by
  intro fd hlt hnext ht
  rw [htest] at ht
  refine (h.due fd hlt (Nat.le_trans hpc hnext) ht).imp id ?_
  rintro ⟨d, hf, hd⟩
  obtain ⟨hf', hconn⟩ := hsame fd d hnext hf
  exact ⟨d, hf', hd.congr hconn hscan⟩

/-- A client leaves the server where it is. Only what the server has counted at a connection
has to be looked at again. -/
theorem Here.of_client (h : Here srv s) (hpc : s'.pc = s.pc) (hfiles : s'.files = s.files)
    (hcount : ∀ fd nread, s.pc = .counted fd nread → Here srv s') : Here srv s' := by
  cases hp : s.pc with
  | counted fd nread => exact hcount fd nread hp
  | select => simp [Here, hpc, hp]
  | scan fd => simp [Here, hpc, hp]
  | accepted fd client => simpa [Here, hpc, hfiles, hp] using h
  | removed fd => simpa [Here, hpc, hfiles, hp] using h
  | answer fd ch => simpa [Here, hpc, hfiles, hp] using h
  | exit => simp [Here, hp] at h

/-- One descriptor and one connection change together. -/
theorem files_iff_update {files : Nat → Option Nat} {conns : Nat → Conn}
    (h : ∀ fd d, files fd = some d ↔ (conns d).place = .opened fd) {x : Nat} {v : Option Nat}
    (hnew : v = some c ↔ k.place = .opened x) (hv : ∀ d, v = some d → d = c)
    (hk : ∀ fd, k.place = .opened fd → fd = x) (hold : ∀ d, files x = some d → d = c)
    (hc : ∀ fd, files fd = some c → fd = x) (fd d : Nat) :
    Function.update files x v fd = some d ↔
      (Function.update conns c k d).place = .opened fd := by
  by_cases hfd : fd = x
  · subst fd
    rw [Function.update_self]
    by_cases hd : d = c
    · subst d
      rw [Function.update_self]
      exact hnew
    · rw [Function.update_of_ne hd, ← h]
      exact iff_of_false (fun hv' => hd (hv d hv')) (fun hf => hd (hold d hf))
  · rw [Function.update_of_ne hfd]
    by_cases hd : d = c
    · subst d
      rw [Function.update_self]
      exact iff_of_false (fun hf => hfd (hc fd hf)) (fun hp => hfd (hk fd hp))
    · rw [Function.update_of_ne hd]
      exact h fd d

end Frames

theorem inv_grows (h : Inv srv s) {c : Nat} (hc : c < s.clients) {k : Conn}
    (hg : Grows (s.conns c) k) : Inv srv (s.setConn c k) := by
  have hplace := setConn_place hg.place_eq
  have haccepted : ∀ d, ((s.setConn c k).conns d).acceptedIn = (s.conns d).acceptedIn := by
    intro d
    by_cases hd : d = c
    · subst d
      rw [setConn_conns_self]
      exact hg.acceptedIn_eq
    · rw [setConn_conns_ne hd]
  have hunread : ∀ d, (s.conns d).unread ≠ [] → ((s.setConn c k).conns d).unread ≠ [] := by
    intro d hu
    by_cases hd : d = c
    · subst d
      rw [setConn_conns_self]
      exact hg.unread_ne_nil (h.conn _).read hu
    · rwa [setConn_conns_ne hd]
  refine ⟨?_, h.files_srv, ?_, h.backlog_nodup, h.fresh_setConn hc k, h.readfds_iff, ?_, ?_, ?_⟩
  · intro fd d
    rw [hplace]
    exact h.files_iff fd d
  · intro d
    rw [hplace]
    exact h.backlog_iff d
  · intro fd hlt hnext ht
    refine (h.due fd hlt hnext ht).imp id ?_
    rintro ⟨d, hf, ha, hd⟩
    refine ⟨d, hf, ?_, ?_⟩
    · simpa only [Conn.AcceptedBefore, haccepted, setConn_scanNo] using ha
    · by_cases he : d = c
      · subst d
        rw [setConn_conns_self]
        exact hg.due (h.conn _).read hd
      · rwa [setConn_conns_ne he]
  · refine h.here.of_client rfl rfl fun fd nread hp => ?_
    have hh := h.here
    simp only [Here, hp] at hh
    obtain ⟨d, hf, ha, h0, h1⟩ := hh
    simp only [Here, setConn_pc, hp]
    refine ⟨d, hf, ?_, ?_, fun hn => hunread d (h1 hn)⟩
    · simpa only [Conn.AcceptedBefore, haccepted, setConn_scanNo] using ha
    · intro hn
      -- the count was zero because the peer had closed, so it cannot send any more
      by_cases he : d = c
      · subst d
        have hclosed := (h0 hn).1
        cases hg with
        | send _ ho => exact absurd hclosed (by simp [ho])
        | close ho => exact absurd hclosed (by simp [ho])
      · rw [setConn_conns_ne he]
        exact h0 hn
  · intro d
    by_cases he : d = c
    · subst d
      rw [setConn_conns_self]
      exact hg.connInv (h.conn _)
    · rw [setConn_conns_ne he]
      exact h.conn d

theorem inv_connect (h : Inv srv s) :
    Inv srv { s.setConn s.clients { place := .backlog } with
      clients := s.clients + 1
      backlog := s.backlog ++ [s.clients] } := by
  have hfresh := h.fresh s.clients (Nat.le_refl _)
  have hne : ∀ {fd d : Nat}, s.files fd = some d → d ≠ s.clients := by
    rintro fd d hf rfl
    have := (h.files_iff fd _).mp hf
    simp [hfresh] at this
  have hout : s.clients ∉ s.backlog := by
    intro hm
    have := (h.backlog_iff _).mp hm
    simp [hfresh] at this
  have hconns : ∀ {d : Nat}, d ≠ s.clients →
      (s.setConn s.clients { place := .backlog }).conns d = s.conns d :=
    fun hd => setConn_conns_ne hd _ _
  refine ⟨?_, h.files_srv, ?_, ?_, ?_, h.readfds_iff, ?_, ?_, ?_⟩
  · intro fd d
    by_cases hd : d = s.clients
    · subst d
      simp only [setConn_conns_self]
      constructor
      · intro hf
        exact absurd rfl (hne hf)
      · intro hp
        cases hp
    · simpa only [hconns hd, setConn_files] using h.files_iff fd d
  · intro d
    by_cases hd : d = s.clients
    · subst d
      simp [setConn_conns_self]
    · simp only [hconns hd, List.mem_append, List.mem_singleton, hd, or_false]
      exact h.backlog_iff d
  · rw [List.nodup_append]
    refine ⟨h.backlog_nodup, by simp, ?_⟩
    intro a ha b hb
    rw [List.mem_singleton] at hb
    rintro rfl
    exact hout (hb ▸ ha)
  · intro d hd
    have hd' : d ≠ s.clients := by
      change s.clients + 1 ≤ d at hd
      omega
    rw [hconns hd']
    exact h.fresh d (by change s.clients + 1 ≤ d at hd; omega)
  · exact h.due_frame (Nat.le_refl _) rfl rfl fun fd d _ hf => ⟨hf, hconns (hne hf)⟩
  · refine h.here.of_client rfl rfl fun fd nread hp => ?_
    have hh := h.here
    simp only [Here, hp] at hh
    obtain ⟨d, hf, hrest⟩ := hh
    simp only [Here, setConn_pc, hp]
    refine ⟨d, hf, ?_⟩
    simpa only [hconns (hne hf), setConn_scanNo] using hrest
  · intro d
    by_cases hd : d = s.clients
    · subst d
      have hr := h.conn s.clients
      simp only [setConn_conns_self]
      rw [hfresh] at hr
      have hreply : reply s s.clients = [] := by simpa using hr.answered
      exact ⟨List.prefix_rfl, hreply, rfl, by simp, by simp, by simp, by simp, by simp⟩
    · simp only [hconns hd]
      exact h.conn d

/-- The calls of the server, one by one, with what decides between them. -/
inductive Move (srv client : Nat) (s : State) : State → Prop
  | selectFails (fd : Nat) : s.pc = .select → s.readfds fd = true → s.isOpen srv fd = false →
      Move srv client s { s with pc := .exit }
  | select : s.pc = .select → Move srv client s { s with
      testfds := fun fd => s.readfds fd && s.readable srv fd
      pc := .scan 0
      scanNo := s.scanNo + 1 }
  | scanEnd (fd : Nat) : s.pc = .scan fd → Move srv client s { s with pc := .select }
  | skip (fd : Nat) : s.pc = .scan fd → Move srv client s { s with pc := .scan (fd + 1) }
  | accept (c : Nat) (rest : List Nat) : s.pc = .scan srv → s.backlog = c :: rest →
      s.isOpen srv client = false → Move srv client s (s.accept srv client c rest)
  | count (fd c : Nat) : s.pc = .scan fd → fd < fdSetSize → s.testfds fd = true → fd ≠ srv →
      s.files fd = some c →
      Move srv client s { s with pc := .counted fd (s.conns c).unread.length }
  | countFails (fd : Nat) : s.pc = .scan fd → fd < fdSetSize → s.testfds fd = true → fd ≠ srv →
      s.files fd = none → Move srv client s { s with pc := .exit }
  | setFd (fd new : Nat) : s.pc = .accepted fd new → Move srv client s { s with
      readfds := Function.update s.readfds new true
      pc := .scan (fd + 1) }
  | close (fd c : Nat) : s.pc = .counted fd 0 → s.files fd = some c →
      Move srv client s (s.close fd c)
  | read (fd c n : Nat) (ch : UInt8) (bs : List UInt8) : s.pc = .counted fd n → n ≠ 0 →
      s.files fd = some c → (s.conns c).unread = ch :: bs →
      Move srv client s (s.readByte fd c ch)
  | countedFails (fd n : Nat) : s.pc = .counted fd n →
      (∀ c, s.files fd = some c → n ≠ 0 ∧ (s.conns c).unread = []) →
      Move srv client s { s with pc := .exit }
  | clearFd (fd : Nat) : s.pc = .removed fd → Move srv client s { s with
      readfds := Function.update s.readfds fd false
      pc := .scan (fd + 1) }
  | write (fd c : Nat) (ch : UInt8) : s.pc = .answer fd ch → s.files fd = some c →
      Move srv client s (s.writeByte fd c ch)
  | writeFails (fd : Nat) (ch : UInt8) : s.pc = .answer fd ch → s.files fd = none →
      Move srv client s { s with pc := .exit }

theorem move_of_serverStep {client : Nat} {s' : State} (hs : serverStep srv client s = some s') :
    Move srv client s s' := by
  simp only [serverStep] at hs
  cases hp : s.pc with
  | select =>
    simp only [hp] at hs
    split at hs
    · next hbad =>
      cases hs
      simp only [List.any_eq_true, Bool.and_eq_true, Bool.not_eq_true', List.mem_range] at hbad
      obtain ⟨fd, -, hr, ho⟩ := hbad
      exact .selectFails fd hp hr ho
    · split at hs
      · cases hs
        exact .select hp
      · cases hs
  | scan fd =>
    simp only [hp] at hs
    split at hs
    · next hlt =>
      split at hs
      · next ht =>
        split at hs
        · next heq =>
          subst heq
          cases hb : s.backlog with
          | nil => simp [hb] at hs
          | cons c rest =>
            simp only [hb] at hs
            split at hs
            · next hc =>
              cases hs
              exact .accept c rest hp hb hc.2
            · cases hs
        · next hne =>
          cases hf : s.files fd with
          | none =>
            simp only [hf, Option.some.injEq] at hs
            exact hs ▸ .countFails fd hp hlt ht hne hf
          | some c =>
            simp only [hf, Option.some.injEq] at hs
            exact hs ▸ .count fd c hp hlt ht hne hf
      · cases hs
        exact .skip fd hp
    · cases hs
      exact .scanEnd fd hp
  | accepted fd new =>
    simp only [hp, Option.some.injEq] at hs
    exact hs ▸ .setFd fd new hp
  | counted fd n =>
    simp only [hp] at hs
    cases hf : s.files fd with
    | none =>
      simp only [hf, Option.some.injEq] at hs
      exact hs ▸ .countedFails fd n hp (fun c hc => by simp [hf] at hc)
    | some c =>
      simp only [hf] at hs
      split at hs
      · next h0 =>
        cases hs
        exact .close fd c (h0 ▸ hp) hf
      · next h0 =>
        cases hu : (s.conns c).unread with
        | nil =>
          simp only [hu, Option.some.injEq] at hs
          refine hs ▸ .countedFails fd n hp fun d hd => ?_
          have hcd : c = d := by simpa [hf] using hd
          exact ⟨h0, hcd ▸ hu⟩
        | cons ch bs =>
          simp only [hu, Option.some.injEq] at hs
          exact hs ▸ .read fd c n ch bs hp h0 hf hu
  | removed fd =>
    simp only [hp, Option.some.injEq] at hs
    exact hs ▸ .clearFd fd hp
  | answer fd ch =>
    simp only [hp] at hs
    cases hf : s.files fd with
    | none =>
      simp only [hf, Option.some.injEq] at hs
      exact hs ▸ .writeFails fd ch hp hf
    | some c =>
      simp only [hf, Option.some.injEq] at hs
      exact hs ▸ .write fd c ch hp hf
  | exit => simp [hp] at hs

/-- Two connections are never open under one descriptor, nor one under two. -/
theorem files_inj (h : Inv srv s) {fd fd' c : Nat} (hf : s.files fd = some c)
    (hf' : s.files fd' = some c) : fd = fd' := by
  have h1 := (h.files_iff fd c).mp hf
  have h2 := (h.files_iff fd' c).mp hf'
  rw [h1] at h2
  simpa using h2

/-- A reply is under way only at the connection it was read from. -/
theorem reply_eq_nil (hp : ∀ fd ch, s.pc ≠ .answer fd ch) (c : Nat) : reply s c = [] := by
  unfold reply
  split
  · next fd ch heq => exact absurd heq (hp fd ch)
  · rfl

/-- Between answers, everything read from a connection has been answered. -/
theorem Inv.conn_quiet (h : Inv srv s) (hp : ∀ fd ch, s.pc ≠ .answer fd ch) (c : Nat) :
    ConnInv (s.conns c) s.scanNo [] := reply_eq_nil hp c ▸ h.conn c

theorem inv_select (h : Inv srv s) (hp : s.pc = .select) :
    Inv srv { s with
      testfds := fun fd => s.readfds fd && s.readable srv fd
      pc := .scan 0
      scanNo := s.scanNo + 1 } := by
  refine ⟨h.files_iff, h.files_srv, h.backlog_iff, h.backlog_nodup, h.fresh, ?_, ?_, trivial, ?_⟩
  · intro fd
    have := h.readfds_iff fd
    simpa only [Watched, hp] using this
  · intro fd _ _ ht
    simp only [Bool.and_eq_true, State.readable] at ht
    obtain ⟨-, ht⟩ := ht
    split at ht
    · next heq => exact .inl heq
    · cases hf : s.files fd with
      | none => simp [hf] at ht
      | some c =>
        refine .inr ⟨c, rfl, ?_, ?_⟩
        · have hplace := (h.files_iff fd c).mp hf
          obtain ⟨a, ha⟩ := Option.ne_none_iff_exists'.mp ((h.conn c).opened fd hplace)
          have hle := (h.conn c).accepted a ha
          exact ⟨a, ha, by simp only; omega⟩
        · simpa [hf] using ht
  · intro c
    have hc := h.conn_quiet (by simp [hp]) c
    exact ⟨hc.read, hc.answered, hc.closes, hc.final, hc.served,
      fun a ha => Nat.le_succ_of_le (hc.accepted a ha), hc.opened, hc.waiting⟩

/-- Moves that change the place only. -/
theorem inv_setPc (h : Inv srv s) {pc : Pc} (hr : ∀ c, reply { s with pc := pc } c = reply s c)
    (hw : ∀ fd, Watched srv { s with pc := pc } fd ↔ Watched srv s fd)
    (hn : nextFd s.pc ≤ nextFd pc) (hh : Here srv { s with pc := pc }) :
    Inv srv { s with pc := pc } := by
  refine ⟨h.files_iff, h.files_srv, h.backlog_iff, h.backlog_nodup, h.fresh, ?_, ?_, hh, ?_⟩
  · intro fd
    rw [hw]
    exact h.readfds_iff fd
  · intro fd hlt hnext ht
    exact h.due fd hlt (Nat.le_trans hn hnext) ht
  · intro c
    rw [hr]
    exact h.conn c

theorem inv_scanEnd (h : Inv srv s) {fd : Nat} (hp : s.pc = .scan fd) :
    Inv srv { s with pc := .select } := by
  refine ⟨h.files_iff, h.files_srv, h.backlog_iff, h.backlog_nodup, h.fresh, ?_, ?_, trivial, ?_⟩
  · intro x
    have := h.readfds_iff x
    simpa only [Watched, hp] using this
  · intro x hlt hnext _
    exact absurd hlt (Nat.not_lt.mpr hnext)
  · exact h.conn_quiet (by simp [hp])

theorem inv_skip (h : Inv srv s) {fd : Nat} (hp : s.pc = .scan fd) :
    Inv srv { s with pc := .scan (fd + 1) } := by
  refine inv_setPc h ?_ ?_ ?_ trivial
  · intro c
    simp [reply, hp]
  · intro x
    simp [Watched, hp]
  · simp [nextFd, hp]

theorem inv_count (h : Inv srv s) {fd c : Nat} (hp : s.pc = .scan fd) (hlt : fd < fdSetSize)
    (ht : s.testfds fd = true) (hne : fd ≠ srv) (hf : s.files fd = some c) :
    Inv srv { s with pc := .counted fd (s.conns c).unread.length } := by
  refine inv_setPc h ?_ ?_ ?_ ?_
  · intro d
    simp [reply, hp]
  · intro x
    simp [Watched, hp]
  · simp [nextFd, hp]
  · obtain ⟨d, hd, ha, hdue⟩ :=
      (h.due fd hlt (by simp [nextFd, hp]) ht).resolve_left hne
    have hcd : c = d := by simpa [hf] using hd
    subst hcd
    refine ⟨c, hf, ha, ?_, ?_⟩
    · intro h0
      have hu : (s.conns c).unread = [] := List.length_eq_zero_iff.mp h0
      exact ⟨hdue.resolve_left (fun hn => hn hu), hu⟩
    · intro hn hu
      exact hn (by rw [hu]; rfl)

theorem inv_accept (h : Inv srv s) {client c : Nat} {rest : List Nat} (hp : s.pc = .scan srv)
    (hb : s.backlog = c :: rest) (ho : s.isOpen srv client = false) :
    Inv srv (s.accept srv client c rest) := by
  obtain ⟨hcs, hfree⟩ : client ≠ srv ∧ s.files client = none := by
    simpa [State.isOpen] using ho
  have hplace : (s.conns c).place = .backlog := (h.backlog_iff c).mp (by simp [hb])
  have hnd : c ∉ rest ∧ rest.Nodup := by simpa [hb] using h.backlog_nodup
  have hconns : ∀ {d : Nat}, d ≠ c → (s.accept srv client c rest).conns d = s.conns d :=
    fun hd => Function.update_of_ne hd ..
  have hself : (s.accept srv client c rest).conns c =
      { s.conns c with place := .opened client, acceptedIn := some s.scanNo } :=
    Function.update_self ..
  have hfiles : ∀ {fd : Nat}, fd ≠ client → (s.accept srv client c rest).files fd = s.files fd :=
    fun hd => Function.update_of_ne hd ..
  have hnew : (s.accept srv client c rest).files client = some c := Function.update_self ..
  have hnot : ∀ fd, s.files fd ≠ some c := by
    intro fd hf
    have := (h.files_iff fd c).mp hf
    simp [hplace] at this
  refine ⟨?_, ?_, ?_, hnd.2, h.fresh_setConn (h.lt_clients (by simp [hplace])) _, ?_, ?_, ?_, ?_⟩
  · refine files_iff_update h.files_iff (by simp) ?_ ?_ ?_ fun fd hf => absurd hf (hnot fd)
    · intro d hd
      exact (Option.some.inj hd).symm
    · intro fd hfd
      exact (Place.opened.inj hfd).symm
    · intro d hf
      rw [hfree] at hf
      cases hf
  · rw [hfiles (Ne.symm hcs)]
    exact h.files_srv
  · intro d
    show d ∈ rest ↔ _
    by_cases hd : d = c
    · subst d
      rw [hself]
      simp [hnd.1]
    · rw [hconns hd, ← h.backlog_iff d, hb]
      simp [hd]
  · intro fd
    have hr := h.readfds_iff fd
    simp only [Watched, hp] at hr
    change s.readfds fd = true ↔
      fd = srv ∨ (s.accept srv client c rest).files fd ≠ none ∧ fd ≠ client
    by_cases hfd : fd = client
    · subst fd
      rw [hr]
      simp [hcs, hfree]
    · rw [hfiles hfd, hr]
      simp [hfd]
  · refine h.due_frame (by rw [hp]; exact Nat.le_succ srv) rfl rfl fun fd d _ hf => ?_
    -- a number handed out now was closed, so it is not among those still to be visited
    have hfd : fd ≠ client := by
      rintro rfl
      simp [hfree] at hf
    have hdc : d ≠ c := by
      rintro rfl
      exact hnot fd hf
    exact ⟨(hfiles hfd).trans hf, hconns hdc⟩
  · exact ⟨hcs, by rw [hnew]; simp⟩
  · intro d
    have hc := h.conn_quiet (by simp [hp]) d
    have hr : reply (s.accept srv client c rest) d = [] := rfl
    rw [hr]
    by_cases hd : d = c
    · subst d
      rw [hself]
      refine ⟨hc.read, hc.answered, ?_, by simp, ?_, ?_, by simp, by simp⟩
      · simpa [hplace] using hc.closes
      · intro n hn
        exact absurd hn (by simp [hc.waiting hplace])
      · intro a ha
        cases ha
        exact Nat.le_refl _
    · rw [hconns hd]
      exact hc

/-- The moves that finish a descriptor by entering or removing one in `readfds`. -/
theorem inv_mark (h : Inv srv s) {fd new : Nat} {b : Bool} (hp : ∀ fd ch, s.pc ≠ .answer fd ch)
    (hn : nextFd s.pc = fd + 1)
    (hw : ∀ x, Function.update s.readfds new b x = true ↔ x = srv ∨ s.files x ≠ none) :
    Inv srv { s with
      readfds := Function.update s.readfds new b
      pc := .scan (fd + 1) } := by
  refine ⟨h.files_iff, h.files_srv, h.backlog_iff, h.backlog_nodup, h.fresh, hw, ?_, trivial,
    h.conn_quiet hp⟩
  intro x hlt hnext ht
  exact h.due x hlt (by rw [hn]; exact hnext) ht

theorem inv_setFd (h : Inv srv s) {fd new : Nat} (hp : s.pc = .accepted fd new) :
    Inv srv { s with
      readfds := Function.update s.readfds new true
      pc := .scan (fd + 1) } := by
  have hh := h.here
  simp only [Here, hp] at hh
  refine inv_mark h (by simp [hp]) (by rw [hp]; rfl) ?_
  intro x
  have hr := h.readfds_iff x
  simp only [Watched, hp] at hr
  by_cases hx : x = new
  · subst x
    simp [hh.2]
  · rw [Function.update_of_ne hx, hr]
    simp [hx]

theorem inv_clearFd (h : Inv srv s) {fd : Nat} (hp : s.pc = .removed fd) :
    Inv srv { s with
      readfds := Function.update s.readfds fd false
      pc := .scan (fd + 1) } := by
  have hh := h.here
  simp only [Here, hp] at hh
  refine inv_mark h (by simp [hp]) (by rw [hp]; rfl) ?_
  intro x
  have hr := h.readfds_iff x
  simp only [Watched, hp] at hr
  by_cases hx : x = fd
  · subst x
    simp [hh.1, hh.2]
  · rw [Function.update_of_ne hx, hr]
    simp [hx]

/-- The connection whose bytes were counted. -/
theorem Inv.counted (h : Inv srv s) {fd n c : Nat} (hp : s.pc = .counted fd n)
    (hf : s.files fd = some c) : (s.conns c).AcceptedBefore s.scanNo ∧
      (n = 0 → (s.conns c).peerClosed = true ∧ (s.conns c).unread = []) := by
  have hh := h.here
  simp only [Here, hp] at hh
  obtain ⟨d, hd, ha, h0, -⟩ := hh
  have hcd : c = d := by simpa [hf] using hd
  subst hcd
  exact ⟨ha, h0⟩

theorem inv_close (h : Inv srv s) {fd c : Nat} (hp : s.pc = .counted fd 0)
    (hf : s.files fd = some c) : Inv srv (s.close fd c) := by
  obtain ⟨ha, h0⟩ := h.counted hp hf
  obtain ⟨hclosed, hunread⟩ := h0 rfl
  have hplace := (h.files_iff fd c).mp hf
  have hne : fd ≠ srv := by
    rintro rfl
    simp [h.files_srv] at hf
  have hconns : ∀ {d : Nat}, d ≠ c → (s.close fd c).conns d = s.conns d :=
    fun hd => Function.update_of_ne hd ..
  have hself : (s.close fd c).conns c = { s.conns c with
      place := .closed
      closes := (s.conns c).closes + 1
      servedIn := s.scanNo :: (s.conns c).servedIn } := Function.update_self ..
  have hfiles : ∀ {x : Nat}, x ≠ fd → (s.close fd c).files x = s.files x :=
    fun hx => Function.update_of_ne hx ..
  have hgone : (s.close fd c).files fd = none := Function.update_self ..
  -- only `fd` and the connection `c` change
  refine ⟨?_, ?_, ?_, h.backlog_nodup, h.fresh_setConn (h.lt_clients (by simp [hplace])) _, ?_, ?_,
    ⟨hne, hgone⟩, ?_⟩
  · refine files_iff_update h.files_iff (by simp) (by simp) (by simp) ?_ ?_
    · intro d hd
      exact Option.some.inj (hd.symm.trans hf)
    · intro x hx
      exact files_inj h hx hf
  · rw [hfiles (Ne.symm hne)]
    exact h.files_srv
  · intro d
    show d ∈ s.backlog ↔ _
    by_cases hdc : d = c
    · subst d
      rw [hself, h.backlog_iff, hplace]
      simp
    · rw [hconns hdc]
      exact h.backlog_iff d
  · intro x
    have hr := h.readfds_iff x
    simp only [Watched, hp] at hr
    show s.readfds x = true ↔ x = srv ∨ ((s.close fd c).files x ≠ none ∨ x = fd)
    by_cases hx : x = fd
    · subst x
      rw [hr]
      simp [hf]
    · rw [hfiles hx, hr]
      simp [hx]
  · refine h.due_frame (by rw [hp]; exact Nat.le_refl _) rfl rfl fun x d hnext hxd => ?_
    have hx : x ≠ fd := by
      change fd + 1 ≤ x at hnext
      omega
    have hdc : d ≠ c := by
      rintro rfl
      exact hx (files_inj h hxd hf)
    exact ⟨(hfiles hx).trans hxd, hconns hdc⟩
  · intro d
    have hc := h.conn_quiet (by simp [hp]) d
    have hr : reply (s.close fd c) d = [] := rfl
    rw [hr]
    by_cases hdc : d = c
    · subst d
      rw [hself]
      refine ⟨hc.read, hc.answered, ?_, ?_, ?_, hc.accepted, by simp, by simp⟩
      · have := hc.closes
        simp [hplace] at this
        simp [this]
      · intro _
        refine ⟨hclosed, ?_⟩
        have hlen := List.drop_eq_nil_iff.mp hunread
        exact hc.read.eq_of_length_le hlen
      · intro n hn
        rcases List.mem_cons.mp hn with rfl | hn
        · exact ha
        · exact hc.served n hn
    · rw [hconns hdc]
      exact hc

/-- Moves that serve the open connection `c` and leave it open: only its record and the
place change, and no descriptor still to be visited is concerned. -/
theorem inv_serve (h : Inv srv s) {fd c : Nat} {k : Conn} {pc : Pc} (hf : s.files fd = some c)
    (hk : k.place = (s.conns c).place) (hpc : nextFd s.pc = fd + 1) (hpc' : nextFd pc = fd + 1)
    (hw : ∀ x, Watched srv { s.setConn c k with pc := pc } x ↔ Watched srv s x)
    (hh : Here srv { s.setConn c k with pc := pc })
    (hconn : ∀ d, ConnInv ((s.setConn c k).conns d) s.scanNo
      (reply { s.setConn c k with pc := pc } d)) :
    Inv srv { s.setConn c k with pc := pc } := by
  have hplace := (h.files_iff fd c).mp hf
  have hplaces := setConn_place hk
  refine ⟨?_, h.files_srv, ?_, h.backlog_nodup, h.fresh_setConn (h.lt_clients (by simp [hplace])) k,
    ?_, ?_, hh, hconn⟩
  · intro x d
    simp only [hplaces]
    exact h.files_iff x d
  · intro d
    simp only [hplaces]
    exact h.backlog_iff d
  · intro x
    rw [hw]
    exact h.readfds_iff x
  · refine h.due_frame (by simp only [hpc, hpc']; exact Nat.le_refl _) rfl rfl ?_
    intro x d hnext hxd
    simp only [hpc'] at hnext
    have hdc : d ≠ c := by
      rintro rfl
      have := files_inj h hxd hf
      omega
    exact ⟨hxd, setConn_conns_ne hdc s k⟩

theorem inv_read (h : Inv srv s) {fd c n : Nat} {ch : UInt8} {bs : List UInt8}
    (hp : s.pc = .counted fd n) (hf : s.files fd = some c)
    (hu : (s.conns c).unread = ch :: bs) : Inv srv (s.readByte fd c ch) := by
  obtain ⟨ha, -⟩ := h.counted hp hf
  have hplace := (h.files_iff fd c).mp hf
  refine inv_serve h hf rfl (by simp [nextFd, hp]) rfl (by intro x; simp [Watched, hp])
    ⟨c, hf⟩ ?_
  intro d
  have hc := h.conn_quiet (by simp [hp]) d
  by_cases hdc : d = c
  · subst d
    have hr : reply (s.readByte fd c ch) c = [ch + 1] := if_pos hf
    refine setConn_conns_self s c _ ▸ hr ▸ ⟨?_, ?_, hc.closes, ?_, ?_, hc.accepted, hc.opened, ?_⟩
    · obtain ⟨t, ht⟩ := hc.read
      have hbs : t = ch :: bs := by simpa [Conn.unread, ← ht] using hu
      exact ⟨bs, by simp [← ht, hbs]⟩
    · simpa using hc.answered
    · intro hpl
      exact absurd hpl (by simp [hplace])
    · intro m hm
      rcases List.mem_cons.mp hm with rfl | hm
      · exact ha
      · exact hc.served m hm
    · intro hpl
      exact absurd hpl (by simp [hplace])
  · have hr : reply (s.readByte fd c ch) d = [] := if_neg (by
      show s.files fd ≠ some d
      simp [hf, Ne.symm hdc])
    exact setConn_conns_ne hdc s _ ▸ hr ▸ hc

theorem inv_write (h : Inv srv s) {fd c : Nat} {ch : UInt8} (hp : s.pc = .answer fd ch)
    (hf : s.files fd = some c) : Inv srv (s.writeByte fd c ch) := by
  refine inv_serve h hf rfl (by simp [nextFd, hp]) rfl (by intro x; simp [Watched, hp])
    trivial ?_
  intro d
  have hc := h.conn d
  by_cases hdc : d = c
  · subst d
    have hold : reply s c = [ch + 1] := by simp [reply, hp, hf]
    rw [hold] at hc
    exact setConn_conns_self s c _ ▸ ⟨hc.read, by simpa [reply] using hc.answered, hc.closes,
      hc.final, hc.served, hc.accepted, hc.opened, hc.waiting⟩
  · have hold : reply s d = [] := by simp [reply, hp, hf, Ne.symm hdc]
    rw [hold] at hc
    exact setConn_conns_ne hdc s _ ▸ hc

theorem inv_move (h : Inv srv s) {client : Nat} {s' : State} (hm : Move srv client s s') :
    Inv srv s' := by
  have hh := h.here
  cases hm with
  | selectFails fd hp hr ho =>
    -- every descriptor of the set is open, so `select` does not fail
    have hw := (h.readfds_iff fd).mp hr
    simp only [State.isOpen, Bool.or_eq_false_iff, beq_eq_false_iff_ne, ne_eq,
      Option.isSome_eq_false_iff, Option.isNone_iff_eq_none] at ho
    simp [Watched, hp, ho] at hw
  | select hp => exact inv_select h hp
  | scanEnd fd hp => exact inv_scanEnd h hp
  | skip fd hp => exact inv_skip h hp
  | accept c rest hp hb ho => exact inv_accept h hp hb ho
  | count fd c hp hlt ht hne hf => exact inv_count h hp hlt ht hne hf
  | countFails fd hp hlt ht hne hf =>
    obtain ⟨c, hc, -⟩ := (h.due fd hlt (by simp [nextFd, hp]) ht).resolve_left hne
    simp [hf] at hc
  | setFd fd new hp => exact inv_setFd h hp
  | close fd c hp hf => exact inv_close h hp hf
  | read fd c n ch bs hp hn hf hu => exact inv_read h hp hf hu
  | countedFails fd n hp hbad =>
    simp only [Here, hp] at hh
    obtain ⟨c, hf, -, -, h1⟩ := hh
    obtain ⟨hn, hu⟩ := hbad c hf
    exact absurd hu (h1 hn)
  | clearFd fd hp => exact inv_clearFd h hp
  | write fd c ch hp hf => exact inv_write h hp hf
  | writeFails fd ch hp hf =>
    simp only [Here, hp] at hh
    obtain ⟨c, hc⟩ := hh
    simp [hf] at hc

theorem inv_step (h : Inv srv s) {e : Event} {s' : State} (hs : step srv s e = some s') :
    Inv srv s' := by
  cases e with
  | connect =>
    cases hs
    exact inv_connect h
  | send c b =>
    simp only [step] at hs
    split at hs
    · next ho =>
      cases hs
      simp only [State.clientOpen, Bool.and_eq_true, decide_eq_true_eq, Bool.not_eq_true'] at ho
      exact inv_grows h ho.1 (.send b ho.2)
    · cases hs
  | disconnect c =>
    simp only [step] at hs
    split at hs
    · next ho =>
      cases hs
      simp only [State.clientOpen, Bool.and_eq_true, decide_eq_true_eq, Bool.not_eq_true'] at ho
      exact inv_grows h ho.1 (.close ho.2)
    · cases hs
  | server client => exact inv_move h (move_of_serverStep hs)

theorem inv_reachable (h : (system srv).Reachable s) : Inv srv s := by
  refine h.invariant ?_ ?_
  · rintro _ rfl
    exact inv_initial srv
  · intro s e s' hi hs
    exact inv_step hi hs

/-- The server's next call, `accept` finding the number `client`, ends at `pc`; it leaves `k` as
the connection `c`, and every other connection as it was. -/
def NextCall (srv client : Nat) (s : State) (pc : Pc) (c : Nat) (k : Conn) : Prop :=
  ∃ s', step srv s (.server client) = some s' ∧ s'.pc = pc ∧
    s'.conns = Function.update s.conns c k

/-- The call the server makes next: it accepts the first connection waiting, counts where
`select` found a connection readable, reads where it counted bytes, writes back plus one what
it read, and closes where it counted none, which is where the peer has closed. -/
structure Serves (srv client : Nat) (s : State) : Prop where
  accepts : ∀ c rest, s.pc = .scan srv → srv < fdSetSize → s.testfds srv = true →
    s.backlog = c :: rest → client < fdSetSize → s.isOpen srv client = false →
    NextCall srv client s (.accepted srv client) c
      { s.conns c with place := .opened client, acceptedIn := some s.scanNo }
  counts : ∀ fd, s.pc = .scan fd → fd < fdSetSize → fd ≠ srv → s.testfds fd = true →
    ∃ c, (s.conns c).place = .opened fd ∧
      ((s.conns c).unread ≠ [] ∨ (s.conns c).peerClosed = true) ∧
      NextCall srv client s (.counted fd (s.conns c).unread.length) c (s.conns c)
  reads : ∀ fd nread, s.pc = .counted fd nread → nread ≠ 0 →
    ∃ c ch, (s.conns c).place = .opened fd ∧ (s.conns c).received ++ [ch] <+: (s.conns c).sent ∧
      NextCall srv client s (.answer fd ch) c { s.conns c with
        received := (s.conns c).received ++ [ch]
        servedIn := s.scanNo :: (s.conns c).servedIn }
  writes : ∀ fd ch, s.pc = .answer fd ch → ∃ c, (s.conns c).place = .opened fd ∧
    NextCall srv client s (.scan (fd + 1)) c
      { s.conns c with written := (s.conns c).written ++ [ch + 1] }
  closes : ∀ fd, s.pc = .counted fd 0 →
    ∃ c, (s.conns c).place = .opened fd ∧ (s.conns c).peerClosed = true ∧
      NextCall srv client s (.removed fd) c { s.conns c with
        place := .closed
        closes := 1
        servedIn := s.scanNo :: (s.conns c).servedIn }

theorem Inv.serves (h : Inv srv s) (client : Nat) : Serves srv client s where
  accepts c rest hp hsrv ht hb hlt ho := by
    refine ⟨s.accept srv client c rest, ?_, rfl, rfl⟩
    simp [step, serverStep, hp, hsrv, ht, hb, hlt, ho]
  counts fd hp hlt hne ht := by
    obtain ⟨c, hf, -, hdue⟩ := (h.due fd hlt (by simp [nextFd, hp]) ht).resolve_left hne
    refine ⟨c, (h.files_iff fd c).mp hf, hdue,
      { s with pc := .counted fd (s.conns c).unread.length }, ?_, rfl,
      (Function.update_eq_self c s.conns).symm⟩
    simp [step, serverStep, hp, hlt, ht, hne, hf]
  reads fd nread hp hn := by
    have hh := h.here
    simp only [Here, hp] at hh
    obtain ⟨c, hf, -, -, h1⟩ := hh
    obtain ⟨ch, bs, hu⟩ := List.exists_cons_of_ne_nil (h1 hn)
    refine ⟨c, ch, (h.files_iff fd c).mp hf, ?_, s.readByte fd c ch, ?_, rfl, rfl⟩
    · obtain ⟨t, ht⟩ := (h.conn c).read
      have hbs : t = ch :: bs := by simpa [Conn.unread, ← ht] using hu
      exact ⟨bs, by simp [← ht, hbs]⟩
    · simp only [step, serverStep, hp, hf, hu, if_neg hn]
  writes fd ch hp := by
    have hh := h.here
    simp only [Here, hp] at hh
    obtain ⟨c, hf⟩ := hh
    refine ⟨c, (h.files_iff fd c).mp hf, s.writeByte fd c ch, ?_, rfl, rfl⟩
    simp only [step, serverStep, hp, hf]
  closes fd hp := by
    have hh := h.here
    simp only [Here, hp] at hh
    obtain ⟨c, hf, -, h0, -⟩ := hh
    have hplace := (h.files_iff fd c).mp hf
    have hcloses := (h.conn c).closes
    rw [hplace, if_neg (by simp)] at hcloses
    refine ⟨c, hplace, (h0 trivial).1, s.close fd c, ?_, rfl, ?_⟩
    · simp only [step, serverStep, hp, hf, if_true]
    · simp only [State.close, State.setConn, hcloses]

/-- Under every interleaving the server stays in its loop and answers each connection with
the bytes read from it, each plus one, in order, the last reply being under way while it is
written; what it read is a prefix of what the client sent. A connection is closed at most
once, and then its peer has closed and all its bytes are answered. Between scans the set
holds the listening socket and the connections open, and no connection is read or closed in
the scan that accepted it. The calls that do this are made: see `Serves`. -/
theorem clients_answered (h : (system srv).Reachable s) :
    s.pc ≠ .exit ∧
    (∀ c, (s.conns c).written ++ reply s c = (s.conns c).received.map (· + 1) ∧
      (s.conns c).received <+: (s.conns c).sent) ∧
    (∀ c, (s.conns c).closes = if (s.conns c).place = .closed then 1 else 0) ∧
    (∀ c, (s.conns c).place = .closed → (s.conns c).peerClosed = true ∧
      (s.conns c).written = (s.conns c).sent.map (· + 1)) ∧
    (s.pc = .select → ∀ fd, s.readfds fd = true ↔
      fd = srv ∨ ∃ c, (s.conns c).place = .opened fd) ∧
    (∀ c, ∀ n ∈ (s.conns c).servedIn, ∃ a, (s.conns c).acceptedIn = some a ∧ a < n) ∧
    ∀ client, Serves srv client s := by
  have hi := inv_reachable h
  refine ⟨?_, fun c => ⟨(hi.conn c).answered, (hi.conn c).read⟩, fun c => (hi.conn c).closes,
    ?_, ?_, fun c => (hi.conn c).served, hi.serves⟩
  · intro hp
    have hh := hi.here
    simp [Here, hp] at hh
  · intro c hpl
    obtain ⟨hpeer, hall⟩ := (hi.conn c).final hpl
    refine ⟨hpeer, ?_⟩
    have hr : reply s c = [] := by
      simp only [reply]
      split
      · next fd ch _ =>
        apply if_neg
        intro hf
        have := (hi.files_iff fd c).mp hf
        simp [hpl] at this
      · rfl
    have ha := (hi.conn c).answered
    rw [hr, List.append_nil] at ha
    rw [ha, hall]
  · intro hp fd
    rw [hi.readfds_iff fd]
    simp only [Watched, hp, ← hi.files_iff, Option.ne_none_iff_exists']

/-- A scan that finds nothing more to serve comes to its end: what the server's calls keep
holds there too. -/
theorem scan_ends {P : State → Prop} {s : State} (hP : ∀ s client s', P s →
    serverStep srv client s = some s' → P s') (fd : Nat) (h : P s) (hp : s.pc = .scan fd)
    (ht : ∀ x < fdSetSize, fd ≤ x → s.testfds x = false) : P { s with pc := .select } := by
  by_cases hlt : fd < fdSetSize
  · have hs : serverStep srv 0 s = some { s with pc := .scan (fd + 1) } := by
      simp [serverStep, hp, hlt, ht fd hlt (Nat.le_refl fd)]
    have h' : P { s with pc := .scan (fd + 1) } := hP s 0 _ h hs
    have hend := scan_ends hP (fd + 1) h' rfl (fun x hlt hx => ht x hlt (Nat.le_of_succ_le hx))
    exact hend
  · have hs : serverStep srv 0 s = some { s with pc := .select } := by
      simp [serverStep, hp, hlt]
    exact hP s 0 _ h hs
termination_by fdSetSize - fd

theorem reachable_scanEnd (fd : Nat) (h : (system srv).Reachable s) (hp : s.pc = .scan fd)
    (ht : ∀ x < fdSetSize, fd ≤ x → s.testfds x = false) :
    (system srv).Reachable { s with pc := .select } :=
  scan_ends (fun _ client _ hr hs => hr.step (l := .server client) trivial hs) fd h hp ht

/-- A client sends the bytes 255 and 7 and closes; it is accepted under descriptor 4 in one
scan, answered in the next two and closed in the fourth. -/
theorem clients_answered_one : ∃ s, (system 3).Reachable s ∧ (s.conns 0).sent = [255, 7] ∧
    (s.conns 0).place = .closed ∧ (s.conns 0).closes = 1 ∧ (s.conns 0).written = [0, 8] := by
  have h0 : (system 3).Reachable (initial 3) := .init rfl
  have h1 := h0.replay_get (step 3) (fun _ _ _ hs => hs)
    [.connect, .send 0 255, .server 0, .server 0, .server 0, .server 0, .server 4, .server 0]
    (by decide +kernel)
  have h2 := reachable_scanEnd 4 h1 (by decide +kernel) (by decide +kernel)
  have h3 := h2.replay_get (step 3) (fun _ _ _ hs => hs)
    [.server 0, .server 0, .server 0, .server 0, .server 0, .server 0, .server 0, .server 0]
    (by decide +kernel)
  have h4 := reachable_scanEnd 5 h3 (by decide +kernel) (by decide +kernel)
  have h5 := h4.replay_get (step 3) (fun _ _ _ hs => hs)
    [.send 0 7, .disconnect 0, .server 0, .server 0, .server 0, .server 0, .server 0, .server 0,
      .server 0, .server 0] (by decide +kernel)
  have h6 := reachable_scanEnd 5 h5 (by decide +kernel) (by decide +kernel)
  have h7 := h6.replay_get (step 3) (fun _ _ _ hs => hs)
    [.server 0, .server 0, .server 0, .server 0, .server 0, .server 0, .server 0]
    (by decide +kernel)
  obtain ⟨-, -, hcloses, hfinal, -⟩ := clients_answered h7
  generalize hs : Option.get _ _ = s at h7 hcloses hfinal
  have hsent : (s.conns 0).sent = [255, 7] := by
    rw [← hs]
    decide +kernel
  have hplace : (s.conns 0).place = .closed := by
    rw [← hs]
    decide +kernel
  have hone := hcloses 0
  have hall := (hfinal 0 hplace).2
  rw [hplace, if_pos rfl] at hone
  rw [hsent] at hall
  exact ⟨s, h7, hsent, hplace, hone, hall⟩

end BaseCode.SelectServer
