import BaseCode.Epoll.Frames
import BaseCode.Epoll.Thread
import BaseCode.Foundation.Runs

/-!
# The registry and the open descriptors

Runs of `base_epoll_create`, `base_epoll_ctl`, `base_epoll_close` and dispatcher threads, with
the kernel free to hand out any number that is not open. A dispatcher leaves its loop in one
step and closes its epoll in a later one, and other calls may come in between. The list is to
hold each open epoll once and no closed one. A dispatcher that closes its epoll behind the
registry's back breaks this, and so does a creation whose list node cannot be allocated;
nothing else does.
-/

namespace BaseCode.Epoll
open Foundation Comm

variable {κ : Type}

/-- The module together with the dispatchers, those in their loop and those that have left it
and not yet closed their epoll. `returned` collects what `base_epoll_create` has returned so far,
each number with the instance it stood for. -/
structure World (κ : Type) where
  sys : Sys κ
  threads : List Int
  leaving : List Int
  returned : List (Int × Nat)

inductive Call (κ : Type)
  | create (o : Sys.CreateOutcome)
  | ctl (f₁ f₂ : KeyFuncs κ) (key : κ) (o : Sys.CtlOutcome) (epfd : Int) (op : CtlOp)
      (eventFd : Int) (arg : EventArg)
  | close (epfd : Int)
  | start (eplfd : Int)
  | turn (eplfd : Int) (wait : Option (List Fetched))
  /-- What a dispatcher does after its loop. -/
  | exit (eplfd : Int)

namespace World

def empty : World κ := ⟨.empty, [], [], []⟩

/-- The kernel returns no number that is open; `base_epoll_ctl` asserts its arguments; a thread
takes turns while it is in its loop and exits once it has left it. -/
def Allowed (w : World κ) : Call κ → Prop
  | .create o => w.sys.kernel.epollOf o.eplfd = none
  | .ctl _ _ _ _ epfd _ eventFd _ => 0 < epfd ∧ 0 < eventFd
  | .close _ => True
  | .start _ => True
  | .turn eplfd _ => eplfd ∈ w.threads
  | .exit eplfd => eplfd ∈ w.leaving

def next (w : World κ) : Call κ → World κ
  | .create o =>
    let r := w.sys.baseEpollCreate o
    { w with
      sys := r.2
      returned := if 0 < r.1 then (r.1, w.sys.kernel.instances) :: w.returned else w.returned }
  | .ctl f₁ f₂ key o epfd op eventFd arg =>
    { w with sys := (w.sys.baseEpollCtl f₁ f₂ key o epfd op eventFd arg).2 }
  | .close epfd => { w with sys := w.sys.baseEpollClose epfd }
  | .start eplfd => { w with threads := eplfd :: w.threads }
  | .turn eplfd wait =>
    if (Epoll.turn wait).2 then
      { w with threads := w.threads.erase eplfd, leaving := eplfd :: w.leaving }
    else w
  | .exit eplfd =>
    { w with sys := w.sys.threadExit eplfd, leaving := w.leaving.erase eplfd }

end World

def registrySystem : System (World κ) (Call κ) where
  Init w := w = .empty
  Step w c w' := w.Allowed c ∧ w' = w.next c

/-- The list holds each open descriptor that was returned exactly once, every node stands for
an open descriptor, and the node found for a number is the one of the instance it denotes. -/
structure RegistryMatches (w : World κ) : Prop where
  open_once : ∀ fd i, (fd, i) ∈ w.returned → w.sys.kernel.epollOf fd = some i →
    (w.sys.epollList.map EpollNode.epollFd).count fd = 1
  listed_open : ∀ n ∈ w.sys.epollList, w.sys.kernel.epollOf n.epollFd = some n.inst
  selected : ∀ epfd n, w.sys.findEpoll epfd = some n →
    w.sys.kernel.epollOf epfd = some n.inst

/-- What a call has to avoid: a creation that got its other memory gets its list node too, and
when a dispatcher closes its descriptor at last, no node of the registry has that number. -/
def LeavesRegistry (w : World κ) : Call κ → Prop
  | .create o => 0 < o.eplfd → o.hashOk = true → o.tableOk = true → o.epollOk = true →
      o.nodeOk = true
  | .exit eplfd => ∀ n ∈ w.sys.epollList, n.epollFd ≠ eplfd
  | _ => True

instance (w : World κ) : ∀ c : Call κ, Decidable (LeavesRegistry w c)
  | .create _ => inferInstanceAs (Decidable (_ → _ → _ → _ → _))
  | .exit _ => inferInstanceAs (Decidable (∀ _ ∈ _, _))
  | .ctl .. | .close _ | .start _ | .turn _ _ => .isTrue trivial

/-- The inductive form: listed descriptors are positive, open and distinct, and every positive
open epoll descriptor is listed. -/
structure Linked (s : Sys κ) : Prop where
  listed : ∀ n ∈ s.epollList, 0 < n.epollFd ∧ s.kernel.epollOf n.epollFd = some n.inst
  nodup : (s.epollList.map EpollNode.epollFd).Nodup
  all : ∀ fd i, 0 < fd → s.kernel.epollOf fd = some i → ∃ n ∈ s.epollList, n.epollFd = fd

namespace Linked

variable {s s' : Sys κ}

theorem of_same (h : Linked s) (hl : s'.epollList = s.epollList)
    (he : s'.kernel.epollOf = s.kernel.epollOf) : Linked s' := by
  refine ⟨?_, ?_, ?_⟩
  · intro n hn
    rw [he]
    exact h.listed n (hl ▸ hn)
  · rw [hl]
    exact h.nodup
  · intro fd i hfd hi
    rw [hl]
    exact h.all fd i hfd (he ▸ hi)

/-- Closing a number that is not listed. -/
theorem close (h : Linked s) {fd : Int} (hn : ∀ n ∈ s.epollList, n.epollFd ≠ fd)
    (hl : s'.epollList = s.epollList)
    (he : s'.kernel.epollOf = Function.update s.kernel.epollOf fd none) : Linked s' := by
  refine ⟨?_, ?_, ?_⟩
  · intro n hmem
    rw [hl] at hmem
    rw [he, Function.update_of_ne (hn n hmem)]
    exact h.listed n hmem
  · rw [hl]
    exact h.nodup
  · intro x i hx hi
    rw [he] at hi
    by_cases hxf : x = fd
    · rw [hxf, Function.update_self] at hi
      cases hi
    · rw [Function.update_of_ne hxf] at hi
      rw [hl]
      exact h.all x i hx hi

theorem findEpoll_none {fd : Int} (hf : s.findEpoll fd = none) :
    ∀ n ∈ s.epollList, n.epollFd ≠ fd := by
  intro n hn
  have := List.find?_eq_none.mp hf n hn
  simpa using this

/-- A creation: the new number was not open, so no node has it. -/
theorem create (h : Linked s) {o : Sys.CreateOutcome}
    (hfree : s.kernel.epollOf o.eplfd = none)
    (hok : 0 < o.eplfd → o.hashOk = true → o.tableOk = true → o.epollOk = true →
      o.nodeOk = true) : Linked (s.baseEpollCreate o).2 := by
  have hnew : ∀ n ∈ s.epollList, n.epollFd ≠ o.eplfd := by
    intro n hn heq
    have hopen := (h.listed n hn).2
    rw [heq, hfree] at hopen
    cases hopen
  have hends := Sys.create_ends s o
  generalize s.baseEpollCreate o = r at hends
  cases hends with
  | refused hle =>
    -- the number is not returned; it is open only if it is zero
    refine ⟨?_, h.nodup, ?_⟩
    · intro n hn
      exact ⟨(h.listed n hn).1, (Kernel.epollCreate_of_ne (hnew n hn)).trans (h.listed n hn).2⟩
    · intro fd i hfd hi
      exact h.all fd i hfd ((Kernel.epollCreate_of_ne (by omega)).symm.trans hi)
  | noHash => exact h.of_same rfl (Kernel.epollCreate_close hfree)
  | noEpoll => exact h.of_same rfl (Kernel.epollCreate_close hfree)
  | noNode hgt hh ht he hn =>
    rw [hok hgt hh ht he] at hn
    cases hn
  | created hgt =>
    refine ⟨?_, ?_, ?_⟩
    · intro n hn
      rcases List.mem_append.mp hn with hn | hn
      · exact ⟨(h.listed n hn).1, (Kernel.epollCreate_of_ne (hnew n hn)).trans (h.listed n hn).2⟩
      · rw [List.mem_singleton] at hn
        subst hn
        exact ⟨hgt, Kernel.epollCreate_self (Int.le_of_lt hgt)⟩
    · rw [List.map_append, List.map_singleton, List.nodup_append]
      refine ⟨h.nodup, List.nodup_singleton _, ?_⟩
      intro a ha b hb
      obtain ⟨n, hn, rfl⟩ := List.mem_map.mp ha
      rw [List.mem_singleton] at hb
      exact hb ▸ hnew n hn
    · intro fd i hfd hi
      by_cases hfo : fd = o.eplfd
      · exact ⟨_, List.mem_append_right _ (List.mem_singleton_self _), hfo.symm⟩
      · have hi' : s.kernel.epollOf fd = some i := (Kernel.epollCreate_of_ne hfo).symm.trans hi
        obtain ⟨n, hn, hnf⟩ := h.all fd i hfd hi'
        exact ⟨n, List.mem_append_left _ hn, hnf⟩

theorem baseEpollClose (h : Linked s) (epfd : Int) : Linked (s.baseEpollClose epfd) := by
  obtain ⟨-, he⟩ | ⟨hf, he⟩ | ⟨n, hf, he⟩ := Sys.close_cases s epfd
  · rw [he]
    exact h
  · rw [he]
    obtain ⟨-, he⟩ | ⟨-, he⟩ := Sys.safeClose_cases s epfd
    · rw [he]
      exact h.close (findEpoll_none hf) rfl rfl
    · rw [he]
      exact h
  · rw [he]
    obtain ⟨hmem, hfd⟩ := Sys.findEpoll_spec hf
    have hpos : 0 < epfd := hfd ▸ (h.listed n hmem).1
    simp only [Sys.safeClose, hpos, if_true, Sys.unlinkEpoll, Sys.freeHash_epollList,
      Sys.freeHash_kernel]
    have hsub : ∀ m ∈ s.epollList.eraseP fun n => n.epollFd == epfd, m ∈ s.epollList :=
      fun m hm => List.mem_of_mem_eraseP hm
    have hne : ∀ m ∈ s.epollList.eraseP fun n => n.epollFd == epfd, m.epollFd ≠ epfd := by
      intro m hm heq
      have herase : (s.epollList.map EpollNode.epollFd).erase epfd =
          (s.epollList.eraseP fun n => n.epollFd == epfd).map EpollNode.epollFd := by
        rw [List.erase_eq_eraseP', List.eraseP_map]
        rfl
      have hin : epfd ∈ (s.epollList.map EpollNode.epollFd).erase epfd := by
        rw [herase]
        exact List.mem_map.mpr ⟨m, hm, heq⟩
      exact h.nodup.not_mem_erase hin
    refine ⟨?_, ?_, ?_⟩
    · intro m hm
      simp only [Kernel.close]
      rw [Function.update_of_ne (hne m hm)]
      exact h.listed m (hsub m hm)
    · exact h.nodup.sublist (List.Sublist.map _ List.eraseP_sublist)
    · intro fd i hx hi
      simp only [Kernel.close] at hi
      by_cases hxf : fd = epfd
      · rw [hxf, Function.update_self] at hi
        cases hi
      · rw [Function.update_of_ne hxf] at hi
        obtain ⟨m, hm, hmf⟩ := h.all fd i hx hi
        refine ⟨m, ?_, hmf⟩
        exact (List.mem_eraseP_of_neg (by simpa [hmf] using hxf)).mpr hm

end Linked

theorem linked_next {w : World κ} {c : Call κ} (h : Linked w.sys) (ha : w.Allowed c)
    (hok : LeavesRegistry w c) : Linked (w.next c).sys := by
  cases c with
  | create o => exact h.create ha hok
  | ctl f₁ f₂ key o epfd op eventFd arg =>
    have hsame : Sys.SameRegistry w.sys
        (w.sys.baseEpollCtl f₁ f₂ key o epfd op eventFd arg).2 := Sys.sameRegistry_ctl
    exact h.of_same hsame.epollList hsame.epollOf
  | close epfd => exact h.baseEpollClose epfd
  | start eplfd => exact h
  | turn eplfd wait =>
    have hsys : (w.next (.turn eplfd wait)).sys = w.sys := by
      simp only [World.next]
      split <;> rfl
    rw [hsys]
    exact h
  | exit eplfd => exact h.close hok rfl rfl

theorem Linked.registryMatches {w : World κ} (h : Linked w.sys)
    (hr : ∀ fd i, (fd, i) ∈ w.returned → 0 < fd) : RegistryMatches w where
  open_once fd i hm hi := by
    obtain ⟨n, hn, hnf⟩ := h.all fd i (hr fd i hm) hi
    exact List.count_eq_one_of_mem h.nodup (List.mem_map.mpr ⟨n, hn, hnf⟩)
  listed_open n hn := (h.listed n hn).2
  selected epfd n hf := by
    obtain ⟨hmem, hfd⟩ := Sys.findEpoll_spec hf
    exact hfd ▸ (h.listed n hmem).2

theorem returned_pos {w : World κ} {c : Call κ} (h : ∀ fd i, (fd, i) ∈ w.returned → 0 < fd) :
    ∀ fd i, (fd, i) ∈ (w.next c).returned → 0 < fd := by
  intro fd i hm
  cases c with
  | create o =>
    simp only [World.next] at hm
    split at hm
    · next hpos =>
      rcases List.mem_cons.mp hm with heq | hm
      · cases heq
        exact hpos
      · exact h fd i hm
    · exact h fd i hm
  | ctl f₁ f₂ key o epfd op eventFd arg => exact h fd i hm
  | close epfd => exact h fd i hm
  | start eplfd => exact h fd i hm
  | turn eplfd wait =>
    simp only [World.next] at hm
    split at hm
    · exact h fd i hm
    · exact h fd i hm
  | exit eplfd => exact h fd i hm

end BaseCode.Epoll
