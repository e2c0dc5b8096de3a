import BaseCode.Epoll.Registry

/-!
# The dispatcher thread

`epoll_thread` of `src/epoll.c`: it fetches a batch of events, calls back for each readable
one, and leaves its loop on a wait error, on `EPOLLHUP` and on `EPOLLERR`. On its way out it
closes the epoll descriptor itself.
-/

namespace BaseCode.Epoll

/-- One `struct epoll_event` of a batch: the bits that are looked at and `data.ptr`. -/
structure Fetched where
  epollin : Bool
  epollhup : Bool
  epollerr : Bool
  ptr : Option Nat
  deriving DecidableEq, Repr

/-- What the loop does with one event. -/
inductive Reaction
  | callback (p : Nat)
  | next
  | exit
  deriving DecidableEq, Repr

def react (e : Fetched) : Reaction :=
  if e.epollin then
    match e.ptr with
    | some p => .callback p
    | none => .next
  else if e.epollhup then .exit
  else if e.epollerr then .exit
  else .next

/-- The blocks called back for a batch, and whether the thread exits. -/
def dispatch : List Fetched → List Nat × Bool
  | [] => ([], false)
  | e :: es =>
    match react e with
    | .callback p => (p :: (dispatch es).1, (dispatch es).2)
    | .next => dispatch es
    | .exit => ([], true)

/-- One turn of the loop; `none` is an error of `base_epoll_wait`. -/
def turn : Option (List Fetched) → List Nat × Bool
  | none => ([], true)
  | some es => dispatch es

/-- `close(eplfd)` at the thread's exit. -/
def Sys.threadExit {κ : Type} (s : Sys κ) (eplfd : Int) : Sys κ :=
  { s with kernel := s.kernel.close eplfd }

end BaseCode.Epoll
