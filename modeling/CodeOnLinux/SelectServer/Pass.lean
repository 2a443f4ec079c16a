import CodeOnLinux.Foundation.Transition
import Mathlib.Data.Finset.Basic

/-!
# The server with `select`: `03_select_svr_multi_access`

The server watches the descriptors in `savefds`. One pass of its loop asks `select` which of them
are ready, accepts a client if the listening socket is, and scans from `sockfd + 1` up to `maxfd`,
receiving from each ready descriptor and sending the text back. A descriptor whose `recv` or `send`
fails is dropped. `accept` may raise `maxfd`, and a drop lowers it if the descriptor is the top
one, while the scan is going on.

A `fd_set` is the finite set of its bits. The answers of the system in one pass are a `Pass`; a
pass in which `select` or `accept` fails leaves the loop, so there is no state after it. What the
bytes of a message are does not matter to the sets and is left out here.

Along with the variables of the source a state has the descriptors open in the process, those that
`accept` has returned, and those that were dropped.
-/

namespace CodeOnLinux

namespace SelectServer

open Transition

/-- What outlives a pass of the loop. -/
structure State where
  /-- `savefds` -/
  savefds : Finset ℕ
  /-- `maxfd` -/
  maxfd : ℕ
  /-- The open descriptors. -/
  opened : Finset ℕ
  /-- Not in the source: the descriptors that `accept` returned. -/
  accepted : Finset ℕ
  /-- Not in the source: those that the server has removed from the set. -/
  dropped : Finset ℕ

/-- The answers of the system in one pass. -/
structure Pass where
  /-- What `select` leaves in `readfds`; nothing after a timeout. -/
  ready : Finset ℕ
  /-- The descriptor that `accept` returns, if it is called. -/
  newfd : Option ℕ
  /-- The result of `recv` for each descriptor. -/
  recv : ℕ → ℤ
  /-- The result of `send` for each descriptor. -/
  send : ℕ → ℤ

/-- The state at the head of the loop. `FD_ZERO` is applied to `readfds`, so `savefds` keeps what
the stack held, `garbage`, besides `sockfd`; `opened` are the other open descriptors. -/
def init (sockfd : ℕ) (garbage opened : Finset ℕ) : State where
  savefds := insert sockfd garbage
  maxfd := sockfd + 1
  opened := insert sockfd opened
  accepted := ∅
  dropped := ∅

def State.accept (s : State) (newfd : ℕ) : State where
  savefds := insert newfd s.savefds
  maxfd := if s.maxfd ≤ newfd then newfd + 1 else s.maxfd
  opened := insert newfd s.opened
  accepted := insert newfd s.accepted
  dropped := s.dropped

/-- `FD_CLR(i, &savefds)` and the update of `maxfd`; the descriptor stays open. -/
def State.drop (s : State) (i : ℕ) : State :=
  { s with
    savefds := s.savefds.erase i
    maxfd := if i = s.maxfd - 1 then s.maxfd - 1 else s.maxfd
    dropped := insert i s.dropped }

theorem State.drop_maxfd_le (s : State) (i : ℕ) : (s.drop i).maxfd ≤ s.maxfd := by
  rw [State.drop]
  split
  · exact Nat.sub_le _ _
  · exact le_refl _

/-- The body of the scan for a descriptor that is ready. -/
def serve (p : Pass) (i : ℕ) (s : State) : State :=
  if p.recv i ≤ 0 then s.drop i
  else if p.send i ≤ 0 then s.drop i
  else s

/-- The scan from `i` on, and the descriptors passed to `recv` in order. The first argument is at
least `maxfd - i`; since `maxfd` does not grow, the test `i < maxfd` fails before it is used up. -/
def scan (p : Pass) : ℕ → ℕ → State → State × List ℕ
  | 0, _, s => (s, [])
  | n + 1, i, s =>
    if i < s.maxfd then
      if i ∈ p.ready then
        ((scan p n (i + 1) (serve p i s)).1, i :: (scan p n (i + 1) (serve p i s)).2)
      else scan p n (i + 1) s
    else (s, [])

/-- The `if(FD_ISSET(sockfd, &readfds))` of a pass. `accept` returns a descriptor that is not
open. -/
def acceptNew (sockfd : ℕ) (p : Pass) (s : State) : Option State :=
  if sockfd ∈ p.ready then
    p.newfd.bind fun newfd ↦ guarded (newfd ∉ s.opened) (s.accept newfd)
  else some s

/-- One pass. What is ready was watched and is below `maxfd`. -/
def pass (sockfd : ℕ) (s : State) (p : Pass) : Option (State × List ℕ) :=
  if p.ready ⊆ s.savefds ∧ ∀ fd ∈ p.ready, fd < s.maxfd then
    (acceptNew sockfd p s).map fun s ↦ scan p s.maxfd (sockfd + 1) s
  else none

def step (sockfd : ℕ) (s : State) (p : Pass) : Option State := (pass sockfd s p).map Prod.fst

/-- The clients that `accept` has returned and the server has not dropped. -/
def State.clients (s : State) : Finset ℕ := s.accepted \ s.dropped

theorem pass_eq_some {sockfd : ℕ} {s t : State} {p : Pass} {received : List ℕ} :
    pass sockfd s p = some (t, received) ↔
      (p.ready ⊆ s.savefds ∧ ∀ fd ∈ p.ready, fd < s.maxfd) ∧
        ∃ u, acceptNew sockfd p s = some u ∧ scan p u.maxfd (sockfd + 1) u = (t, received) := by
  rw [pass, Option.ite_none_right_eq_some, Option.map_eq_some_iff]

theorem step_eq_some {sockfd : ℕ} {s t : State} {p : Pass} :
    step sockfd s p = some t ↔ ∃ received, pass sockfd s p = some (t, received) := by
  rw [step, Option.map_eq_some_iff]
  constructor
  · rintro ⟨⟨u, received⟩, hpass, rfl⟩
    exact ⟨received, hpass⟩
  · rintro ⟨received, hpass⟩
    exact ⟨(t, received), hpass, rfl⟩

end SelectServer

end CodeOnLinux
