import CodeOnLinux.Echo.Trim
import CodeOnLinux.Foundation.Transition
import Mathlib.Data.Finset.Basic

/-!
# The multi-client epoll server: `03_epoll_svr_multi_access`

`epoll_wait` fills the first `ret` entries of `re`; a `for` loop then goes through the entries from
the front, as long as the index is below `ret`. An entry points to `sockfd_info` or to the
`client_t` of a client. Its body uses `ret` for the results of its own calls, so the bound of the
loop changes while it runs, and entries behind those of the last `epoll_wait` may be read: they are
what earlier calls left there, or what the stack held.

One iteration is `State.advance`; the environment's part in it is an `Answer`. A record can be read
at any time, but a read or a second `free` of a record that is not allocated sets `misused`, and
`free` leaves an arbitrary value in the `fd` field. Clients are numbered in the order in which they
are accepted; `accepted`, `dropped`, `owner`, `holder`, `frees` and `closes` are ghosts.
-/

namespace CodeOnLinux

namespace EpollServer

open Transition

/-- The length of `re`. -/
def maxEvents : ℕ := 128

/-- `re[i].data.ptr`; a `client_t` is named by its address. -/
inductive Ptr
  | sockfdInfo
  | client (p : ℕ)
  deriving DecidableEq

/-- An entry of `re`. -/
structure Event where
  /-- `events & EPOLLIN` -/
  epollin : Bool
  /-- `data.ptr` -/
  ptr : Ptr
  deriving DecidableEq

inductive Phase
  /-- At the head of the `for` loop, which is over when the index has reached `ret`. -/
  | looping
  /-- The loop was left by a `break`. -/
  | broke
  /-- At `err2` or `err3`: the process ends. -/
  | failed
  /-- It has left the defined behaviour of C, by a null pointer or out of the message buffer. -/
  | crashed (f : Fault)
  deriving DecidableEq

/-- What outlives a batch: the records, the descriptors and the epoll set. -/
structure Resources where
  /-- The `fd` field of the records; `ip` and `port` only go to the log. -/
  fd : ℕ → ℤ
  /-- The records that `malloc` gave and `free` did not take back. -/
  allocated : Finset ℕ
  /-- The open descriptors. -/
  opened : Finset ℤ
  /-- The epoll set: `data.ptr` of each registered descriptor. -/
  registered : ℤ → Option Ptr
  /-- A record was read or freed while it was not allocated. -/
  misused : Bool
  /-- How many clients were accepted. -/
  accepted : ℕ
  /-- The clients whose connections the server has given up. -/
  dropped : Finset ℕ
  /-- The client that a record belongs to or did last. -/
  owner : ℕ → Option ℕ
  /-- The client that a descriptor belongs to or did last. -/
  holder : ℤ → Option ℕ
  /-- How often the record of a client was freed. -/
  frees : ℕ → ℕ
  /-- How often the descriptor of a client was closed. -/
  closes : ℕ → ℕ

/-- The process in its main loop. -/
structure State extends Resources where
  /-- The array that `epoll_wait` fills. -/
  re : ℕ → Event
  /-- `newfd` -/
  newfd : ℤ
  /-- The variable of the loop over the events. -/
  i : ℕ
  /-- Its bound, which the calls in the loop overwrite. -/
  ret : ℤ
  /-- Where the process is. -/
  phase : Phase
  /-- What the last `epoll_wait` returned. -/
  count : ℕ
  /-- The indices of `re` that were read since. -/
  visited : List ℕ

/-! ## Memory and descriptors -/

namespace Resources

/-- Follow a pointer to the record at `p`. -/
def touch (r : Resources) (p : ℕ) : Resources :=
  { r with misused := r.misused || decide (p ∉ r.allocated) }

/-- `accept` has returned a new descriptor. -/
def accept (r : Resources) (newfd : ℤ) : Resources :=
  { r with opened := insert newfd r.opened }

/-- `client_t` of the next client, with its descriptor stored in it. -/
def store (r : Resources) (p : ℕ) (newfd : ℤ) : Resources where
  __ := r
  fd := Function.update r.fd p newfd
  allocated := insert p r.allocated
  accepted := r.accepted + 1
  owner := Function.update r.owner p (some r.accepted)
  holder := Function.update r.holder newfd (some r.accepted)

/-- `EPOLL_CTL_ADD` -/
def register (r : Resources) (fd : ℤ) (ptr : Ptr) : Resources :=
  { r with registered := Function.update r.registered fd (some ptr) }

/-- One more event for the client in question, if there is one. -/
def tally (n : ℕ → ℕ) : Option ℕ → ℕ → ℕ
  | none => n
  | some c => Function.update n c (n c + 1)

/-- `free`, which leaves `garbage` in the `fd` field. -/
def free (r : Resources) (p : ℕ) (garbage : ℤ) : Resources where
  __ := r.touch p
  fd := Function.update r.fd p garbage
  allocated := r.allocated.erase p
  frees := tally r.frees (r.owner p)

/-- `close` takes the descriptor out of the epoll set, too. -/
def close (r : Resources) (fd : ℤ) : Resources where
  __ := r
  opened := r.opened.erase fd
  registered := Function.update r.registered fd none
  closes := tally r.closes (r.holder fd)

/-- `EPOLL_CTL_DEL` succeeds if the descriptor is open and registered. -/
def canDelete (r : Resources) (fd : ℤ) : Bool := decide (fd ∈ r.opened ∧ r.registered fd ≠ none)

def delete (r : Resources) (fd : ℤ) : Resources :=
  { r with registered := Function.update r.registered fd none }

def markDropped (r : Resources) (p : ℕ) : Resources :=
  { r with dropped := (r.owner p).elim r.dropped fun c ↦ insert c r.dropped }

/-- `recv` has returned `0` or `-1`: delete, free, and then close. -/
def dropAfterRecv (r : Resources) (p : ℕ) (garbage : ℤ) : Resources :=
  if r.canDelete (r.fd p) then
    let r := ((r.markDropped p).delete (r.fd p)).free p garbage
    -- the descriptor to close is read from the record that was freed
    (r.touch p).close (r.fd p)
  else (r.markDropped p).free p garbage

/-- `send` has returned `-1`: close and free. `EPOLL_CTL_DEL`, between them, fails because the
descriptor is closed. -/
def dropAfterSend (r : Resources) (p : ℕ) (garbage : ℤ) : Resources :=
  ((r.markDropped p).close (r.fd p)).free p garbage

end Resources

/-! ## The body of the loop -/

/-- The outcomes of the calls in one iteration. -/
structure Answer where
  /-- The new descriptor; `none` is a failure. -/
  accept : Option ℤ
  /-- The new record; `none` is NULL. -/
  malloc : Option ℕ
  /-- `EPOLL_CTL_ADD` -/
  add : Bool
  /-- The bytes received, of which the buffer takes at most `SIZE`; `none` is a failure. -/
  recv : Option Bytes
  /-- How many bytes the socket takes; `none` is a failure. -/
  send : Option ℕ
  /-- What `free` leaves behind. -/
  garbage : ℤ

/-- On to the next entry. -/
def State.next (s : State) (ret : ℤ) : State := { s with i := s.i + 1, ret := ret }

/-- The listening socket is ready: `accept`, `malloc` and `EPOLL_CTL_ADD`. -/
def State.connect (s : State) (a : Answer) : State :=
  match a.accept with
  | none => { s with newfd := -1, phase := .failed }
  | some newfd =>
    let s := { s with toResources := s.accept newfd, newfd := newfd }
    match a.malloc with
    -- the result is not checked before `memset`
    | none => { s with phase := .crashed .nullPointer }
    | some p =>
      let s := { s with toResources := s.store p newfd }
      if a.add then { s with toResources := s.register newfd (.client p) }.next 0
      else { s with phase := .failed }

/-- What `recv` stores in the buffer. -/
def Answer.text (a : Answer) : Bytes := (a.recv.getD []).take Echo.size

/-- A client is ready: receive, trim, send back. -/
def State.relay (s : State) (p : ℕ) (a : Answer) : State :=
  if a.text = [] then
    { s with toResources := s.dropAfterRecv p a.garbage, phase := .broke }
  else
    match Echo.reply a.text with
    | .error f => { s with phase := .crashed f }
    | .ok reply =>
      match a.send with
      | none => { s with toResources := s.dropAfterSend p a.garbage, phase := .broke }
      | some k => s.next (min k reply.length : ℕ)

/-- One iteration of the loop. -/
def State.advance (sockfd : ℤ) (s : State) (a : Answer) : State :=
  let event := s.re s.i
  let s := { s with visited := s.visited ++ [s.i] }
  if event.epollin then
    match event.ptr with
    | .sockfdInfo => s.connect a
    | .client p =>
      let s := { s with toResources := s.touch p }
      if s.fd p = sockfd then s.connect a else s.relay p a
  else s.next s.ret

/-! ## Batches and runs -/

/-- `epoll_wait` has returned `n`. -/
def State.begin (s : State) (n : ℕ) : State :=
  { s with i := 0, ret := n, count := n, phase := .looping, visited := [] }

/-- The loop, with the index at most `left` steps from the end of `re`. -/
def scan (sockfd : ℤ) (answers : ℕ → Answer) : ℕ → State → State
  | 0, s => s
  | left + 1, s =>
    if s.phase = .looping ∧ s.i < s.ret then
      scan sockfd answers left (s.advance sockfd (answers s.i))
    else s

/-- What `epoll_wait` stores: an event for each descriptor that is ready. -/
def State.fill (s : State) (ready : List (ℤ × Bool)) : State :=
  { s with re := fun j ↦
      match ready[j]? with
      | none => s.re j
      | some (fd, epollin) => ⟨epollin, (s.registered fd).getD .sockfdInfo⟩ }

theorem State.fill_re (s : State) {ready : List (ℤ × Bool)} {j : ℕ} {e : ℤ × Bool}
    (h : ready[j]? = some e) :
    (s.fill ready).re j = ⟨e.2, (s.registered e.1).getD .sockfdInfo⟩ := by
  simp [State.fill, h]

inductive Label
  | wait (ready : List (ℤ × Bool))
  | waitFails
  | event (a : Answer)

/-- The server is about to call `epoll_wait`. -/
def State.Waiting (s : State) : Prop := s.phase = .broke ∨ s.phase = .looping ∧ s.ret ≤ s.i

instance (s : State) : Decidable s.Waiting := inferInstanceAs (Decidable (_ ∨ _))

/-- What the system may answer. -/
structure Plausible (s : State) (a : Answer) : Prop where
  /-- A new descriptor is not open. -/
  accept : ∀ newfd ∈ a.accept, newfd ∉ s.opened
  /-- A new record is not allocated. -/
  malloc : ∀ p ∈ a.malloc, p ∉ s.allocated

instance (s : State) (a : Answer) : Decidable (Plausible s a) :=
  decidable_of_iff ((∀ newfd ∈ a.accept, newfd ∉ s.opened) ∧ ∀ p ∈ a.malloc, p ∉ s.allocated)
    ⟨fun h ↦ ⟨h.1, h.2⟩, fun h ↦ ⟨h.1, h.2⟩⟩

def step (sockfd : ℤ) (s : State) : Label → Option State
  | .wait ready =>
    guarded (s.Waiting ∧ ready.length ≤ maxEvents ∧ ∀ e ∈ ready, s.registered e.1 ≠ none)
      ((s.fill ready).begin ready.length)
  | .waitFails => guarded s.Waiting { s with phase := .failed }
  | .event a =>
    guarded (s.phase = .looping ∧ s.i < s.ret ∧ Plausible s a) (s.advance sockfd a)

/-- The server before its first `epoll_wait`; `re` and the records are what memory held. -/
def init (sockfd : ℤ) (opened : Finset ℤ) (memory : ℕ → ℤ) (re : ℕ → Event) : State where
  fd := memory
  allocated := ∅
  opened := insert sockfd opened
  registered := fun fd ↦ if fd = sockfd then some .sockfdInfo else none
  misused := false
  accepted := 0
  dropped := ∅
  owner := fun _ ↦ none
  holder := fun _ ↦ none
  frees := fun _ ↦ 0
  closes := fun _ ↦ 0
  re := re
  newfd := -1
  i := 0
  ret := 0
  phase := .looping
  count := 0
  visited := []

end EpollServer

end CodeOnLinux
