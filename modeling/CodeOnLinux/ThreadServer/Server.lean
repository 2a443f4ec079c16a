import CodeOnLinux.Echo.Trim
import CodeOnLinux.Foundation.Transition
import Mathlib.Logic.Function.Basic

/-!
# The threaded echo server: `03_tcp_pthread`

`main` accepts a client, fills the next entry of `sock_info` and starts a thread with a pointer to
that entry. The thread takes its descriptor out of the entry whenever it needs it, up to the final
`close`; meanwhile `main` goes on writing entries, and when it leaves its loop it closes `sockfd`
and whatever descriptor `peerfd` still holds.

Clients are numbered in the order in which they are accepted; the number of a client also names its
session. Every step of `main` that touches shared data is a step of its own, and any thread may be
next. The ghost fields record what an entry held when its thread was created, and which threads
closed the descriptor of a client.
-/

namespace CodeOnLinux

namespace ThreadServer

open Transition

/-- `MAX`, the length of `sock_info` -/
def max : ℕ := 128

/-- `struct sockaddr_in` -/
structure SockaddrIn where
  /-- `sin_addr` -/
  sinAddr : ℕ
  /-- `sin_port` -/
  sinPort : ℕ
  deriving DecidableEq

/-- `sock_info_t` -/
structure SockInfo where
  /-- `sock_fd` -/
  sockFd : ℤ
  /-- `sock_addr` -/
  sockAddr : SockaddrIn
  deriving DecidableEq

/-- What `bzero` leaves of an entry. -/
def zeroed : SockInfo := ⟨0, 0, 0⟩

/-- What a descriptor stands for. -/
inductive File
  | console
  | listener
  | client (c : ℕ)
  deriving DecidableEq

inductive Thread
  | main
  | session (c : ℕ)
  deriving DecidableEq

/-- Where `main` is. -/
inductive Pc
  | accepting
  | zeroing
  | settingFd
  | settingAddr
  | creating
  /-- Behind the loop: `close(sockfd)`, then `close(peerfd)`. -/
  | closingSockfd
  | closingPeerfd
  /-- At `err1`. -/
  | failing
  /-- `main` has returned, which ends the process. -/
  | returned
  deriving DecidableEq

/-- Where a thread is in `svr_rw`. -/
inductive Phase
  | reading
  | writing (text : Bytes)
  | closing
  | ended
  /-- It has left its buffer, and nothing is known of it from there on. -/
  | faulted
  deriving DecidableEq

/-- A thread of the server. -/
structure Session where
  /-- The index of the entry that its argument points to. -/
  slot : ℕ
  /-- What it is doing. -/
  phase : Phase
  /-- What the entry held when the thread was created. -/
  info : SockInfo

/-- The process. -/
structure State where
  /-- What the main thread does next. -/
  pc : Pc
  /-- Its variable `i`. -/
  i : ℕ
  /-- `peerfd` -/
  peerfd : ℤ
  /-- `from` -/
  sender : SockaddrIn
  /-- `sock_info`; the indices from `MAX` on lie behind it. -/
  sockInfo : ℕ → SockInfo
  /-- What each open descriptor refers to. -/
  table : ℤ → Option File
  /-- How many clients were accepted. -/
  accepted : ℕ
  /-- The number of the last one. -/
  newest : ℕ
  /-- The thread of each client. -/
  sessions : ℕ → Option Session
  /-- Who has closed the descriptor of a client. -/
  closedBy : ℕ → List Thread

/-- The standard descriptors among `stdio` and the socket are open; the entries of `sock_info` are
whatever the stack held. -/
def init (sockfd : ℤ) (stdio : Finset ℕ) (stack : ℕ → SockInfo) : State where
  pc := .accepting
  i := 0
  peerfd := -1
  sender := ⟨0, 0⟩
  sockInfo := stack
  table := Function.update
    (fun fd ↦ if 0 ≤ fd ∧ fd.toNat ∈ stdio then some .console else none) sockfd (some .listener)
  accepted := 0
  newest := 0
  sessions := fun _ ↦ none
  closedBy := fun _ ↦ []

theorem init_table_sockfd (sockfd : ℤ) (stdio : Finset ℕ) (stack : ℕ → SockInfo) :
    (init sockfd stdio stack).table sockfd = some .listener := by simp [init]

theorem init_table_of_ne {sockfd fd : ℤ} (h : fd ≠ sockfd) (stdio : Finset ℕ)
    (stack : ℕ → SockInfo) : (init sockfd stdio stack).table fd =
      if 0 ≤ fd ∧ fd.toNat ∈ stdio then some .console else none := by simp [init, h]

theorem init_table_ne_client (sockfd : ℤ) (stdio : Finset ℕ) (stack : ℕ → SockInfo) (fd : ℤ)
    (c : ℕ) : (init sockfd stdio stack).table fd ≠ some (.client c) := by
  by_cases h : fd = sockfd
  · rw [h, init_table_sockfd]
    nofun
  · rw [init_table_of_ne h]
    split_ifs <;> nofun

/-! ## Descriptors -/

/-- A new descriptor for the next client. -/
def State.connect (s : State) (fd : ℤ) : State where
  __ := s
  table := Function.update s.table fd (some (.client s.accepted))
  accepted := s.accepted + 1
  newest := s.accepted

theorem State.connect_table_self (s : State) (fd : ℤ) :
    (s.connect fd).table fd = some (.client s.accepted) := Function.update_self _ _ _

theorem State.connect_table_of_ne (s : State) {fd fd' : ℤ} (h : fd' ≠ fd) :
    (s.connect fd).table fd' = s.table fd' := Function.update_of_ne h _ _

/-- `close(fd)` by one of the threads; it fails if the descriptor is not open. -/
def State.close (s : State) (who : Thread) (fd : ℤ) : State where
  __ := s
  table := Function.update s.table fd none
  closedBy := fun c ↦ if s.table fd = some (.client c) then who :: s.closedBy c else s.closedBy c

theorem State.close_table_eq (s : State) (who : Thread) (fd fd' : ℤ) (f : File) :
    (s.close who fd).table fd' = some f ↔ fd' ≠ fd ∧ s.table fd' = some f := by
  rw [State.close]
  by_cases h : fd' = fd
  · subst h
    simp
  · simp [h]

theorem State.close_closedBy_self {s : State} {fd : ℤ} {c : ℕ}
    (h : s.table fd = some (.client c)) (who : Thread) :
    (s.close who fd).closedBy c = who :: s.closedBy c := if_pos h

theorem State.close_closedBy_of_ne {s : State} {fd : ℤ} {c : ℕ}
    (h : s.table fd ≠ some (.client c)) (who : Thread) :
    (s.close who fd).closedBy c = s.closedBy c := if_neg h

/-! ## `main` -/

inductive Errno
  | eintr
  | econnaborted
  | other
  deriving DecidableEq

/-- Where the loop goes when `accept` has not returned a positive number. -/
def afterFailure : Errno → Pc
  | .eintr | .econnaborted => .accepting
  | .other => .closingSockfd

/-- `accept` has returned `ret`. The descriptor `0` counts as a failure, with the `errno` of some
earlier call. -/
def State.accept (s : State) (ret : ℤ) (sender : SockaddrIn) (errno : Errno) : State :=
  if 0 < ret then { s.connect ret with pc := .zeroing, peerfd := ret, sender := sender }
  else if ret = 0 then
    { s.connect 0 with pc := afterFailure errno, peerfd := 0, sender := sender }
  else { s with pc := afterFailure errno, peerfd := ret, sender := ⟨0, 0⟩ }

def State.setInfo (s : State) (info : SockInfo) : State :=
  { s with sockInfo := Function.update s.sockInfo s.i info }

@[simp] theorem State.setInfo_sockInfo_self (s : State) (info : SockInfo) :
    (s.setInfo info).sockInfo s.i = info := Function.update_self _ _ _

theorem State.setInfo_sockInfo_of_ne (s : State) (info : SockInfo) {j : ℕ} (h : j ≠ s.i) :
    (s.setInfo info).sockInfo j = s.sockInfo j := Function.update_of_ne h _ _

/-- `pthread_create` has succeeded; then `i++`, and the loop ends when `i` is `MAX`. -/
def State.spawn (s : State) : State where
  __ := s
  pc := if max = s.i + 1 then .closingSockfd else .accepting
  i := s.i + 1
  sessions := Function.update s.sessions s.newest (some ⟨s.i, .reading, s.sockInfo s.i⟩)

theorem State.spawn_sessions_self (s : State) :
    s.spawn.sessions s.newest = some ⟨s.i, .reading, s.sockInfo s.i⟩ := Function.update_self _ _ _

theorem State.spawn_sessions_of_ne (s : State) {c : ℕ} (h : c ≠ s.newest) :
    s.spawn.sessions c = s.sessions c := Function.update_of_ne h _ _

/-- The steps of `main` that have one outcome. -/
def State.proceed (s : State) (sockfd : ℤ) : Option State :=
  match s.pc with
  | .zeroing => some { s.setInfo zeroed with pc := .settingFd }
  | .settingFd =>
    some { s.setInfo { s.sockInfo s.i with sockFd := s.peerfd } with pc := .settingAddr }
  | .settingAddr =>
    some { s.setInfo { s.sockInfo s.i with sockAddr := s.sender } with pc := .creating }
  | .closingSockfd => some { s.close .main sockfd with pc := .closingPeerfd }
  | .closingPeerfd => some { s.close .main s.peerfd with pc := .returned }
  | .failing => some { s.close .main sockfd with pc := .returned }
  | .accepting | .creating | .returned => none

/-! ## `svr_rw` -/

/-- A `read` that has returned `text`, or a value that is not positive: trim the text, and leave
the loop on a failure or a `quit`. -/
def afterRead : Option Bytes → Phase
  | none => .closing
  | some text =>
    match Echo.reply text with
    | .error _ => .faulted
    | .ok answer => if Echo.isQuit answer then .closing else .writing answer

/-- A `write` of nothing returns `0`, like a failure it ends the loop. -/
def afterWrite (text : Bytes) (succeeds : Bool) : Phase :=
  if succeeds ∧ text ≠ [] then .reading else .closing

def State.setPhase (s : State) (c : ℕ) (se : Session) (phase : Phase) : State :=
  { s with sessions := Function.update s.sessions c (some { se with phase := phase }) }

theorem State.setPhase_sessions_self (s : State) (c : ℕ) (se : Session) (phase : Phase) :
    (s.setPhase c se phase).sessions c = some { se with phase := phase } :=
  Function.update_self _ _ _

theorem State.setPhase_sessions_of_ne (s : State) {c c' : ℕ} (se : Session) (phase : Phase)
    (h : c' ≠ c) : (s.setPhase c se phase).sessions c' = s.sessions c' :=
  Function.update_of_ne h _ _

/-- The descriptor that a thread finds in its entry. -/
def State.sockFd (s : State) (se : Session) : ℤ := (s.sockInfo se.slot).sockFd

inductive Label
  | accept (ret : ℤ) (sender : SockaddrIn) (errno : Errno)
  | create (succeeds : Bool)
  /-- Any other step of `main`. -/
  | proceed
  | read (c : ℕ) (text : Option Bytes)
  | write (c : ℕ) (succeeds : Bool)
  | close (c : ℕ)

/-- The session of a client, until the process ends. -/
def State.live (s : State) (c : ℕ) : Option Session :=
  if s.pc = .returned then none else s.sessions c

def step (sockfd : ℤ) (s : State) : Label → Option State
  | .accept ret sender errno =>
    guarded (s.pc = .accepting ∧ (ret = -1 ∨ 0 ≤ ret ∧ s.table ret = none))
      (s.accept ret sender errno)
  | .create succeeds =>
    guarded (s.pc = .creating) (if succeeds then s.spawn else { s with pc := .failing })
  | .proceed => s.proceed sockfd
  | .read c text =>
    (s.live c).bind fun se ↦
      -- nothing is read through a descriptor that is not open
      guarded (se.phase = .reading ∧ (text = none ∨ s.table (s.sockFd se) ≠ none) ∧
        ∀ bytes ∈ text, bytes ≠ [] ∧ bytes.length ≤ Echo.size) (s.setPhase c se (afterRead text))
  | .write c succeeds =>
    (s.live c).bind fun se ↦
      match se.phase with
      | .writing text =>
        guarded (succeeds → s.table (s.sockFd se) ≠ none)
          (s.setPhase c se (afterWrite text succeeds))
      | _ => none
  | .close c =>
    (s.live c).bind fun se ↦
      guarded (se.phase = .closing)
        ((s.setPhase c se .ended).close (.session c) (s.sockFd se))

end ThreadServer

end CodeOnLinux
