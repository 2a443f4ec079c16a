import CodeOnLinux.Foundation.Machine
import CodeOnLinux.Foundation.Transition
import Mathlib.Data.Finset.Basic

/-!
# The forking chat server: `99_tcp_chatroom`

The parent accepts connections, appends each descriptor to `fd_list` and forks a child for it. The
child has copies of `fd_list` and of the descriptor table as they were at its fork, and from then
on neither process sees what the other does to its own. A child relays what its client says to
every descriptor in its copy of the list.

Clients are numbered in the order in which they are accepted. The labels of a run are the outcomes
of `accept`, and for each child what it reads and how its writes end; any process may be next.

The signal handler `rec_child` is not part of a step. When a child ends, the real parent goes
through `wait` until it has no children left and accepts nobody meanwhile (`Chatroom.recChild`); the
parent here may always accept. So every order of connections and departures that the server can go
through is a run, and some runs are ones that the handler holds up.

`Lists p n` says that a process has the first `n` clients in its list, each under a descriptor
that its table maps to that client's connection. The parent has all clients, and the child of
client `c` has the clients up to `c`, whatever happened since (`Copies`).
-/

namespace CodeOnLinux

namespace Chatroom

open Transition

/-- `SIZE`, the length of `fd_list` and of the buffer for a message -/
def size : ℕ := 128

/-- What a descriptor stands for. -/
inductive File
  | console
  | listener
  | client (c : ℕ)
  deriving DecidableEq

/-- What `fork` copies. -/
structure Process where
  /-- `fd_list` -/
  fdList : List ℕ
  /-- What each open descriptor refers to. -/
  table : ℕ → Option File

/-- A child of the server. -/
structure Child where
  /-- The descriptor of its own client. -/
  peerfd : ℕ
  /-- Its copy of the list and the descriptors. -/
  process : Process

inductive Parent
  | running (i : ℕ) (p : Process)
  | stopped
  /-- It has stored a descriptor behind the end of `fd_list`. -/
  | overrun

/-- The server and its clients. -/
structure State where
  /-- What the parent is doing. -/
  parent : Parent
  /-- How many clients were accepted. -/
  accepted : ℕ
  /-- The clients that said `quit` or closed their end. -/
  left : Finset ℕ
  /-- The child of each client, while it runs. -/
  children : ℕ → Option Child

/-! ## The parent -/

/-- The standard descriptors and the socket are open, and the list is zeroed. -/
def init (sockfd : ℕ) : State where
  parent := .running 0
    { fdList := List.replicate size 0
      table := Function.update (fun fd ↦ if fd < 3 then some .console else none) sockfd
        (some .listener) }
  accepted := 0
  left := ∅
  children := fun _ ↦ none

/-- `fd_list[i] = peerfd`, with `peerfd` a new descriptor of client `c`. -/
def Process.add (p : Process) (i c peerfd : ℕ) : Process where
  fdList := p.fdList.set i peerfd
  table := Function.update p.table peerfd (some (.client c))

theorem Process.add_table_self (p : Process) (i c peerfd : ℕ) :
    (p.add i c peerfd).table peerfd = some (.client c) := Function.update_self _ _ _

theorem Process.add_table_of_ne (p : Process) (i c : ℕ) {peerfd fd : ℕ} (h : fd ≠ peerfd) :
    (p.add i c peerfd).table fd = p.table fd := Function.update_of_ne h _ _

def Process.close (p : Process) (fd : ℕ) : Process :=
  { p with table := Function.update p.table fd none }

theorem Process.close_table_of_ne (p : Process) {fd fd' : ℕ} (h : fd' ≠ fd) :
    (p.close fd).table fd' = p.table fd' := Function.update_of_ne h _ _

/-- `accept` has returned `peerfd`: append it and fork. Where `fork` fails the parent stops; the
client was accepted all the same. -/
def State.accept (s : State) (sockfd i : ℕ) (p : Process) (peerfd : ℕ) (forked : Bool) : State :=
  if i < size then
    if forked then
      { s with
        parent := .running (i + 1) (p.add i s.accepted peerfd)
        accepted := s.accepted + 1
        children := Function.update s.children s.accepted
          (some ⟨peerfd, (p.add i s.accepted peerfd).close sockfd⟩) }
    else { s with parent := .stopped, accepted := s.accepted + 1 }
  else { s with parent := .overrun, accepted := s.accepted + 1 }

/-! ## The relay loop of a child -/

/-- A call of `write` in the loop of a child. -/
structure Write where
  /-- The descriptor. -/
  fd : ℕ
  /-- The message. -/
  text : Bytes
  /-- Whether anything was written. -/
  succeeds : Bool
  deriving DecidableEq

/-- The `write` calls for one message: one for each entry of the list that is not `0`, up to the
first that returns `-1` or `0`. A closed descriptor gives `-1`, an empty text `0`; otherwise the
outcome is the environment's. -/
def relay (table : ℕ → Option File) (text : Bytes) (succeeds : ℕ → Bool) : List ℕ → List Write
  | [] => []
  | fd :: fds =>
    if fd = 0 then relay table text succeeds fds
    else if succeeds fd ∧ table fd ≠ none ∧ text ≠ [] then
      ⟨fd, text, true⟩ :: relay table text succeeds fds
    else [⟨fd, text, false⟩]

/-- `strlen(buffer)` bytes are written, so a NUL ends the text. -/
def Child.relay (ch : Child) (text : Bytes) (succeeds : ℕ → Bool) : List Write :=
  Chatroom.relay ch.process.table (cString text) succeeds ch.process.fdList

/-- `strncmp(buffer, "quit", 4) == 0` -/
def isQuit (text : Bytes) : Bool := decide (text.take 4 = ascii "quit")

inductive Label
  | accept (peerfd : ℕ) (forked : Bool)
  /-- `accept` fails with `EINTR` or `ECONNABORTED`. -/
  | interrupted
  /-- `accept` fails otherwise. -/
  | acceptFails
  | message (c : ℕ) (text : Bytes) (succeeds : ℕ → Bool)
  | quit (c : ℕ) (text : Bytes)
  | endOfStream (c : ℕ)
  | readFails (c : ℕ)

/-- A child that leaves its loop clears entries of its own copy of the list, closes its own
`peerfd` and exits; no other process is affected. -/
def State.exit (s : State) (c : ℕ) : State :=
  { s with children := Function.update s.children c none }

theorem State.exit_children_self (s : State) (c : ℕ) : (s.exit c).children c = none :=
  Function.update_self _ _ _

theorem State.exit_children_of_ne (s : State) {c d : ℕ} (h : d ≠ c) :
    (s.exit c).children d = s.children d := Function.update_of_ne h _ _

def State.depart (s : State) (c : ℕ) : State := { s.exit c with left := insert c s.left }

/-- The parent and its `i`, while it is in its loop. -/
def Parent.running? : Parent → Option (ℕ × Process)
  | .running i p => some (i, p)
  | _ => none

theorem Parent.eq_running {q : Parent} {i : ℕ} {p : Process} (h : q.running? = some (i, p)) :
    q = .running i p := by
  cases q with
  | running j q =>
    obtain ⟨rfl, rfl⟩ := Prod.mk.inj (Option.some_inj.mp h)
    rfl
  | stopped => cases h
  | overrun => cases h

def step (sockfd : ℕ) (s : State) : Label → Option State
  | .accept peerfd forked =>
    s.parent.running?.bind fun (i, p) ↦
      guarded (p.table peerfd = none) (s.accept sockfd i p peerfd forked)
  | .interrupted => s.parent.running?.bind fun _ ↦ some s
  | .acceptFails => s.parent.running?.bind fun _ ↦ some { s with parent := .stopped }
  | .message c text succeeds =>
    (s.children c).bind fun ch ↦
      -- a text that fills the buffer without a NUL would be read past its end
      guarded (text ≠ [] ∧ text.length ≤ size ∧ (0 ∈ text ∨ text.length < size) ∧ ¬isQuit text)
        (if ∀ w ∈ ch.relay text succeeds, w.succeeds then s else s.exit c)
  | .quit c text =>
    (s.children c).bind fun _ ↦ guarded (text.length ≤ size ∧ isQuit text) (s.depart c)
  | .endOfStream c => (s.children c).bind fun _ ↦ some (s.depart c)
  | .readFails c => (s.children c).bind fun _ ↦ some (s.exit c)

/-! ## What the processes know -/

/-- The list of the process has the first `n` clients, and nothing else. -/
structure Lists (p : Process) (n : ℕ) : Prop where
  /-- The list is the whole array. -/
  length_eq : p.fdList.length = size
  /-- There is room for the clients. -/
  le_size : n ≤ size
  /-- At the place of a client is a descriptor of his connection. -/
  client : ∀ k, k < n → ∃ fd, p.fdList[k]? = some fd ∧ fd ≠ 0 ∧ p.table fd = some (.client k)
  /-- Behind the clients there are zeros. -/
  empty : ∀ k, n ≤ k → k < size → p.fdList[k]? = some 0

theorem Lists.add {p : Process} {n peerfd : ℕ} (h : Lists p n) (hlt : n < size)
    (hzero : p.table 0 ≠ none) (hnew : p.table peerfd = none) :
    Lists (p.add n n peerfd) (n + 1) := by
  have hne : peerfd ≠ 0 := fun he ↦ hzero (he ▸ hnew)
  refine ⟨by rw [Process.add, List.length_set, h.length_eq], hlt, fun k hk ↦ ?_, fun k hk hks ↦ ?_⟩
  · by_cases hkn : k = n
    · subst hkn
      exact ⟨peerfd, List.getElem?_set_self (by rw [h.length_eq]; exact hlt), hne,
        p.add_table_self _ _ _⟩
    · obtain ⟨fd, hfd, hfd0, hclient⟩ := h.client k (by omega)
      have hfdne : fd ≠ peerfd := fun he ↦ by
        rw [he, hnew] at hclient
        cases hclient
      refine ⟨fd, by rw [Process.add, List.getElem?_set_ne (Ne.symm hkn), hfd], hfd0, ?_⟩
      rw [p.add_table_of_ne _ _ hfdne, hclient]
  · rw [Process.add, List.getElem?_set_ne (by omega), h.empty k (by omega) hks]

theorem Lists.close {p : Process} {n fd : ℕ} (h : Lists p n)
    (hfd : ∀ c, p.table fd ≠ some (.client c)) : Lists (p.close fd) n := by
  refine ⟨h.length_eq, h.le_size, fun k hk ↦ ?_, h.empty⟩
  obtain ⟨fd', hfd', hne, hclient⟩ := h.client k hk
  have hfdne : fd' ≠ fd := fun he ↦ hfd k (he ▸ hclient)
  exact ⟨fd', hfd', hne, by rw [p.close_table_of_ne hfdne, hclient]⟩

/-- **Who has which clients in his list.** -/
structure Copies (sockfd : ℕ) (s : State) : Prop where
  /-- Only those leave who have joined. -/
  left : ∀ c ∈ s.left, c < s.accepted
  /-- The parent has every client; its standard input and the listening socket are open. -/
  parent : ∀ i p, s.parent = .running i p →
    i = s.accepted ∧ Lists p i ∧ p.table 0 ≠ none ∧ p.table sockfd = some .listener
  /-- A child has those who joined before its client, and the client. -/
  child : ∀ c ch, s.children c = some ch → c < s.accepted ∧ c ∉ s.left ∧ Lists ch.process (c + 1)

theorem copies_init (sockfd : ℕ) : Copies sockfd (init sockfd) := by
  refine ⟨fun c hc ↦ absurd hc (Finset.notMem_empty c), fun i p hp ↦ ?_,
    fun c ch hch ↦ absurd hch (by simp [init])⟩
  obtain ⟨rfl, rfl⟩ := Parent.running.inj hp
  refine ⟨rfl, ⟨List.length_replicate, Nat.zero_le _, fun k hk ↦ absurd hk (Nat.not_lt_zero k),
    fun k _ hk ↦ ?_⟩, ?_, by simp⟩
  · simp [hk]
  · by_cases hzero : sockfd = 0
    · simp [hzero]
    · simp [Function.update_of_ne (Ne.symm hzero)]

/-- What stops the parent leaves the children's lists as they are. -/
theorem Copies.stop {sockfd : ℕ} {s : State} (h : Copies sockfd s) {parent : Parent} {accepted : ℕ}
    (hparent : ∀ i p, parent ≠ .running i p) (haccepted : s.accepted ≤ accepted) :
    Copies sockfd { s with parent := parent, accepted := accepted } := by
  refine ⟨fun c hc ↦ (h.left c hc).trans_le haccepted, fun i p hp ↦ absurd hp (hparent i p),
    fun c ch hch ↦ ?_⟩
  obtain ⟨hlt, hleft, hlists⟩ := h.child c ch hch
  exact ⟨hlt.trans_le haccepted, hleft, hlists⟩

theorem Copies.exit {sockfd : ℕ} {s : State} (h : Copies sockfd s) (c : ℕ) :
    Copies sockfd (s.exit c) := by
  refine ⟨h.left, h.parent, fun d ch hch ↦ h.child d ch ?_⟩
  by_cases hdc : d = c
  · rw [hdc, s.exit_children_self] at hch
    cases hch
  · rwa [s.exit_children_of_ne hdc] at hch

theorem Copies.depart {sockfd c : ℕ} {s : State} (h : Copies sockfd s) (hc : c < s.accepted) :
    Copies sockfd (s.depart c) := by
  refine ⟨fun d hd ↦ ?_, h.parent, fun d ch hch ↦ ?_⟩
  · rcases Finset.mem_insert.mp hd with rfl | hd
    · exact hc
    · exact h.left d hd
  · obtain ⟨hlt, hleft, hlists⟩ := (h.exit c).child d ch hch
    refine ⟨hlt, fun hmem ↦ ?_, hlists⟩
    rcases Finset.mem_insert.mp hmem with rfl | hmem
    · have hnone := s.exit_children_self d
      rw [show (s.exit d).children d = some ch from hch] at hnone
      cases hnone
    · exact hleft hmem

theorem Copies.accept {sockfd i peerfd : ℕ} {s : State} {p : Process} (h : Copies sockfd s)
    (hp : s.parent = .running i p) (hnew : p.table peerfd = none) (forked : Bool) :
    Copies sockfd (s.accept sockfd i p peerfd forked) := by
  obtain ⟨rfl, hlists, hzero, hsock⟩ := h.parent i p hp
  rw [State.accept]
  split_ifs with hlt hforked
  · have hne : ∀ fd, p.table fd ≠ none → fd ≠ peerfd := fun fd hfd he ↦ hfd (he ▸ hnew)
    have hadd := hlists.add hlt hzero hnew
    have hsock' : (p.add s.accepted s.accepted peerfd).table sockfd = some .listener := by
      rw [p.add_table_of_ne _ _ (hne sockfd (by rw [hsock]; simp)), hsock]
    refine ⟨fun c hc ↦ Nat.lt_succ_of_lt (h.left c hc), fun i q hq ↦ ?_, fun c ch hch ↦ ?_⟩
    · obtain ⟨rfl, rfl⟩ := Parent.running.inj hq
      exact ⟨rfl, hadd, by rwa [p.add_table_of_ne _ _ (hne 0 hzero)], hsock'⟩
    · by_cases hc : c = s.accepted
      · -- the new child: its list is the parent's, its table lacks the listening socket
        subst hc
        simp only [Function.update_self, Option.some_inj] at hch
        subst hch
        exact ⟨Nat.lt_succ_self _, fun hmem ↦ absurd (h.left _ hmem) (lt_irrefl _),
          hadd.close fun c ↦ by rw [hsock']; simp⟩
      · simp only [Function.update_of_ne hc] at hch
        obtain ⟨hlt, hleft, hlists⟩ := h.child c ch hch
        exact ⟨Nat.lt_succ_of_lt hlt, hleft, hlists⟩
  · exact h.stop nofun (Nat.le_succ _)
  · exact h.stop nofun (Nat.le_succ _)

theorem Copies.step {sockfd : ℕ} {s t : State} {a : Label} (h : Copies sockfd s)
    (hst : step sockfd s a = some t) : Copies sockfd t := by
  cases a with
  | accept peerfd forked =>
    obtain ⟨⟨i, p⟩, hp, hst⟩ := Option.bind_eq_some_iff.mp hst
    obtain ⟨hnew, rfl⟩ := guarded_eq_some.mp hst
    exact h.accept (Parent.eq_running hp) hnew forked
  | interrupted =>
    obtain ⟨-, -, hst⟩ := Option.bind_eq_some_iff.mp hst
    exact Option.some_inj.mp hst ▸ h
  | acceptFails =>
    obtain ⟨-, -, hst⟩ := Option.bind_eq_some_iff.mp hst
    exact Option.some_inj.mp hst ▸ h.stop nofun (le_refl _)
  | message c text succeeds =>
    obtain ⟨ch, hch, hst⟩ := Option.bind_eq_some_iff.mp hst
    obtain ⟨-, rfl⟩ := guarded_eq_some.mp hst
    -- a failed write ends the child that relays, nobody else's copy changes
    split
    · exact h
    · exact h.exit c
  | quit c text =>
    obtain ⟨ch, hch, hst⟩ := Option.bind_eq_some_iff.mp hst
    obtain ⟨-, rfl⟩ := guarded_eq_some.mp hst
    exact h.depart (h.child c ch hch).1
  | endOfStream c =>
    obtain ⟨ch, hch, hst⟩ := Option.bind_eq_some_iff.mp hst
    exact Option.some_inj.mp hst ▸ h.depart (h.child c ch hch).1
  | readFails c =>
    obtain ⟨-, -, hst⟩ := Option.bind_eq_some_iff.mp hst
    exact Option.some_inj.mp hst ▸ h.exit c

theorem copies_of_run {sockfd : ℕ} {labels : List Label} {s : State}
    (hrun : run (step sockfd) (init sockfd) labels = some s) : Copies sockfd s :=
  invariant_of_run (fun _ _ _ hs hst ↦ hs.step hst) (copies_init sockfd) hrun

end Chatroom

end CodeOnLinux
