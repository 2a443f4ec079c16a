import CodeOnLinux.Echo.Trim
import CodeOnLinux.Foundation.Descriptors
import CodeOnLinux.Foundation.Transition

/-!
# The forking echo server: `02_tcp_process/server.c`

The parent accepts connections and forks a child for each, which reads up to `SIZE` bytes at a time
and writes them back as a string, until it reads `quit`, the empty string or the end of the stream.
Clients are numbered in the order in which they are accepted. A label is one outcome of `accept` and
`fork` in the parent, something that a client does, or one turn of the loop of a child; any process
may be next.

When a child ends, its parent is sent to `rec_child`, and from there it comes back only when no
child is left to wait for.

The child closes its copy of the connection. The parent has one too, which it does not close, and so
has each child that is forked later.
-/

namespace CodeOnLinux

namespace ProcessServer

open Transition Descriptors Echo

/-! ## The program -/

/-- What a descriptor refers to. -/
inductive End
  | console
  | listener
  | client (n : ℕ)
  deriving DecidableEq

inductive Parent
  | accepting
  /-- It is in `rec_child`. -/
  | reaping
  | stopped
  deriving DecidableEq

/-- What a child is doing, or why it has ended. -/
inductive Child
  | serving
  | quit
  /-- It has read an empty string, and `write` has returned `0`. -/
  | empty
  | endOfStream
  /-- `read` or `write` has returned `-1`. -/
  | failed
  /-- `strlen` has run out of the buffer, and the child may do anything. -/
  | overrun
  deriving DecidableEq

/-- What one client and its child have exchanged. -/
structure Conversation where
  /-- What the client has sent. -/
  sent : Bytes
  /-- What of that was not read. -/
  unread : Bytes
  /-- Whether the client has ended its stream. -/
  shut : Bool
  /-- The texts that were read and written back. -/
  texts : List Bytes
  /-- The text that ended the loop. -/
  last : Bytes
  /-- All that was written back. -/
  echoed : Bytes
  /-- What the child is doing. -/
  child : Child

/-- The process `none` is the parent, `some n` the child of client `n`. -/
structure State where
  /-- What the parent is doing. -/
  parent : Parent
  /-- How many clients were accepted. -/
  accepted : ℕ
  /-- The descriptors of each process. -/
  tables : Tables (Option ℕ) End
  /-- What was exchanged with each client. -/
  conversations : ℕ → Conversation

def sockfd : ℕ := 3

def Conversation.start : Conversation := ⟨[], [], false, [], [], [], .serving⟩

def init : State where
  parent := .accepting
  accepted := 0
  tables p fd :=
    match p with
    | none => if fd < sockfd then some .console else if fd = sockfd then some .listener else none
    | some _ => none
  conversations _ := .start

/-- One turn of the loop, for the text that was read. -/
inductive Turn
  | quit
  | empty
  | echo (answer : Bytes)

/-- `strncmp(buffer, "quit", 4)`, and `write(peerfd, buffer, strlen(buffer))` -/
def turn (text : Bytes) : Checked Turn :=
  if isQuit (received text) then .ok .quit
  else do
    let n ← strlen (received text)
    if n = 0 then return .empty else return .echo ((received text).take n)

inductive Label
  | accept
  | forkFails
  /-- `EINTR` or `ECONNABORTED` -/
  | acceptInterrupted
  | acceptFails
  | reaped
  | send (n : ℕ) (text : Bytes)
  | shut (n : ℕ)
  /-- The child reads `k` bytes. -/
  | read (n k : ℕ)
  | readEnd (n : ℕ)
  | readFails (n : ℕ)
  /-- It reads `k` bytes, and `write` fails. -/
  | writeFails (n k : ℕ)

namespace State

variable (s : State)

/-- The child of the client is there, whatever it does. -/
def Alive (n : ℕ) : Prop := n < s.accepted ∧
  ((s.conversations n).child = .serving ∨ (s.conversations n).child = .overrun)

instance decidableAlive (n : ℕ) : Decidable (s.Alive n) := inferInstanceAs (Decidable (_ ∧ _))

def Serving (n : ℕ) : Prop := n < s.accepted ∧ (s.conversations n).child = .serving

instance decidableServing (n : ℕ) : Decidable (s.Serving n) := inferInstanceAs (Decidable (_ ∧ _))

def update (n : ℕ) (c : Conversation) : State :=
  { s with conversations := Function.update s.conversations n c }

/-- `fork`, and in the child `close(sockfd)` -/
def forked (fd : ℕ) : State where
  parent := s.parent
  accepted := s.accepted + 1
  tables := close (fork (install s.tables none fd (.client s.accepted)) none (some s.accepted))
    (some s.accepted) sockfd
  conversations := Function.update s.conversations s.accepted .start

/-- The parent ends. -/
def stop : State := { s with parent := .stopped, tables := exit s.tables none }

/-- A child ends, in the conversation `c`; its parent is notified. -/
def ended (n : ℕ) (c : Conversation) : State where
  parent := if s.parent = .accepting then .reaping else s.parent
  accepted := s.accepted
  tables := exit s.tables (some n)
  conversations := Function.update s.conversations n c

/-- The child has read `k` bytes. -/
def turned (n k : ℕ) : State :=
  let c := s.conversations n
  let text := c.unread.take k
  let c := { c with unread := c.unread.drop k }
  match turn text with
  | .ok (.echo answer) =>
    s.update n { c with texts := c.texts ++ [text], echoed := c.echoed ++ answer }
  | .ok .quit => s.ended n { c with last := text, child := .quit }
  | .ok .empty => s.ended n { c with last := text, child := .empty }
  | .error _ => s.update n { c with last := text, child := .overrun }

end State

variable (limit : ℕ)

def step (s : State) : Label → Option State
  | .accept =>
    match free limit (s.tables none) with
    | some fd => guarded (s.parent = .accepting) (s.forked fd)
    | none => none
  -- `goto err1`
  | .forkFails =>
    match free limit (s.tables none) with
    | some _ => guarded (s.parent = .accepting) s.stop
    | none => none
  | .acceptInterrupted => guarded (s.parent = .accepting) s
  -- `break`
  | .acceptFails => guarded (s.parent = .accepting) s.stop
  | .reaped => guarded (s.parent = .reaping ∧ ∀ n < s.accepted, ¬s.Alive n)
      { s with parent := .accepting }
  | .send n text => guarded (n < s.accepted ∧ (s.conversations n).shut = false)
      (s.update n { s.conversations n with
        sent := (s.conversations n).sent ++ text, unread := (s.conversations n).unread ++ text })
  | .shut n => guarded (n < s.accepted) (s.update n { s.conversations n with shut := true })
  | .read n k => guarded (s.Serving n ∧ 0 < k ∧ k ≤ min size (s.conversations n).unread.length)
      (s.turned n k)
  | .readEnd n => guarded (s.Serving n ∧ (s.conversations n).unread = [] ∧
      (s.conversations n).shut = true) (s.ended n { s.conversations n with child := .endOfStream })
  | .readFails n => guarded (s.Serving n) (s.ended n { s.conversations n with child := .failed })
  | .writeFails n k =>
    match turn ((s.conversations n).unread.take k) with
    | .ok (.echo _) =>
      guarded (s.Serving n ∧ 0 < k ∧ k ≤ min size (s.conversations n).unread.length)
        (s.ended n { s.conversations n with
          unread := (s.conversations n).unread.drop k
          last := (s.conversations n).unread.take k
          child := .failed })
    | _ => none

section

variable {limit} {s t : State} {a : Label}

/-! ## What a step can do -/

/-- A conversation goes on: the client sends or ends its stream, or the child writes a text back or
overruns its buffer. -/
inductive Conversation.Next (c : Conversation) : Conversation → Prop
  | send {text : Bytes} (hopen : c.shut = false) :
    Next c { c with sent := c.sent ++ text, unread := c.unread ++ text }
  | shut : Next c { c with shut := true }
  | echo {k : ℕ} {answer : Bytes} (hserving : c.child = .serving) (hk : k ≤ size)
    (hturn : turn (c.unread.take k) = .ok (.echo answer)) :
    Next c { c with
      unread := c.unread.drop k
      texts := c.texts ++ [c.unread.take k]
      echoed := c.echoed ++ answer }
  | overrun {k : ℕ} {e : Fault} (hserving : c.child = .serving) (hk : k ≤ size)
    (hturn : turn (c.unread.take k) = .error e) :
    Next c { c with unread := c.unread.drop k, last := c.unread.take k, child := .overrun }

/-- The child ends. -/
inductive Conversation.Ends (c : Conversation) : Conversation → Prop
  | quit {k : ℕ} (hturn : turn (c.unread.take k) = .ok .quit) :
    Ends c { c with unread := c.unread.drop k, last := c.unread.take k, child := .quit }
  | empty {k : ℕ} (htext : c.unread.take k ≠ []) (hturn : turn (c.unread.take k) = .ok .empty) :
    Ends c { c with unread := c.unread.drop k, last := c.unread.take k, child := .empty }
  | endOfStream (hunread : c.unread = []) (hshut : c.shut = true) :
    Ends c { c with child := .endOfStream }
  | readFails : Ends c { c with child := .failed }
  | writeFails {k : ℕ} :
    Ends c { c with unread := c.unread.drop k, last := c.unread.take k, child := .failed }

inductive Move (limit : ℕ) (s : State) : State → Prop
  | accept {fd : ℕ} (hparent : s.parent = .accepting)
      (hfree : free limit (s.tables none) = some fd) :
    Move limit s (s.forked fd)
  | stop : Move limit s s.stop
  | same : Move limit s s
  | reaped (hparent : s.parent = .reaping) : Move limit s { s with parent := .accepting }
  | next {n : ℕ} {c : Conversation} (hn : n < s.accepted) (h : (s.conversations n).Next c) :
    Move limit s (s.update n c)
  | ends {n : ℕ} {c : Conversation} (hserving : s.Serving n) (h : (s.conversations n).Ends c) :
    Move limit s (s.ended n c)

theorem turned_cases {n k : ℕ} (hserving : s.Serving n) (hpos : 0 < k)
    (hk : k ≤ min size (s.conversations n).unread.length) : Move limit s (s.turned n k) := by
  have hsize : k ≤ size := hk.trans (Nat.min_le_left _ _)
  have htext : (s.conversations n).unread.take k ≠ [] := by
    have hlen := hk.trans (Nat.min_le_right _ _)
    rw [← List.length_pos_iff, List.length_take, Nat.min_eq_left hlen]
    exact hpos
  rw [State.turned]
  split
  · next answer hturn => exact .next hserving.1 (.echo hserving.2 hsize hturn)
  · next hturn => exact .ends hserving (.quit hturn)
  · next hturn => exact .ends hserving (.empty htext hturn)
  · next e hturn => exact .next hserving.1 (.overrun hserving.2 hsize hturn)

/-- **What a step can do.** -/
theorem step_cases (h : step limit s a = some t) : Move limit s t := by
  cases a with
  | accept =>
    rw [step] at h
    split at h
    · next fd hfree =>
      obtain ⟨hparent, rfl⟩ := guarded_eq_some.mp h
      exact .accept hparent hfree
    · cases h
  | forkFails =>
    rw [step] at h
    split at h
    · obtain ⟨-, rfl⟩ := guarded_eq_some.mp h
      exact .stop
    · cases h
  | acceptInterrupted =>
    obtain ⟨-, rfl⟩ := guarded_eq_some.mp h
    exact .same
  | acceptFails =>
    obtain ⟨-, rfl⟩ := guarded_eq_some.mp h
    exact .stop
  | reaped =>
    obtain ⟨⟨hparent, -⟩, rfl⟩ := guarded_eq_some.mp h
    exact .reaped hparent
  | send n text =>
    obtain ⟨⟨hn, hopen⟩, rfl⟩ := guarded_eq_some.mp h
    exact .next hn (.send hopen)
  | shut n =>
    obtain ⟨hn, rfl⟩ := guarded_eq_some.mp h
    exact .next hn .shut
  | read n k =>
    obtain ⟨⟨hserving, hpos, hk⟩, rfl⟩ := guarded_eq_some.mp h
    exact turned_cases hserving hpos hk
  | readEnd n =>
    obtain ⟨⟨hserving, hunread, hshut⟩, rfl⟩ := guarded_eq_some.mp h
    exact .ends hserving (.endOfStream hunread hshut)
  | readFails n =>
    obtain ⟨hserving, rfl⟩ := guarded_eq_some.mp h
    exact .ends hserving .readFails
  | writeFails n k =>
    rw [step] at h
    split at h
    · obtain ⟨⟨hserving, -⟩, rfl⟩ := guarded_eq_some.mp h
      exact .ends hserving .writeFails
    · cases h

end

end ProcessServer

end CodeOnLinux
