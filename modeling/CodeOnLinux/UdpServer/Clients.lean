import CodeOnLinux.Foundation.Fgets
import CodeOnLinux.Foundation.Merge
import CodeOnLinux.UdpServer.Server

/-!
# The clients of the echo server on UDP: `05_Day14/01_udp/client.c`

A client takes a line from its standard input, sends it in a datagram and waits for the answer,
which it prints before it takes the next line. Nothing is ever sent twice. Clients and server run
together here, over a network that may lose datagrams and deliver them in any order, but makes no
copies.

## One datagram at a time

A client asks nothing before it has its answer. So there is at most one datagram of a client in the
network, the question or the answer (`Flow`), and the order in which the network delivers is of no
consequence: the answers are printed in the order of the lines, each for its own line
(`printed_of_run`). The client does not look at what it receives; that an answer belongs to the last
question follows from there being no other.

## Waiting forever

No timeout is set and nothing is repeated. A client whose datagram or answer is lost waits forever,
and so does one that asks a server which has left its loop. In every state of every run it can be
told from what is in the network which clients can still be answered (`answerable_iff`). For the one
direction a run is given that answers; for the other there is an invariant (`Stuck`): no step of the
clients, of the server or of the network puts an answer on its way to a client of which nothing is
in the network.

## One client is enough

An empty line makes an empty datagram, `sendto` returns its length, and both loops take that for a
failure: the client leaves, and the server leaves too, for all clients (`receiving_iff`). What a
client sends has no NUL and leaves room for one (`Sendable`), so there is no other datagram of these
clients that ends the service; `UdpServer.serves_iff` says which do in general.
-/

namespace CodeOnLinux

namespace UdpServer

open Memory Transition Lines Merge
open Echo (size received received_eq_padded strlen strlen_ok trim trim_ok)

/-! ## The program -/

/-- Where a client is in its loop. -/
inductive Stage
  | typing
  /-- It is in `recvfrom`. -/
  | waiting
  | left
  /-- `buffer[strlen(buffer) - 1]` was in front of the buffer, and the client may do anything. -/
  | underrun
  /-- `printf` has run out of the buffer. -/
  | overrun
  deriving DecidableEq

/-- A client. -/
structure Client where
  /-- What was not typed yet. -/
  stdin : Bytes
  /-- What it is doing. -/
  stage : Stage
  /-- Not in the source: the lines for which a datagram was sent. -/
  lines : List Bytes
  /-- Not in the source: what was in these datagrams. -/
  asked : List Bytes
  /-- What it has printed. -/
  printed : List Bytes

/-- What the next `fgets` stores, and what it leaves. -/
abbrev Client.typed (c : Client) : Bytes × Bytes := typedLine size c.stdin

/-- The client has sent `text`; `sendto` returns its length, and zero ends the loop. -/
def Client.ask (c : Client) (text : Bytes) : Client :=
  { c with
    stdin := c.typed.2
    stage := if (text.length : ℤ) ≤ 0 then .left else .waiting
    lines := c.lines ++ [c.typed.1]
    asked := c.asked ++ [text] }

/-- `recvfrom` has stored an answer in the zeroed buffer. -/
def Client.print (c : Client) (text : Bytes) : Client :=
  match readStr (received (text.take size)) 0 with
  | .ok answer => { c with stage := .typing, printed := c.printed ++ [answer] }
  | .error _ => { c with stage := .overrun }

/-- The server, the clients and the network. -/
structure System where
  /-- The server. -/
  server : State ℕ
  /-- The clients, by their addresses. -/
  clients : ℕ → Client
  /-- The datagrams on their way from each client. -/
  requests : ℕ → List Bytes
  /-- The datagrams on their way to it. -/
  answers : ℕ → List Bytes

def System.start (stdin : ℕ → Bytes) : System where
  server := init ℕ
  clients n := ⟨stdin n, .typing, [], [], []⟩
  requests _ := []
  answers _ := []

inductive Action
  /-- A turn of client `n`, up to its `sendto`. -/
  | ask (n : ℕ)
  | askFails (n : ℕ)
  /-- The server gets a datagram of client `n`. -/
  | serve (n : ℕ) (text : Bytes) (sendtoFails : Bool)
  | recvfromFails
  /-- Client `n` gets an answer. -/
  | print (n : ℕ) (text : Bytes)
  | printFails (n : ℕ)
  | loseRequest (n : ℕ) (text : Bytes)
  | loseAnswer (n : ℕ) (text : Bytes)

namespace System

variable (s : System)

/-- Client `n` becomes `c`, and these are its datagrams in the network. -/
def put (n : ℕ) (c : Client) (requests answers : List Bytes) : System :=
  { s with
    clients := Function.update s.clients n c
    requests := Function.update s.requests n requests
    answers := Function.update s.answers n answers }

/-- Client `n` becomes `c`, and its datagrams stay in the network. -/
def become (n : ℕ) (c : Client) : System := s.put n c (s.requests n) (s.answers n)

/-- From `fgets` to `sendto`, which takes the whole string. -/
def asks (n : ℕ) : System :=
  match Echo.reply (s.clients n).typed.1 with
  | .ok text => s.put n ((s.clients n).ask text) (s.requests n ++ [text]) (s.answers n)
  | .error _ => s.become n { s.clients n with stdin := (s.clients n).typed.2, stage := .underrun }

/-- What the server sends on its turn is on its way to client `n`. -/
def serves (n : ℕ) (text : Bytes) (t : State ℕ) : System :=
  { s.put n (s.clients n) ((s.requests n).erase text)
      (s.answers n ++ part n (t.sent.drop s.server.sent.length)) with server := t }

def step : Action → Option System
  | .ask n => guarded ((s.clients n).stage = .typing) (s.asks n)
  | .askFails n =>
    match Echo.reply (s.clients n).typed.1 with
    | .ok _ => guarded ((s.clients n).stage = .typing)
        (s.become n { s.clients n with stdin := (s.clients n).typed.2, stage := .left })
    | .error _ => none
  | .serve n text sendtoFails =>
    if (s.requests n).contains text then
      (UdpServer.step s.server (.datagram n text sendtoFails)).map (s.serves n text)
    else none
  | .recvfromFails =>
    (UdpServer.step s.server .recvfromFails).map fun t ↦ { s with server := t }
  | .print n text => guarded ((s.clients n).stage = .waiting ∧ (s.answers n).contains text)
      (s.put n ((s.clients n).print text) (s.requests n) ((s.answers n).erase text))
  | .printFails n => guarded ((s.clients n).stage = .waiting)
      (s.become n { s.clients n with stage := .left })
  | .loseRequest n text => guarded ((s.requests n).contains text)
      (s.put n (s.clients n) ((s.requests n).erase text) (s.answers n))
  | .loseAnswer n text => guarded ((s.answers n).contains text)
      (s.put n (s.clients n) (s.requests n) ((s.answers n).erase text))

end System

/-! ## One datagram -/

/-- What clients send: a string that leaves room for a NUL. -/
def Sendable (text : Bytes) : Prop := text.length < size ∧ 0 ∉ text

/-- The text of a datagram is the string that is left in the buffer. -/
theorem sendable_of_reply {line text : Bytes} (hline : line.length < size)
    (h : Echo.reply line = .ok text) : Sendable text := by
  obtain ⟨buffer, htrim, h⟩ := Checked.bind_eq_ok.mp h
  obtain ⟨n, hn, h⟩ := Checked.bind_eq_ok.mp h
  have hlen : buffer.length = size := by
    rw [Echo.length_trim htrim, Echo.length_received hline.le]
  have hzero : 0 ∈ buffer := by
    by_contra hnot
    rw [Echo.strlen_error hnot] at hn
    cases hn
  obtain rfl := Except.ok.inj ((strlen_ok hzero).symm.trans hn)
  obtain rfl := Except.ok.inj h
  rw [take_length_cString]
  refine ⟨?_, zero_notMem_cString buffer⟩
  obtain ⟨tail, htail⟩ := exists_eq_cString_append hzero
  have hlength := congrArg List.length htail
  rw [List.length_append, List.length_cons, hlen] at hlength
  omega

namespace Sendable

variable {text : Bytes} (h : Sendable text)
include h

theorem take_eq : text.take size = text := List.take_of_length_le h.1.le

theorem terminated : Terminated text := Or.inl (by rw [h.take_eq]; exact h.1)

theorem begun_iff : Begun text ↔ text ≠ [] := by
  rw [UdpServer.begun_iff, h.take_eq, cString_eq_self h.2]

/-- A turn of the server: it leaves when its answer does not get off, or is empty. -/
theorem turn_eq (s : State ℕ) (n : ℕ) (sendtoFails : Bool) :
    s.turn n text sendtoFails =
      { phase := if sendtoFails ∨ text = [] then .left else s.phase
        arrived := s.arrived ++ [(n, text)]
        sent := if sendtoFails then s.sent else s.sent ++ [(n, text)]
        failed := sendtoFails } := by
  have hanswer : answer text = .ok text := by
    rw [answer_of_terminated h.terminated, h.take_eq, cString_eq_self h.2]
  have hpos : (text.length : ℤ) ≤ 0 ↔ text = [] := by
    rw [← List.length_eq_zero_iff]
    omega
  cases sendtoFails with
  | true => simp [State.turn, hanswer]
  | false =>
    simp only [State.turn, hanswer, Bool.false_eq_true, if_false, false_or, hpos]
    split_ifs <;> rfl

theorem print_eq (c : Client) :
    c.print text = { c with stage := .typing, printed := c.printed ++ [text] } := by
  have hzero : 0 ∈ received text := Echo.zero_mem_received_iff.mpr (Or.inl h.1)
  rw [Client.print, h.take_eq, readStr_ok hzero, received_eq_padded, cString_padded,
    cString_eq_self h.2]

end Sendable

/-! ## A client and its datagrams -/

/-- A client with what is in the network of it. -/
structure Flow (c : Client) (requests answers : List Bytes) : Prop where
  /-- It sends what the source can send. -/
  sendable : ∀ text ∈ c.asked, Sendable text
  /-- What it has asked is made of the lines. -/
  lines : c.lines.map Echo.reply = c.asked.map .ok
  /-- A datagram from it is one of its questions. -/
  request : ∀ text ∈ requests, text ∈ c.asked
  /-- A datagram to it is one of its questions, too. -/
  answer : ∀ text ∈ answers, text ∈ c.asked
  /-- While it reads a line, every question was answered and the network is empty. -/
  typing : c.stage = .typing →
    c.printed = c.asked ∧ [] ∉ c.asked ∧ requests = [] ∧ answers = []
  /-- While it waits there is at most one datagram, the last question or its answer. -/
  waiting : c.stage = .waiting → [] ∉ c.asked ∧ ∃ text, c.asked = c.printed ++ [text] ∧
    (requests ++ answers = [] ∨ requests ++ answers = [text])
  /-- At most the last question is open. -/
  printed : c.printed = c.asked ∨ ∃ text, c.asked = c.printed ++ [text]

namespace Flow

variable {c : Client} {requests answers : List Bytes} {text : Bytes}

/-- The client leaves its loop, or goes astray. -/
theorem stop (h : Flow c requests answers) (stdin : Bytes) {stage : Stage}
    (htyping : stage ≠ .typing) (hwaiting : stage ≠ .waiting) :
    Flow { c with stdin := stdin, stage := stage } requests answers where
  sendable := h.sendable
  lines := h.lines
  request := h.request
  answer := h.answer
  typing hstage := absurd hstage htyping
  waiting hstage := absurd hstage hwaiting
  printed := h.printed

/-- The client sends a datagram, and waits unless there is nothing in it. -/
theorem ask (h : Flow c requests answers) (hstage : c.stage = .typing)
    (htext : Echo.reply c.typed.1 = .ok text) (hsendable : Sendable text) :
    Flow (c.ask text) (requests ++ [text]) answers := by
  obtain ⟨hprinted, hnil, rfl, rfl⟩ := h.typing hstage
  have hasked : text ∈ c.asked ++ [text] := List.mem_append_right _ (List.mem_singleton_self text)
  refine ⟨fun t ht ↦ ?_, ?_, fun t ht ↦ ?_, fun t ht ↦ ?_, fun h' ↦ ?_, fun h' ↦ ?_, ?_⟩
  · rcases List.mem_append.mp ht with ht | ht
    · exact h.sendable t ht
    · exact List.mem_singleton.mp ht ▸ hsendable
  · simp only [Client.ask, List.map_append, List.map_singleton, h.lines, htext]
  · rw [List.nil_append, List.mem_singleton] at ht
    exact ht ▸ hasked
  · exact absurd ht List.not_mem_nil
  · simp only [Client.ask] at h'
    split_ifs at h'
  · simp only [Client.ask] at h'
    split_ifs at h' with hpos
    have hne : text ≠ [] := by
      rintro rfl
      exact hpos le_rfl
    refine ⟨fun hmem ↦ ?_, text, ?_, Or.inr rfl⟩
    · rcases List.mem_append.mp hmem with hmem | hmem
      · exact hnil hmem
      · exact hne (List.mem_singleton.mp hmem).symm
    · simp only [Client.ask, hprinted]
  · exact Or.inr ⟨text, by simp only [Client.ask, hprinted]⟩

/-- A datagram is lost, in one direction or the other. -/
theorem lose (h : Flow c requests answers) {requests' answers' : List Bytes}
    (hrequests : requests'.Sublist requests) (hanswers : answers'.Sublist answers) :
    Flow c requests' answers' where
  sendable := h.sendable
  lines := h.lines
  request t ht := h.request t (hrequests.subset ht)
  answer t ht := h.answer t (hanswers.subset ht)
  typing hstage := by
    obtain ⟨hprinted, hnil, rfl, rfl⟩ := h.typing hstage
    exact ⟨hprinted, hnil, List.sublist_nil.mp hrequests, List.sublist_nil.mp hanswers⟩
  waiting hstage := by
    obtain ⟨hnil, text, hasked, hflight⟩ := h.waiting hstage
    refine ⟨hnil, text, hasked, ?_⟩
    have hsub := hrequests.append hanswers
    rcases hflight with h | h
    · rw [h] at hsub
      exact Or.inl (List.sublist_nil.mp hsub)
    · rw [h] at hsub
      exact List.sublist_singleton.mp hsub
  printed := h.printed

/-- The question is answered. -/
theorem serve (h : Flow c requests answers) (htext : text ∈ requests) :
    Flow c (requests.erase text) (answers ++ [text]) where
  sendable := h.sendable
  lines := h.lines
  request t ht := h.request t (List.mem_of_mem_erase ht)
  answer t ht := by
    rcases List.mem_append.mp ht with ht | ht
    · exact h.answer t ht
    · exact List.mem_singleton.mp ht ▸ h.request text htext
  typing hstage := by
    obtain ⟨-, -, rfl, -⟩ := h.typing hstage
    exact absurd htext List.not_mem_nil
  waiting hstage := by
    obtain ⟨hnil, question, hasked, hflight⟩ := h.waiting hstage
    refine ⟨hnil, question, hasked, Or.inr ?_⟩
    have hmem : text ∈ requests ++ answers := List.mem_append_left _ htext
    rcases hflight with h | h
    · rw [h] at hmem
      exact absurd hmem List.not_mem_nil
    · rw [h, List.mem_singleton] at hmem
      obtain ⟨a, rest, rfl⟩ := List.exists_cons_of_ne_nil (List.ne_nil_of_mem htext)
      obtain ⟨rfl, hrest⟩ := List.cons.inj h
      obtain ⟨rfl, rfl⟩ := List.append_eq_nil_iff.mp hrest
      rw [hmem, List.erase_cons_head]
      rfl
  printed := h.printed

/-- The client gets its answer, and prints it. -/
theorem print (h : Flow c requests answers) (hstage : c.stage = .waiting)
    (htext : text ∈ answers) : Flow (c.print text) requests (answers.erase text) := by
  obtain ⟨hnil, question, hasked, hflight⟩ := h.waiting hstage
  have hmem : text ∈ requests ++ answers := List.mem_append_right _ htext
  rw [(h.sendable text (h.answer text htext)).print_eq]
  rcases hflight with hflight | hflight
  · rw [hflight] at hmem
    exact absurd hmem List.not_mem_nil
  · rw [hflight, List.mem_singleton] at hmem
    subst hmem
    have hanswers : requests = [] ∧ answers = [text] := by
      rcases requests with - | ⟨a, rest⟩
      · exact ⟨rfl, hflight⟩
      · obtain ⟨-, hrest⟩ := List.cons.inj hflight
        rw [(List.append_eq_nil_iff.mp hrest).2] at htext
        exact absurd htext List.not_mem_nil
    obtain ⟨rfl, rfl⟩ := hanswers
    refine ⟨h.sendable, h.lines, h.request, fun t ht ↦ h.answer t (List.mem_of_mem_erase ht),
      fun _ ↦ ⟨hasked.symm, hnil, rfl, List.erase_cons_head _ _⟩, fun h' ↦ ?_, Or.inl hasked.symm⟩
    cases h'

end Flow

/-! ## All together -/

/-- What was typed was sent, but for what ended the loop. -/
def Client.Typed (stdin : Bytes) (c : Client) : Prop :=
  ∃ dropped, c.lines.flatten ++ dropped ++ c.stdin = stdin ∧ (c.stage = .typing → dropped = []) ∧
    (c.stage = .waiting → dropped = [])

/-- The server waits for the next datagram, or has left: then a call has failed or the last datagram
was empty. -/
def Up (s : State ℕ) : Prop :=
  s.phase = .receiving ∧ s.failed = false ∧ (∀ d ∈ s.arrived, d.2 ≠ []) ∨
    s.phase = .left ∧ (s.failed = true ∨ ∃ d ∈ s.arrived, d.2 = [])

theorem Up.turn {s : State ℕ} (h : Up s) (hphase : s.phase = .receiving) (n : ℕ) {text : Bytes}
    (htext : Sendable text) (sendtoFails : Bool) : Up (s.turn n text sendtoFails) := by
  have hne : ∀ d ∈ s.arrived, d.2 ≠ [] := by
    rcases h with ⟨-, -, h⟩ | ⟨h, -⟩
    · exact h
    · rw [hphase] at h
      cases h
  rw [htext.turn_eq]
  by_cases hleft : sendtoFails ∨ text = []
  · refine Or.inr ⟨if_pos hleft, ?_⟩
    rcases hleft with hfails | hempty
    · exact Or.inl hfails
    · exact Or.inr ⟨(n, text), List.mem_append_right _ (List.mem_singleton_self _), hempty⟩
  · obtain ⟨hfails, hempty⟩ := not_or.mp hleft
    refine Or.inl ⟨(if_neg hleft).trans hphase, Bool.eq_false_iff.mpr hfails, fun d hd ↦ ?_⟩
    rcases List.mem_append.mp hd with hd | hd
    · exact hne d hd
    · rw [List.mem_singleton.mp hd]
      exact hempty

/-- What holds in every state. -/
structure System.Inv (stdin : ℕ → Bytes) (s : System) : Prop where
  /-- Each client agrees with the network. -/
  flow : ∀ n, Flow (s.clients n) (s.requests n) (s.answers n)
  /-- Its lines are what was typed. -/
  typed : ∀ n, (s.clients n).Typed (stdin n)
  /-- The server has received nothing but questions. -/
  arrived : ∀ d ∈ s.server.arrived, d.2 ∈ (s.clients d.1).asked
  /-- The server waits, or has ended for a reason. -/
  up : Up s.server

namespace System.Inv

variable {stdin : ℕ → Bytes} {s t : System} {n : ℕ} {text : Bytes}

theorem start : Inv stdin (System.start stdin) where
  flow n := by
    refine ⟨fun t ht ↦ absurd ht List.not_mem_nil, rfl, fun t ht ↦ absurd ht List.not_mem_nil,
      fun t ht ↦ absurd ht List.not_mem_nil, fun _ ↦ ⟨rfl, List.not_mem_nil, rfl, rfl⟩, fun h ↦ ?_,
      Or.inl rfl⟩
    cases h
  typed n := ⟨[], rfl, fun _ ↦ rfl, fun _ ↦ rfl⟩
  arrived d hd := absurd hd List.not_mem_nil
  up := Or.inl ⟨rfl, rfl, fun d hd ↦ absurd hd List.not_mem_nil⟩

/-- A step of one client and the datagrams that concern it. -/
theorem put (hs : Inv stdin s) {c : Client} {requests answers : List Bytes}
    (hflow : Flow c requests answers) (htyped : c.Typed (stdin n))
    (hasked : ∀ text ∈ (s.clients n).asked, text ∈ c.asked) :
    Inv stdin (s.put n c requests answers) where
  flow m := by
    by_cases hm : m = n
    · subst hm
      simp only [System.put, Function.update_self]
      exact hflow
    · simp only [System.put, Function.update_of_ne hm]
      exact hs.flow m
  typed m := by
    by_cases hm : m = n
    · subst hm
      simp only [System.put, Function.update_self]
      exact htyped
    · simp only [System.put, Function.update_of_ne hm]
      exact hs.typed m
  arrived d hd := by
    by_cases hm : d.1 = n
    · subst hm
      simp only [System.put, Function.update_self]
      exact hasked _ (hs.arrived d hd)
    · simp only [System.put, Function.update_of_ne hm]
      exact hs.arrived d hd
  up := hs.up

/-- The client stops: nothing more is sent, and what it has typed last is gone. -/
theorem stop (hs : Inv stdin s) {bytes : Bytes} {stage : Stage} (htyping : stage ≠ .typing)
    (hwaiting : stage ≠ .waiting)
    (hbytes : ∃ dropped, (s.clients n).lines.flatten ++ dropped ++ bytes = stdin n) :
    Inv stdin (s.become n { s.clients n with stdin := bytes, stage := stage }) := by
  obtain ⟨dropped, hdropped⟩ := hbytes
  refine hs.put ((hs.flow n).stop bytes htyping hwaiting) ?_ fun _ ht ↦ ht
  exact ⟨dropped, hdropped, fun h ↦ absurd h htyping, fun h ↦ absurd h hwaiting⟩

/-- What is typed in a turn that comes to nothing. -/
theorem exists_dropped (hs : Inv stdin s) (hstage : (s.clients n).stage = .typing) :
    ∃ dropped, (s.clients n).lines.flatten ++ dropped ++ (s.clients n).typed.2 = stdin n := by
  obtain ⟨dropped, htyped, hnil, -⟩ := hs.typed n
  refine ⟨(s.clients n).typed.1, ?_⟩
  rw [List.append_assoc, typedLine_append, ← htyped, hnil hstage, List.append_nil]

theorem asks (hs : Inv stdin s) (hstage : (s.clients n).stage = .typing) :
    Inv stdin (s.asks n) := by
  rw [System.asks]
  cases htext : Echo.reply (s.clients n).typed.1 with
  | error e => exact hs.stop (by decide) (by decide) (hs.exists_dropped hstage)
  | ok text =>
    have hsendable := sendable_of_reply (length_typedLine_lt _ (by decide)) htext
    refine hs.put ((hs.flow n).ask hstage htext hsendable) ?_
      fun t ht ↦ List.mem_append_left _ ht
    obtain ⟨dropped, htyped, hnil, -⟩ := hs.typed n
    refine ⟨[], ?_, fun _ ↦ rfl, fun _ ↦ rfl⟩
    simp only [Client.ask, List.flatten_append, List.flatten_singleton, List.append_nil]
    rw [List.append_assoc, typedLine_append, ← htyped, hnil hstage, List.append_nil]

/-- The server gets a datagram that a client has sent. -/
theorem serves (hs : Inv stdin s) (htext : text ∈ s.requests n) {u : State ℕ} {sendtoFails : Bool}
    (hstep : UdpServer.step s.server (.datagram n text sendtoFails) = some u) :
    Inv stdin (s.serves n text u) := by
  obtain ⟨hphase, hu⟩ := guarded_eq_some.mp hstep
  have hasked := (hs.flow n).request text htext
  have hsendable := (hs.flow n).sendable text hasked
  have hup := hs.up.turn hphase n hsendable sendtoFails
  rw [hu] at hup
  rw [hsendable.turn_eq] at hu
  have hflow : Flow (s.clients n) ((s.requests n).erase text)
      (s.answers n ++ part n (u.sent.drop s.server.sent.length)) := by
    rw [← hu]
    cases sendtoFails with
    | true =>
      simp only [if_true, List.drop_length, part_nil, List.append_nil]
      exact (hs.flow n).lose (List.erase_sublist) (List.Sublist.refl _)
    | false =>
      simp only [Bool.false_eq_true, if_false, List.drop_left, part_cons_self, part_nil]
      exact (hs.flow n).serve htext
  have hput := hs.put hflow (hs.typed n) fun _ ht ↦ ht
  refine ⟨hput.flow, hput.typed, fun d hd ↦ ?_, hup⟩
  simp only [System.serves, ← hu] at hd
  rcases List.mem_append.mp hd with hd | hd
  · exact hput.arrived d hd
  · rw [List.mem_singleton.mp hd]
    simp only [System.serves, System.put, Function.update_self]
    exact hasked

/-- The client gets an answer. -/
theorem print (hs : Inv stdin s) (hstage : (s.clients n).stage = .waiting)
    (htext : text ∈ s.answers n) :
    Inv stdin (s.put n ((s.clients n).print text) (s.requests n) ((s.answers n).erase text)) := by
  have hflow := (hs.flow n).print hstage htext
  obtain ⟨dropped, htyped, -, hnil⟩ := hs.typed n
  rw [((hs.flow n).sendable text ((hs.flow n).answer text htext)).print_eq] at hflow ⊢
  exact hs.put hflow ⟨dropped, htyped, fun _ ↦ hnil hstage, fun _ ↦ hnil hstage⟩ fun _ ht ↦ ht

theorem step (hs : Inv stdin s) {a : Action} (hstep : s.step a = some t) : Inv stdin t := by
  cases a with
  | ask n =>
    obtain ⟨hstage, rfl⟩ := guarded_eq_some.mp hstep
    exact hs.asks hstage
  | askFails n =>
    rw [System.step] at hstep
    split at hstep
    · obtain ⟨hstage, rfl⟩ := guarded_eq_some.mp hstep
      exact hs.stop (by decide) (by decide) (hs.exists_dropped hstage)
    · cases hstep
  | serve n text sendtoFails =>
    rw [System.step] at hstep
    split_ifs at hstep with htext
    obtain ⟨u, hu, rfl⟩ := Option.map_eq_some_iff.mp hstep
    exact hs.serves (List.contains_iff_mem.mp htext) hu
  | recvfromFails =>
    obtain ⟨u, hu, rfl⟩ := Option.map_eq_some_iff.mp hstep
    obtain ⟨-, rfl⟩ := guarded_eq_some.mp hu
    exact ⟨hs.flow, hs.typed, hs.arrived, Or.inr ⟨rfl, Or.inl rfl⟩⟩
  | print n text =>
    obtain ⟨⟨hstage, htext⟩, rfl⟩ := guarded_eq_some.mp hstep
    exact hs.print hstage (List.contains_iff_mem.mp htext)
  | printFails n =>
    obtain ⟨hstage, rfl⟩ := guarded_eq_some.mp hstep
    obtain ⟨dropped, htyped, -⟩ := hs.typed n
    exact hs.stop (by decide) (by decide) ⟨dropped, htyped⟩
  | loseRequest n text =>
    obtain ⟨-, rfl⟩ := guarded_eq_some.mp hstep
    exact hs.put ((hs.flow n).lose List.erase_sublist (List.Sublist.refl _)) (hs.typed n)
      fun _ ht ↦ ht
  | loseAnswer n text =>
    obtain ⟨-, rfl⟩ := guarded_eq_some.mp hstep
    exact hs.put ((hs.flow n).lose (List.Sublist.refl _) List.erase_sublist) (hs.typed n)
      fun _ ht ↦ ht

end System.Inv

section

variable {stdin : ℕ → Bytes} {s t : System} {actions : List Action} {n : ℕ}

theorem inv_of_run (hrun : run System.step (System.start stdin) actions = some s) :
    s.Inv stdin :=
  invariant_of_run (fun _ _ _ hs hstep ↦ hs.step hstep) .start hrun

/-- **Stop and wait.** Whatever is lost and in whatever order everything else happens: a client
prints the answers in the order of its lines, each line's own, and is at most one behind. It sends
what is left of a line when the newline is cut off, and its lines are what was typed, one after the
other. -/
theorem printed_of_run (hrun : run System.step (System.start stdin) actions = some s) (n : ℕ) :
    (s.clients n).lines.flatten <+: stdin n ∧
      (s.clients n).lines.map Echo.reply = (s.clients n).asked.map .ok ∧
      ((s.clients n).printed = (s.clients n).asked ∨
        ∃ text, (s.clients n).asked = (s.clients n).printed ++ [text]) ∧
      ((s.clients n).stage = .typing → (s.clients n).printed = (s.clients n).asked) := by
  have hs := inv_of_run hrun
  obtain ⟨dropped, htyped, -⟩ := hs.typed n
  refine ⟨⟨dropped ++ (s.clients n).stdin, ?_⟩, (hs.flow n).lines, (hs.flow n).printed,
    fun h ↦ ((hs.flow n).typing h).1⟩
  rw [← List.append_assoc, htyped]

/-- Both clients type a line; the datagram of the first is lost, and the second types an empty line
after its first one. -/
def twoClients : ℕ → Bytes
  | 0 => ascii "hi\n"
  | _ => ascii "ho\n\n"

theorem ho_printed : ∃ s, run System.step (System.start twoClients)
    [.ask 1, .serve 1 (ascii "ho") false, .print 1 (ascii "ho")] = some s ∧
      (s.clients 1).printed = (s.clients 1).asked := by
  have hstage : (run System.step (System.start twoClients)
      [.ask 1, .serve 1 (ascii "ho") false, .print 1 (ascii "ho")]).map
        (fun s ↦ (s.clients 1).stage) = some .typing := by decide +kernel
  obtain ⟨s, hrun, hs⟩ := Option.map_eq_some_iff.mp hstage
  exact ⟨s, hrun, (printed_of_run hrun 1).2.2.2 hs⟩

/-- **One empty line** ends the service for everybody: in every state of every run the server waits
for datagrams if and only if no call of it has failed and no empty datagram has reached it. -/
theorem receiving_iff (hrun : run System.step (System.start stdin) actions = some s) :
    s.server.phase = .receiving ↔
      s.server.failed = false ∧ ∀ d ∈ s.server.arrived, d.2 ≠ [] := by
  rcases (inv_of_run hrun).up with ⟨hphase, hup⟩ | ⟨hphase, hdown⟩
  · exact iff_of_true hphase hup
  · refine iff_of_false (by rw [hphase]; decide) ?_
    rintro ⟨hfailed, hne⟩
    rcases hdown with h | ⟨d, hd, hempty⟩
    · rw [hfailed] at h
      cases h
    · exact hne d hd hempty

theorem not_receiving_empty : ∃ s, run System.step (System.start twoClients)
    [.ask 1, .serve 1 (ascii "ho") false, .print 1 (ascii "ho"), .ask 1, .serve 1 [] false] =
      some s ∧ s.server.failed = false ∧ s.server.phase ≠ .receiving := by
  have harrived : (run System.step (System.start twoClients)
      [.ask 1, .serve 1 (ascii "ho") false, .print 1 (ascii "ho"), .ask 1, .serve 1 [] false]).map
        (fun s ↦ (s.server.failed, s.server.arrived)) =
          some (false, [(1, ascii "ho"), (1, [])]) := by decide +kernel
  obtain ⟨s, hrun, hs⟩ := Option.map_eq_some_iff.mp harrived
  obtain ⟨hfailed, harrived⟩ := Prod.mk.inj hs
  refine ⟨s, hrun, hfailed, fun h ↦ ((receiving_iff hrun).mp h).2 (1, []) ?_ rfl⟩
  rw [harrived]
  decide

/-! ## Waiting forever -/

/-- Client `n`, which has printed `printed`, cannot go on. -/
structure Stuck (n : ℕ) (printed : List Bytes) (s : System) : Prop where
  /-- It waits, or has ended. -/
  stage : (s.clients n).stage ≠ .typing
  /-- It has printed this. -/
  printed : (s.clients n).printed = printed
  /-- No answer is on its way. -/
  answers : s.answers n = []
  /-- There will be none. -/
  requests : s.requests n = [] ∨ s.server.phase ≠ .receiving

namespace Stuck

variable {m : ℕ} {printed : List Bytes}

theorem put {c : Client} {requests answers : List Bytes} (hstage : c.stage ≠ .typing)
    (hprinted : c.printed = printed) (hanswers : answers = [])
    (hrequests : requests = [] ∨ s.server.phase ≠ .receiving) :
    Stuck n printed (s.put n c requests answers) := by
  constructor <;> simp only [System.put, Function.update_self] <;> assumption

/-- The other clients do not matter. -/
theorem put_of_ne (h : Stuck n printed s) (hm : n ≠ m) (c : Client)
    (requests answers : List Bytes) : Stuck n printed (s.put m c requests answers) := by
  constructor <;> simp only [System.put, Function.update_of_ne hm]
  exacts [h.stage, h.printed, h.answers, h.requests]

theorem step (h : Stuck n printed s) {a : Action} (hstep : s.step a = some t) :
    Stuck n printed t := by
  cases a with
  | ask m =>
    obtain ⟨hstage, rfl⟩ := guarded_eq_some.mp hstep
    have hm : n ≠ m := fun hm ↦ h.stage (hm ▸ hstage)
    rw [System.asks]
    split
    · exact h.put_of_ne hm _ _ _
    · exact h.put_of_ne hm _ _ _
  | askFails m =>
    rw [System.step] at hstep
    split at hstep
    · obtain ⟨hstage, rfl⟩ := guarded_eq_some.mp hstep
      exact h.put_of_ne (fun hm ↦ h.stage (hm ▸ hstage)) _ _ _
    · cases hstep
  | serve m text sendtoFails =>
    rw [System.step] at hstep
    split_ifs at hstep with htext
    obtain ⟨u, hu, rfl⟩ := Option.map_eq_some_iff.mp hstep
    -- the server is up, so there is no datagram of client `n` that it could have got
    obtain ⟨hphase, -⟩ := guarded_eq_some.mp hu
    have hnil : s.requests n = [] := h.requests.resolve_right (not_not_intro hphase)
    have hm : n ≠ m := by
      rintro rfl
      rw [hnil] at htext
      cases htext
    have hput := h.put_of_ne hm (s.clients m) ((s.requests m).erase text)
      (s.answers m ++ part m (u.sent.drop s.server.sent.length))
    refine ⟨hput.stage, hput.printed, hput.answers, Or.inl ?_⟩
    simp only [System.serves, System.put, Function.update_of_ne hm]
    exact hnil
  | recvfromFails =>
    obtain ⟨u, hu, rfl⟩ := Option.map_eq_some_iff.mp hstep
    obtain ⟨-, rfl⟩ := guarded_eq_some.mp hu
    exact ⟨h.stage, h.printed, h.answers, Or.inr (by decide : Phase.left ≠ Phase.receiving)⟩
  | print m text =>
    obtain ⟨⟨-, htext⟩, rfl⟩ := guarded_eq_some.mp hstep
    refine h.put_of_ne ?_ _ _ _
    rintro rfl
    rw [h.answers] at htext
    cases htext
  | printFails m =>
    obtain ⟨-, rfl⟩ := guarded_eq_some.mp hstep
    by_cases hm : n = m
    · subst hm
      exact .put (by decide : Stage.left ≠ Stage.typing) h.printed h.answers h.requests
    · exact h.put_of_ne hm _ _ _
  | loseRequest m text =>
    obtain ⟨-, rfl⟩ := guarded_eq_some.mp hstep
    by_cases hm : n = m
    · subst hm
      refine .put h.stage h.printed h.answers (h.requests.imp_left fun hnil ↦ ?_)
      rw [hnil]
      rfl
    · exact h.put_of_ne hm _ _ _
  | loseAnswer m text =>
    obtain ⟨-, rfl⟩ := guarded_eq_some.mp hstep
    by_cases hm : n = m
    · subst hm
      refine .put h.stage h.printed ?_ h.requests
      rw [h.answers]
      rfl
    · exact h.put_of_ne hm _ _ _

end Stuck

/-- An answer can be printed. -/
theorem System.Inv.exists_print (hs : s.Inv stdin) (hstage : (s.clients n).stage = .waiting)
    (hanswers : s.answers n ≠ []) : ∃ a t, s.step a = some t ∧
      (s.clients n).printed.length < (t.clients n).printed.length := by
  obtain ⟨text, rest, hrest⟩ := List.exists_cons_of_ne_nil hanswers
  have htext : text ∈ s.answers n := hrest ▸ List.mem_cons_self
  refine ⟨.print n text, _, guarded_of ⟨hstage, List.contains_iff_mem.mpr htext⟩ _, ?_⟩
  simp only [System.put, Function.update_self]
  rw [((hs.flow n).sendable text ((hs.flow n).answer text htext)).print_eq, List.length_append]
  exact Nat.lt_succ_self _

/-- **Who waits forever.** In every state of every run a client that waits for its answer can still
get one, in some continuation of the run, if and only if the answer is on its way, or its datagram
is and the server has not left. -/
theorem answerable_iff (hrun : run System.step (System.start stdin) actions = some s)
    (hstage : (s.clients n).stage = .waiting) :
    (∃ more t, run System.step s more = some t ∧
      (t.clients n).printed ≠ (s.clients n).printed) ↔
      s.answers n ≠ [] ∨ s.requests n ≠ [] ∧ s.server.phase = .receiving := by
  have hs := inv_of_run hrun
  constructor
  · rintro ⟨more, t, hmore, hprinted⟩
    by_contra hnone
    obtain ⟨hanswers, hrequests⟩ := not_or.mp hnone
    have hstuck : Stuck n (s.clients n).printed s := by
      refine ⟨by rw [hstage]; decide, rfl, not_not.mp hanswers, ?_⟩
      exact (not_and_or.mp hrequests).imp_left not_not.mp
    exact hprinted
      (invariant_of_run (fun _ _ _ h hstep ↦ h.step hstep) hstuck hmore : Stuck n _ t).printed
  · rintro (hanswers | ⟨hrequests, hphase⟩)
    · obtain ⟨a, t, ht, hlt⟩ := hs.exists_print hstage hanswers
      exact ⟨[a], t, run_cons_of ht rfl, fun h ↦ absurd hlt (by rw [h]; exact lt_irrefl _)⟩
    · obtain ⟨text, rest, hrest⟩ := List.exists_cons_of_ne_nil hrequests
      have htext : text ∈ s.requests n := hrest ▸ List.mem_cons_self
      have hsendable := (hs.flow n).sendable text ((hs.flow n).request text htext)
      have hserve : s.step (.serve n text false) =
          some (s.serves n text (s.server.turn n text false)) := by
        rw [System.step, if_pos (List.contains_iff_mem.mpr htext), UdpServer.step,
          guarded_of hphase, Option.map_some]
      have hanswers : (s.serves n text (s.server.turn n text false)).answers n ≠ [] := by
        simp only [System.serves, System.put, Function.update_self, hsendable.turn_eq,
          Bool.false_eq_true, if_false, List.drop_left, part_cons_self]
        exact List.append_ne_nil_of_right_ne_nil _ (List.cons_ne_nil _ _)
      have hclient : (s.serves n text (s.server.turn n text false)).clients n = s.clients n :=
        Function.update_self _ _ _
      obtain ⟨a, t, ht, hlt⟩ :=
        (hs.step hserve).exists_print (by rw [hclient]; exact hstage) hanswers
      rw [hclient] at hlt
      exact ⟨[.serve n text false, a], t, run_cons_of hserve (run_cons_of ht rfl),
        fun h ↦ absurd hlt (by rw [h]; exact lt_irrefl _)⟩

theorem not_answerable_lost : ∃ s, run System.step (System.start twoClients)
    [.ask 0, .loseRequest 0 (ascii "hi")] = some s ∧ (s.clients 0).stage = .waiting ∧
      ¬∃ more t, run System.step s more = some t ∧
        (t.clients 0).printed ≠ (s.clients 0).printed := by
  have hlost : (run System.step (System.start twoClients)
      [.ask 0, .loseRequest 0 (ascii "hi")]).map
        (fun s ↦ ((s.clients 0).stage, s.requests 0, s.answers 0)) =
          some (.waiting, [], []) := by decide +kernel
  obtain ⟨s, hrun, hs⟩ := Option.map_eq_some_iff.mp hlost
  obtain ⟨hstage, hrequests, hanswers⟩ : _ ∧ _ ∧ _ := by simpa only [Prod.mk.injEq] using hs
  refine ⟨s, hrun, hstage, fun h ↦ ?_⟩
  rcases (answerable_iff hrun hstage).mp h with h | ⟨h, -⟩
  · exact h hanswers
  · exact h hrequests

end

end UdpServer

end CodeOnLinux
