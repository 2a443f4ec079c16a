import CodeOnLinux.Foundation.Fgets
import CodeOnLinux.ProcessServer.Conversations

/-!
# The clients of the forking echo server: `02_tcp_process/client.c`

A client is two processes as well. The parent takes lines from its standard input, cuts the newline
off and writes them to the server, until a line begins with `exit` or is empty; the child prints
what comes back. Clients and server run together here, in any order.

What a user sees is the lines that his client has sent, without the newlines, in order and once;
only where one line ends and the next begins is lost (`typed_accounted`). The server can be told
`quit`, but `exit` does not reach it: the child of the client keeps the connection.

## Bytes and lines

A connection carries bytes: two lines may come back in one `read`, and one line in two. What is
accounted for is the bytes, in order, through five places: what the client has printed, what it was
sent, what the server has in its hand, what it has not read, and what was not typed yet
(`Client.Sound` with `Conversation.Sound`). The lines are found again only in what was sent.
-/

namespace CodeOnLinux

namespace ProcessServer

open Transition Echo Lines

/-! ## The program -/

inductive Writer
  | typing
  | exited
  /-- `write` has returned `0` for an empty line, or `-1`. -/
  | broken
  /-- `strlen(write_buffer) - 1` was in front of the buffer, and the parent may do anything. -/
  | underrun
  deriving DecidableEq

inductive Reader
  | reading
  | ended
  /-- `printf` has run out of `read_buffer`. -/
  | overrun
  deriving DecidableEq

/-- The two processes of a client. -/
structure Client where
  /-- What the parent has not read. -/
  stdin : Bytes
  /-- What the parent is doing. -/
  writer : Writer
  /-- Not in the source: the lines it has sent. -/
  lines : List Bytes
  /-- How much of what the server has written back the child has read. -/
  taken : ℕ
  /-- What the child is doing. -/
  reader : Reader
  /-- What it has printed. -/
  printed : List Bytes

/-- One turn of the parent, for the line that was typed. -/
inductive Typed
  | exit
  | empty
  | text (text : Bytes)

/-- `strncmp(write_buffer, "exit", 4) == 0` -/
def isExit (text : Bytes) : Bool := decide (text.take 4 = ascii "exit")

/-- From `fgets` to `write`. -/
def typeTurn (line : Bytes) : Checked Typed := do
  let buffer ← trim (padded size line)
  if isExit buffer then return .exit
  let n ← strlen buffer
  if n = 0 then return .empty else return .text (buffer.take n)

/-- What the next `fgets` stores, and what it leaves. -/
abbrev Client.typed (c : Client) : Bytes × Bytes := typedLine size c.stdin

/-- The parent after a turn. -/
def Client.turned (c : Client) : Client :=
  match typeTurn c.typed.1 with
  | .ok .exit => { c with stdin := c.typed.2, writer := .exited }
  | .ok .empty => { c with stdin := c.typed.2, writer := .broken }
  | .ok (.text _) => { c with stdin := c.typed.2, lines := c.lines ++ [c.typed.1] }
  | .error _ => { c with stdin := c.typed.2, writer := .underrun }

/-- The child has read `text` into the zeroed buffer. -/
def Client.print (c : Client) (text : Bytes) : Client :=
  match Memory.readStr (padded size text) 0 with
  | .ok line => { c with taken := c.taken + text.length, printed := c.printed ++ [line] }
  | .error _ => { c with taken := c.taken + text.length, reader := .overrun }

/-- The server and its clients. -/
structure System where
  /-- The processes of the server. -/
  server : State
  /-- The clients, in the order in which they are accepted. -/
  clients : ℕ → Client

def System.start (stdin : ℕ → Bytes) : System where
  server := init
  clients n := ⟨stdin n, .typing, [], 0, .reading, []⟩

/-- What the server does, and not a client. -/
def Label.own : Label → Bool
  | .send _ _ => false
  | .shut _ => false
  | _ => true

inductive Action
  | server (a : Label)
  | type (n : ℕ)
  | typeFails (n : ℕ)
  /-- The child reads `k` bytes. -/
  | print (n k : ℕ)
  /-- `read` returns `0` or `-1`. -/
  | readEnds (n : ℕ)
  /-- Both processes of the client have ended, and its socket is closed. -/
  | shut (n : ℕ)

namespace System

variable (limit : ℕ) (s : System)

def put (n : ℕ) (c : Client) : System := { s with clients := Function.update s.clients n c }

def step : Action → Option System
  | .server a =>
    if a.own then (ProcessServer.step limit s.server a).map fun t ↦ { s with server := t } else none
  | .type n =>
    if n < s.server.accepted ∧ (s.clients n).writer = .typing then
      match typeTurn (s.clients n).typed.1 with
      | .ok (.text text) => (ProcessServer.step limit s.server (.send n text)).map fun t ↦
          { s.put n (s.clients n).turned with server := t }
      | _ => some (s.put n (s.clients n).turned)
    else none
  | .typeFails n =>
    match typeTurn (s.clients n).typed.1 with
    | .ok (.text _) => guarded (n < s.server.accepted ∧ (s.clients n).writer = .typing)
        (s.put n { s.clients n with stdin := (s.clients n).typed.2, writer := .broken })
    | _ => none
  | .print n k => guarded (n < s.server.accepted ∧ (s.clients n).reader = .reading ∧ 0 < k ∧
      k ≤ min size ((s.server.conversations n).echoed.length - (s.clients n).taken))
      (s.put n ((s.clients n).print
        (((s.server.conversations n).echoed.drop (s.clients n).taken).take k)))
  | .readEnds n => guarded ((s.clients n).reader = .reading)
      (s.put n { s.clients n with reader := .ended })
  | .shut n =>
    if (s.clients n).writer ≠ .typing ∧ (s.clients n).reader ≠ .reading then
      (ProcessServer.step limit s.server (.shut n)).map fun t ↦ { s with server := t }
    else none

end System

/-! ## One turn of a client -/

section

variable {line text : Bytes}

theorem isExit_append (s tail : Bytes) : isExit (s ++ 0 :: tail) = isExit s := by
  have hzero : (0 : UInt8) ∉ ascii "exit" := by decide
  rw [isExit, isExit]
  exact decide_eq_decide.mpr (take_append_zero_eq_iff hzero tail)

/-- **A turn of the parent**, for a line without NULs. -/
theorem typeTurn_eq (hne : line ≠ []) (hlt : line.length < size) (hzero : 0 ∉ line) :
    typeTurn line = .ok (if isExit (chomp line) then .exit
      else if chomp line = [] then .empty else .text (chomp line)) := by
  have hbuffer : 0 ∈ padded size line := zero_mem_padded_iff.mpr (Or.inl hlt)
  have hstring : cString (padded size line) = line := by
    rw [cString_padded, cString_eq_self hzero]
  obtain ⟨buffer, htrim, hmem, hchomp⟩ := trim_ok hbuffer (by rw [hstring]; exact hne)
  rw [hstring] at hchomp
  obtain ⟨tail, htail⟩ := exists_eq_cString_append hmem
  have htake : buffer.take (chomp line).length = chomp line := by
    rw [← hchomp, take_length_cString]
  have hexit : isExit buffer = isExit (chomp line) := by
    rw [htail, hchomp, isExit_append]
  rw [typeTurn, htrim, Checked.ok_bind, strlen_ok hmem, hchomp, hexit]
  split_ifs with h hempty
  · rfl
  · rw [hempty]
    rfl
  · have hlen : (chomp line).length ≠ 0 := fun h ↦ hempty (List.length_eq_zero_iff.mp h)
    rw [Checked.ok_bind, if_neg hlen, htake]
    rfl

/-- What is sent for a line without NULs is the line without its newline. -/
theorem text_of_typeTurn {c : Client} (hzero : 0 ∉ c.stdin)
    (hturn : typeTurn c.typed.1 = .ok (.text text)) : text = chomp c.typed.1 := by
  have hne : c.typed.1 ≠ [] := by
    intro hnil
    rw [hnil] at hturn
    cases hturn
  have hline : 0 ∉ c.typed.1 := by
    intro h
    rw [← typedLine_append c.stdin size] at hzero
    exact hzero (List.mem_append_left _ h)
  rw [typeTurn_eq hne (length_typedLine_lt c.stdin (by decide)) hline] at hturn
  split_ifs at hturn
  · cases hturn
  · cases hturn
  · cases hturn
    rfl

end

/-! ## What the server does meanwhile -/

section

variable {limit : ℕ} {s t : State} {a : Label}

/-- Nothing has been said to clients that are still to come. -/
def State.Fresh (s : State) : Prop := ∀ n, s.accepted ≤ n → s.conversations n = .start

theorem State.Fresh.update (hs : s.Fresh) {n : ℕ} (hn : n < s.accepted) (c : Conversation) :
    (s.update n c).Fresh := by
  intro m hm
  have hne : m ≠ n := fun h ↦ absurd hm (Nat.not_le_of_lt (h ▸ hn))
  exact (Function.update_of_ne hne _ _).trans (hs m hm)

theorem State.Fresh.step (hs : s.Fresh) (h : ProcessServer.step limit s a = some t) : t.Fresh := by
  cases step_cases h with
  | accept hparent hfree =>
    intro m hm
    have hne : m ≠ s.accepted := fun h ↦ absurd hm (Nat.not_le_of_lt (h ▸ Nat.lt_succ_self _))
    exact (Function.update_of_ne hne _ _).trans (hs m (Nat.le_of_succ_le hm))
  | stop => exact hs
  | same => exact hs
  | reaped hparent => exact hs
  | next hn hnext => exact hs.update hn _
  | ends hserving hends => exact hs.update hserving.1 _

/-- The server takes nothing of what was sent back, and nothing of what it has written. -/
def Kept (c c' : Conversation) : Prop := c'.sent = c.sent ∧ c.echoed <+: c'.echoed

theorem Kept.refl (c : Conversation) : Kept c c := ⟨rfl, List.prefix_refl _⟩

theorem kept_update {f : ℕ → Conversation} {n : ℕ} {c : Conversation} (hc : Kept (f n) c) (m : ℕ) :
    Kept (f m) (Function.update f n c m) := by
  by_cases hm : m = n
  · subst hm
    rw [Function.update_self]
    exact hc
  · rw [Function.update_of_ne hm]
    exact .refl _

theorem kept_updated {n : ℕ} {c : Conversation} (hc : Kept (s.conversations n) c) (m : ℕ) :
    Kept (s.conversations m) ((s.update n c).conversations m) := kept_update hc m

theorem kept_ended {n : ℕ} {c : Conversation} (hc : Kept (s.conversations n) c) (m : ℕ) :
    Kept (s.conversations m) ((s.ended n c).conversations m) := kept_update hc m

theorem kept_turned (n k m : ℕ) : Kept (s.conversations m) ((s.turned n k).conversations m) := by
  rw [State.turned]
  split
  · refine kept_updated ?_ m
    exact ⟨rfl, List.prefix_append _ _⟩
  · refine kept_ended ?_ m
    exact ⟨rfl, List.prefix_refl _⟩
  · refine kept_ended ?_ m
    exact ⟨rfl, List.prefix_refl _⟩
  · refine kept_updated ?_ m
    exact ⟨rfl, List.prefix_refl _⟩

/-- **What the server does on its own** changes nothing that it was sent or has written. -/
theorem kept_of_own (hs : s.Fresh) (hown : a.own = true)
    (h : ProcessServer.step limit s a = some t) (m : ℕ) :
    Kept (s.conversations m) (t.conversations m) := by
  cases a with
  | accept =>
    rw [ProcessServer.step] at h
    split at h
    · obtain ⟨-, rfl⟩ := guarded_eq_some.mp h
      exact kept_update (by rw [hs _ (le_refl _)]; exact .refl _) m
    · cases h
  | forkFails =>
    rw [ProcessServer.step] at h
    split at h
    · obtain ⟨-, rfl⟩ := guarded_eq_some.mp h
      exact .refl _
    · cases h
  | acceptInterrupted =>
    obtain ⟨-, rfl⟩ := guarded_eq_some.mp h
    exact .refl _
  | acceptFails =>
    obtain ⟨-, rfl⟩ := guarded_eq_some.mp h
    exact .refl _
  | reaped =>
    obtain ⟨-, rfl⟩ := guarded_eq_some.mp h
    exact .refl _
  | send n text => cases hown
  | shut n => cases hown
  | read n k =>
    obtain ⟨-, rfl⟩ := guarded_eq_some.mp h
    exact kept_turned n k m
  | readEnd n =>
    obtain ⟨-, rfl⟩ := guarded_eq_some.mp h
    refine kept_ended ?_ m
    exact ⟨rfl, List.prefix_refl _⟩
  | readFails n =>
    obtain ⟨-, rfl⟩ := guarded_eq_some.mp h
    refine kept_ended ?_ m
    exact ⟨rfl, List.prefix_refl _⟩
  | writeFails n k =>
    rw [ProcessServer.step] at h
    split at h
    · obtain ⟨-, rfl⟩ := guarded_eq_some.mp h
      refine kept_ended ?_ m
      exact ⟨rfl, List.prefix_refl _⟩
    · cases h

end

/-! ## A client and its conversation -/

/-- A client and its conversation. -/
structure Client.Sound (stdin : Bytes) (c : Client) (conv : Conversation) : Prop where
  /-- What was typed was sent, but for at most a line that has ended the loop. -/
  typed : ∃ dropped, c.lines.flatten ++ dropped ++ c.stdin = stdin ∧
    (c.writer = .typing → dropped = []) ∧ dropped.length < size ∧ lf ∉ dropped.dropLast
  /-- What was sent is the lines without their newlines. -/
  sent : conv.sent = (c.lines.map chomp).flatten
  /-- The child has read what the server has written. -/
  le : c.taken ≤ conv.echoed.length
  /-- What was read was printed, but for what has filled the buffer. -/
  printed : ∃ burst, c.printed.flatten ++ burst = conv.echoed.take c.taken ∧
    (burst = [] ∨ c.reader = .overrun ∧ burst.length = size)

namespace Client.Sound

variable {stdin : Bytes} {c : Client} {conv conv' : Conversation}

theorem zero_notMem_sent (hc : c.Sound stdin conv) (hzero : 0 ∉ stdin) : 0 ∉ conv.sent := by
  obtain ⟨dropped, htyped, -⟩ := hc.typed
  rw [hc.sent, List.mem_flatten]
  rintro ⟨text, htext, hmem⟩
  obtain ⟨line, hline, rfl⟩ := List.mem_map.mp htext
  refine hzero ?_
  rw [← htyped]
  have hlines : 0 ∈ c.lines.flatten := List.mem_flatten.mpr ⟨line, hline, by
    rw [chomp] at hmem
    split at hmem
    · exact List.mem_of_mem_dropLast hmem
    · exact hmem⟩
  exact List.mem_append_left _ (List.mem_append_left _ hlines)

theorem kept (hc : c.Sound stdin conv) (h : Kept conv conv') : c.Sound stdin conv' where
  typed := hc.typed
  sent := h.1.trans hc.sent
  le := hc.le.trans h.2.length_le
  printed := by
    obtain ⟨burst, hburst, hfull⟩ := hc.printed
    obtain ⟨more, hmore⟩ := h.2
    refine ⟨burst, ?_, hfull⟩
    rw [hburst, ← hmore, List.take_append_of_le_length hc.le]

/-- The parent sends a line. -/
theorem send (hc : c.Sound stdin conv) (hzero : 0 ∉ stdin) (hwriter : c.writer = .typing)
    {text : Bytes} (hturn : typeTurn c.typed.1 = .ok (.text text)) (unread : Bytes) :
    c.turned.Sound stdin { conv with sent := conv.sent ++ text, unread := unread } := by
  obtain ⟨dropped, htyped, hnil, -⟩ := hc.typed
  rw [hnil hwriter, List.append_nil] at htyped
  have hstdin : 0 ∉ c.stdin := fun h ↦ hzero (htyped ▸ List.mem_append_right _ h)
  have htext := text_of_typeTurn hstdin hturn
  rw [turned, hturn]
  refine ⟨⟨[], ?_, fun _ ↦ rfl, by decide, List.not_mem_nil⟩, ?_, hc.le, hc.printed⟩
  · rw [List.flatten_append, List.flatten_singleton, List.append_nil, List.append_assoc,
      typedLine_append, htyped]
  · rw [hc.sent, htext, List.map_append, List.flatten_append, List.map_singleton,
      List.flatten_singleton]

/-- The loop of the parent ends. -/
theorem stopped (hc : c.Sound stdin conv) (hwriter : c.writer = .typing) {w : Writer}
    (hw : w ≠ .typing) : Client.Sound stdin { c with stdin := c.typed.2, writer := w } conv := by
  obtain ⟨dropped, htyped, hnil, -⟩ := hc.typed
  rw [hnil hwriter, List.append_nil] at htyped
  refine ⟨⟨c.typed.1, ?_, fun h ↦ absurd h hw, length_typedLine_lt _ (by decide),
    lf_notMem_dropLast_typedLine _⟩, hc.sent, hc.le, hc.printed⟩
  rw [List.append_assoc, typedLine_append, htyped]

/-- The child prints what it has read. -/
theorem print (hc : c.Sound stdin conv) (hconv : conv.Sound) (hzero : 0 ∉ stdin)
    (hreader : c.reader = .reading) {k : ℕ} (hk : k ≤ min size (conv.echoed.length - c.taken)) :
    (c.print ((conv.echoed.drop c.taken).take k)).Sound stdin conv := by
  have hle := hc.le
  obtain ⟨burst, hburst, hfull⟩ := hc.printed
  obtain rfl : burst = [] := by
    rcases hfull with h | ⟨h, -⟩
    · exact h
    · rw [hreader] at h
      cases h
  rw [List.append_nil] at hburst
  have hlen : ((conv.echoed.drop c.taken).take k).length = k := by
    rw [List.length_take, List.length_drop]
    omega
  have htake : conv.echoed.take (c.taken + k) =
      conv.echoed.take c.taken ++ (conv.echoed.drop c.taken).take k := by
    rw [List.take_add]
  have hmem : 0 ∉ (conv.echoed.drop c.taken).take k := by
    intro h
    refine hc.zero_notMem_sent hzero ?_
    rw [← hconv.echoed_append (hc.zero_notMem_sent hzero), List.append_assoc]
    exact List.mem_append_left _ (List.mem_of_mem_drop (List.mem_of_mem_take h))
  rw [Client.print, Memory.readStr, List.drop_zero]
  split_ifs with hroom
  · refine ⟨hc.typed, hc.sent, ?_, [], ?_, Or.inl rfl⟩
    · simp only [hlen]
      omega
    · simp only [hlen, htake, List.flatten_append, List.flatten_singleton, List.append_nil, hburst,
        cString_padded, cString_eq_self hmem]
  · refine ⟨hc.typed, hc.sent, ?_, (conv.echoed.drop c.taken).take k, ?_, Or.inr ⟨rfl, ?_⟩⟩
    · simp only [hlen]
      omega
    · simp only [hlen, htake, hburst]
    · rw [zero_mem_padded_iff, not_or, hlen] at hroom
      rw [hlen]
      omega

end Client.Sound

/-! ## All together -/

section

variable {limit : ℕ} {stdin : ℕ → Bytes} {s t : System} {a : Action} {n : ℕ}

/-- The server makes a run of its own, and each client agrees with its conversation. -/
structure System.Inv (limit : ℕ) (stdin : ℕ → Bytes) (s : System) : Prop where
  /-- The server makes a run of its own. -/
  reached : ∃ labels, run (ProcessServer.step limit) init labels = some s.server
  /-- Nothing was said by those who are not accepted. -/
  fresh : s.server.Fresh
  /-- Each client agrees with its conversation. -/
  sound : ∀ n, 0 ∉ stdin n → (s.clients n).Sound (stdin n) (s.server.conversations n)

namespace System.Inv

theorem start : Inv limit stdin (System.start stdin) where
  reached := ⟨[], rfl⟩
  fresh _ _ := rfl
  sound _ _ :=
    ⟨⟨[], rfl, fun _ ↦ rfl, by decide, List.not_mem_nil⟩, rfl, le_refl 0, [], rfl, Or.inl rfl⟩

theorem conversation (hs : Inv limit stdin s) (n : ℕ) : (s.server.conversations n).Sound := by
  obtain ⟨labels, hrun⟩ := hs.reached
  exact sound_of_run hrun n

/-- A step of the server, under which the clients stay what they are. -/
theorem server (hs : Inv limit stdin s) {label : Label} {u : State}
    (h : ProcessServer.step limit s.server label = some u)
    (hkept : ∀ m, Kept (s.server.conversations m) (u.conversations m)) :
    Inv limit stdin { s with server := u } where
  reached := by
    obtain ⟨labels, hrun⟩ := hs.reached
    exact ⟨labels ++ [label], run_append_eq_some.mpr ⟨_, hrun, run_cons_of h (run_nil u)⟩⟩
  fresh := hs.fresh.step h
  sound m hzero := (hs.sound m hzero).kept (hkept m)

/-- A step of a client, under which its conversation stays what it is. -/
theorem put (hs : Inv limit stdin s) {c : Client}
    (hc : 0 ∉ stdin n → c.Sound (stdin n) (s.server.conversations n)) :
    Inv limit stdin (s.put n c) where
  reached := hs.reached
  fresh := hs.fresh
  sound m hzero := by
    by_cases hm : m = n
    · subst hm
      simp only [System.put, Function.update_self]
      exact hc hzero
    · simp only [System.put, Function.update_of_ne hm]
      exact hs.sound m hzero

/-- A client sends a line. -/
theorem send (hs : Inv limit stdin s) {text : Bytes} {u : State}
    (hwriter : (s.clients n).writer = .typing)
    (hturn : typeTurn (s.clients n).typed.1 = .ok (.text text))
    (h : ProcessServer.step limit s.server (.send n text) = some u) :
    Inv limit stdin { s.put n (s.clients n).turned with server := u } where
  reached := by
    obtain ⟨labels, hrun⟩ := hs.reached
    exact ⟨labels ++ [.send n text], run_append_eq_some.mpr ⟨_, hrun, run_cons_of h (run_nil u)⟩⟩
  fresh := hs.fresh.step h
  sound m hzero := by
    obtain ⟨-, rfl⟩ := guarded_eq_some.mp h
    by_cases hm : m = n
    · subst hm
      simp only [System.put, State.update, Function.update_self]
      exact (hs.sound m hzero).send hzero hwriter hturn _
    · simp only [System.put, State.update, Function.update_of_ne hm]
      exact hs.sound m hzero

theorem step (hs : Inv limit stdin s) (h : s.step limit a = some t) : Inv limit stdin t := by
  cases a with
  | server label =>
    rw [System.step, Option.ite_none_right_eq_some] at h
    obtain ⟨hown, h⟩ := h
    obtain ⟨u, hu, rfl⟩ := Option.map_eq_some_iff.mp h
    exact hs.server hu fun m ↦ kept_of_own hs.fresh hown hu m
  | type n =>
    rw [System.step, Option.ite_none_right_eq_some] at h
    obtain ⟨⟨-, hwriter⟩, h⟩ := h
    have hstop : ∀ {w : Writer}, w ≠ .typing → Inv limit stdin
        (s.put n { s.clients n with stdin := (s.clients n).typed.2, writer := w }) :=
      fun hw ↦ hs.put fun hzero ↦ (hs.sound n hzero).stopped hwriter hw
    cases hturn : typeTurn (s.clients n).typed.1 with
    | error e =>
      simp only [hturn, Client.turned, Option.some_inj] at h
      exact h ▸ hstop (by decide)
    | ok typed =>
      cases typed with
      | exit =>
        simp only [hturn, Client.turned, Option.some_inj] at h
        exact h ▸ hstop (by decide)
      | empty =>
        simp only [hturn, Client.turned, Option.some_inj] at h
        exact h ▸ hstop (by decide)
      | text text =>
        simp only [hturn] at h
        obtain ⟨u, hu, rfl⟩ := Option.map_eq_some_iff.mp h
        exact hs.send hwriter hturn hu
  | typeFails n =>
    rw [System.step] at h
    split at h
    · obtain ⟨⟨-, hwriter⟩, rfl⟩ := guarded_eq_some.mp h
      exact hs.put fun hzero ↦ (hs.sound n hzero).stopped hwriter (by decide)
    · cases h
  | print n k =>
    obtain ⟨⟨-, hreader, -, hk⟩, rfl⟩ := guarded_eq_some.mp h
    exact hs.put fun hzero ↦ (hs.sound n hzero).print (hs.conversation n) hzero hreader hk
  | readEnds n =>
    obtain ⟨hreader, rfl⟩ := guarded_eq_some.mp h
    refine hs.put fun hzero ↦ ?_
    obtain ⟨htyped, hsent, hle, burst, hburst, hfull⟩ := hs.sound n hzero
    refine ⟨htyped, hsent, hle, burst, hburst, Or.inl ?_⟩
    rcases hfull with h | ⟨h, -⟩
    · exact h
    · rw [hreader] at h
      cases h
  | shut n =>
    rw [System.step, Option.ite_none_right_eq_some] at h
    obtain ⟨-, h⟩ := h
    obtain ⟨u, hu, rfl⟩ := Option.map_eq_some_iff.mp h
    refine hs.server hu fun m ↦ ?_
    obtain ⟨-, rfl⟩ := guarded_eq_some.mp hu
    refine kept_updated ?_ m
    exact ⟨rfl, List.prefix_refl _⟩

end System.Inv

/-- **A user sees the lines he has sent.** However many clients there are and whatever the order in
which all the processes go on: of a user who types no NUL, what his client has printed, what it was
sent and has not read, and what the server has not sent back are together the lines that the client
has sent, one after the other, without the newlines. These are what he has typed, but for what the
client has not read, and for at most one line, or a piece of a line, with which its loop has ended.
Only where the client has read a full buffer nothing is known of what it prints. -/
theorem typed_accounted {actions : List Action}
    (hrun : run (System.step limit) (System.start stdin) actions = some s) (n : ℕ)
    (hzero : 0 ∉ stdin n) :
    (∃ dropped, (s.clients n).lines.flatten ++ dropped ++ (s.clients n).stdin = stdin n ∧
      ((s.clients n).writer = .typing → dropped = []) ∧
      dropped.length < size ∧ lf ∉ dropped.dropLast) ∧
    ∃ burst,
      (s.clients n).printed.flatten ++ burst ++
          (s.server.conversations n).echoed.drop (s.clients n).taken ++
          (s.server.conversations n).last ++ (s.server.conversations n).unread =
        ((s.clients n).lines.map chomp).flatten ∧
      (burst = [] ∨ (s.clients n).reader = .overrun ∧ burst.length = size) := by
  have hs : System.Inv limit stdin s :=
    invariant_of_run (fun _ _ _ hs h ↦ hs.step h) .start hrun
  have hc := hs.sound n hzero
  obtain ⟨burst, hburst, hfull⟩ := hc.printed
  refine ⟨hc.typed, burst, ?_, hfull⟩
  rw [hburst, List.take_append_drop,
    (hs.conversation n).echoed_append (hc.zero_notMem_sent hzero), hc.sent]

/-- Two lines are typed, and come back as one. -/
def twoLines : List Action :=
  [.server .accept, .type 0, .type 0, .server (.read 0 4), .print 0 4]

theorem tobe_printed : ∃ s, run (System.step 8) (System.start fun _ ↦ ascii "to\nbe\n") twoLines =
    some s ∧ (s.clients 0).lines = [ascii "to\n", ascii "be\n"] ∧
      (s.clients 0).printed.flatten = ascii "tobe" := by
  have hseen : (run (System.step 8) (System.start fun _ ↦ ascii "to\nbe\n") twoLines).map
      (fun s ↦ ((s.clients 0).lines, (s.server.conversations 0).echoed.drop (s.clients 0).taken,
        (s.server.conversations 0).last, (s.server.conversations 0).unread, (s.clients 0).reader)) =
      some ([ascii "to\n", ascii "be\n"], [], [], [], .reading) := by decide +kernel
  obtain ⟨s, hrun, hs⟩ := Option.map_eq_some_iff.mp hseen
  obtain ⟨hlines, hdrop, hlast, hunread, hreader⟩ : _ ∧ _ ∧ _ ∧ _ ∧ _ := by
    simpa only [Prod.mk.injEq] using hs
  refine ⟨s, hrun, hlines, ?_⟩
  obtain ⟨-, burst, hall, hfull⟩ := typed_accounted hrun 0 (by decide)
  obtain rfl : burst = [] := by
    rcases hfull with h | ⟨h, -⟩
    · exact h
    · rw [hreader] at h
      cases h
  rw [hlines, hdrop, hlast, hunread] at hall
  simp only [List.append_nil] at hall
  rw [hall]
  decide

end

end ProcessServer

end CodeOnLinux
