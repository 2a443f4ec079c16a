import CodeOnLinux.DebugServer.Server
import CodeOnLinux.WebServer.Reading
import Mathlib.Order.Filter.AtTopBot.Basic

/-!
# Both `epoll` servers read a connection to the end

A connection is added with `EPOLLET`, so what a call of `http_request` leaves on it is not reported
again. On a socket that brings any bytes, with failures and ends of the stream at any calls of
`recv`, the reading phases of `01_webserver` and of the server under debugging end, and the last
`recv` of each brought nothing (`edgeTriggered`). In `01_webserver` the words of the line are taken
apart between its two halves, but this does not touch the socket.
-/

namespace CodeOnLinux

namespace Web

open Memory Pub Filter
open WebServer (maxSize readWords sscanf)
open DebugServer (bufSize)

variable {ω : Type}

/-! ## A system with a scripted socket -/

/-- A call that does not concern the socket. -/
def beside {α : Type} (call : ω → α × ω) (p : Socket × ω) : α × Socket × ω :=
  ((call p.2).1, p.1, (call p.2).2)

/-- The system `k`, where `connfd` is a socket with a script. -/
def scripted (script : ℕ → Outcome) (connfd : ℤ) (k : WebServer.Kernel ω) :
    WebServer.Kernel (Socket × ω) where
  recv fd peek p :=
    if fd = connfd then
      ((Socket.recv script peek p.1).1, (Socket.recv script peek p.1).2, p.2)
    else beside (k.recv fd peek) p
  send fd text := beside (k.send fd text)
  stat path := beside (k.stat path)
  openRead path := beside (k.openRead path)
  read fd n := beside (k.read fd n)
  close fd p := (p.1, k.close fd p.2)
  opendir path := beside (k.opendir path)
  readdir dir := beside (k.readdir dir)
  closedir dir p := (p.1, k.closedir dir p.2)

def scriptedSystem (script : ℕ → Outcome) (connfd : ℤ) (k : DebugServer.System ω) :
    DebugServer.System (Socket × ω) where
  toKernel := scripted script connfd k.toKernel
  noEntry p := k.noEntry p.2
  epollDel epfd fd p := (p.1, k.epollDel epfd fd p.2)

theorem scripted_recv (script : ℕ → Outcome) (connfd : ℤ) (k : WebServer.Kernel ω) (w : ω)
    (peek : Bool) (s : Socket) : (scripted script connfd k).recv connfd peek (s, w) =
      Prod.map id (·, w) (Socket.recv script peek s) := if_pos rfl

/-! ## The contract -/

/-- The reading phase ends in the state `s'`: `first` is the call that reads the line, `calls` are
those of the header loop. -/
structure EdgeTriggered (script : ℕ → Outcome) (size fuel : ℕ) (line input : Bytes) (first : Call)
    (calls : List Call) (s' : Socket) : Prop where
  /-- The phase ends. -/
  returns : readingPhase (Socket.recv script) size fuel line ⟨input, []⟩ = .ok (first, calls, s')
  /-- The first call stays inside the buffer for the line. -/
  first_within : first.Within line
  /-- The others stay inside theirs. -/
  calls_within : ∀ c ∈ calls, c.Within (List.replicate size 0)
  /-- The last `recv` brought nothing. -/
  last_recv : ∃ r ∈ s'.log.head?, r.Ends

theorem exists_edgeTriggered (script : ℕ → Outcome) {size fuel : ℕ} (hsize : 2 ≤ size)
    {line input : Bytes} (hline : line.length = size) (hfuel : input.length < fuel) :
    ∃ first calls s', EdgeTriggered script size fuel line input first calls s' := by
  obtain ⟨first, calls, s', hreturns, hfirst, hcalls, hlast⟩ :=
    readingPhase_drains (Socket.drains script) hsize hline (s := ⟨input, []⟩) hfuel
  exact ⟨first, calls, s', hreturns, hfirst, hcalls, hlast⟩

section

variable {script : ℕ → Outcome} {connfd : ℤ} {fuel : ℕ} {input : Bytes} {first : Call}
  {calls : List Call} {s' : Socket}

/-- `01_webserver` reads the line, takes it apart, and reads on. -/
theorem webServer_readRequest {k : WebServer.Kernel ω} {stack : WebServer.Stack}
    (h : EdgeTriggered script maxSize fuel stack.str input first calls s') (w : ω) :
    WebServer.readRequest (scripted script connfd k) fuel connfd stack (⟨input, []⟩, w) =
      (readWords (cString (first.text 0)) stack.words).map fun a ↦ (a, s', w) := by
  obtain ⟨s₁, hget, hdrop⟩ := readingPhase_eq_ok h.returns
  have hheader : WebServer.headerLoop ((scripted script connfd k).recv connfd) fuel (s₁, w) =
      .ok (s', w) := by
    rw [WebServer.headerLoop_map (scripted_recv script connfd k w), WebServer.headerLoop_eq, hdrop]
    rfl
  rw [WebServer.readRequest, readWords, getLine_map (scripted_recv script connfd k w), hget]
  simp only [Except.map, Checked.ok_bind, Prod.map, id, h.first_within.readStr_eq]
  cases sscanf (cString (first.text 0)) stack.words with
  | error e => rfl
  | ok a =>
    simp only [Checked.ok_bind]
    cases strdecode a.url 0 0 with
    | error e => rfl
    | ok u =>
      simp only [Checked.ok_bind, hheader]
      rfl

/-- The server under debugging reads everything before it takes the line apart. -/
theorem debugServer_readRequest {k : DebugServer.System ω}
    (h : EdgeTriggered script bufSize fuel (List.replicate bufSize 0) input first calls s')
    (w : ω) :
    DebugServer.readRequest (scriptedSystem script connfd k) fuel connfd (⟨input, []⟩, w) =
      (sscanf (cString (first.text 0)) DebugServer.Words.zero).map fun a ↦ (a, s', w) := by
  have hrecv : ∀ peek s, (scriptedSystem script connfd k).recv connfd peek (s, w) =
      Prod.map id (·, w) (Socket.recv script peek s) := scripted_recv script connfd k.toKernel w
  obtain ⟨s₁, hget, hdrop⟩ := readingPhase_eq_ok h.returns
  have hheader : DebugServer.headerLoop ((scriptedSystem script connfd k).recv connfd) fuel
      (s₁, w) = .ok (s', w) := by
    rw [DebugServer.headerLoop, dropLines_map hrecv, hdrop]
    rfl
  rw [DebugServer.readRequest, getLine_map hrecv, hget]
  simp only [Except.map, Checked.ok_bind, Prod.map, id, hheader, h.first_within.readStr_eq]
  cases sscanf (cString (first.text 0)) DebugServer.Words.zero <;> rfl

end

/-- **Both servers read to the end**, whatever the calls of `recv` bring, as long as it is finitely
many bytes in all, and every `get_line` stays inside its buffer. -/
theorem edgeTriggered (script : ℕ → Outcome) (connfd : ℤ) (input : Bytes) : ∀ᶠ fuel in atTop,
    (∀ (k : WebServer.Kernel ω) (stack : WebServer.Stack) (w : ω), ∃ first calls s',
      EdgeTriggered script maxSize fuel stack.str input first calls s' ∧
        WebServer.readRequest (scripted script connfd k) fuel connfd stack (⟨input, []⟩, w) =
          (readWords (cString (first.text 0)) stack.words).map fun a ↦ (a, s', w)) ∧
    ∀ (k : DebugServer.System ω) (w : ω), ∃ first calls s',
      EdgeTriggered script bufSize fuel (List.replicate bufSize 0) input first calls s' ∧
        DebugServer.readRequest (scriptedSystem script connfd k) fuel connfd (⟨input, []⟩, w) =
          (sscanf (cString (first.text 0)) DebugServer.Words.zero).map fun a ↦ (a, s', w) := by
  filter_upwards [eventually_gt_atTop input.length] with fuel hfuel
  constructor
  · intro k stack w
    obtain ⟨first, calls, s', h⟩ :=
      exists_edgeTriggered script (by decide) stack.length_str hfuel
    exact ⟨first, calls, s', h, webServer_readRequest h w⟩
  · intro k w
    have hsize : 2 ≤ bufSize := by decide
    obtain ⟨first, calls, s', h⟩ :=
      exists_edgeTriggered script hsize List.length_replicate hfuel
    exact ⟨first, calls, s', h, debugServer_readRequest h w⟩

end Web

end CodeOnLinux
