import CodeOnLinux.Foundation.Components
import CodeOnLinux.LibeventServer.Delivery

/-!
# All connections of the libevent server: `event_base_dispatch`

The callbacks of all connections run in one process, one after the other. As long as nothing ends
the process, the connections do not meet: each makes the run it would make alone. But the process is
one, and there are three ways for a single client to end it for all.

## What ends the process

`bev_read_cb` takes a line off the input and faults where there is no whole line, or where the words
of the line do not fit or the URL is missing (`lineTarget`). It then prints all three words, so it
also reads past the array of a version that is not there (`bevReadCbPrinting`, `lineServed`). And
`SIGPIPE` is not ignored, neither by the program nor by libevent: once a client has hung up and
answers what it is sent with a reset, the next write to it is the end of the process.

`dispatch_iff` says that nothing else is: the process is sure to live through a run, whatever is on
its stack, if and only if on every connection each segment finds a whole line with three words that
fit, and nothing is written after a reset.

## What a client is sent

A client is sent the answers to the first lines of what it sent itself, in their order, and never
anything else. What was not written when the client hangs up is lost with the bufferevent
(`delivered_answers`).

A write to a connection that was not reset succeeds, for any number of bytes. `send_dir` leaves its
directories open; they are not counted here, as though there were always another descriptor: when
there is none the callback still returns, with an answer that has no body.
-/

namespace CodeOnLinux

namespace LibeventServer

open Filter Lines Merge Memory Transition
open WebServer (FileSystem Words sscanf sscanf_of_tokens site tokens version_of_tokens_none
  wordsWithin wordsWithin_eq_some tokens_eq_some)

/-! ## The callback with its `printf` -/

/-- The `printf` behind `sscanf`: each of the arrays has to hold a string. -/
def printWords (a : Words) : Checked Unit := do
  let _ ← readStr a.method 0
  let _ ← readStr a.url 0
  let _ ← readStr a.version 0
  return ()

/-- `bev_read_cb`, with the words printed before anything is done with them. -/
def bevReadCbPrinting {ω : Type} (e : Evbuffer) (k : Kernel ω) (fuel : ℕ) (stack : Stack) (c : Conn)
    (w : ω) : Checked (Conn × ω) :=
  match e.readln c.input with
  | (none, _) => .error .nullPointer
  | (some buffer, _) => do
    let words ← sscanf (cString buffer) stack.words
    printWords words
    bevReadCb e k fuel stack c w

/-- The path that is looked up for a line, if it has all three words and they fit. -/
def lineServed (line : Bytes) : Option Bytes :=
  (tokens (cString line)).bind fun _ ↦ lineTarget line

theorem lineServed_eq_some {line path : Bytes} : lineServed line = some path ↔
    (∃ words, tokens (cString line) = some words) ∧ lineTarget line = some path := by
  rw [lineServed, Option.bind_eq_some_iff, exists_and_right]

theorem readStr_wrote {a a' word : Bytes} (h : Wrote a a' 0 (word ++ [0])) :
    ∃ text, readStr a' 0 = .ok text := by
  obtain ⟨tail, rfl⟩ := h.eq_append
  exact ⟨_, by rw [List.append_assoc, List.singleton_append, readStr_append]⟩

/-- An array without NUL is not a string. -/
theorem readStr_ones (n : ℕ) : readStr (List.replicate n 1) 0 = .error .outOfBounds := by
  refine if_neg fun h ↦ ?_
  rw [List.drop_zero] at h
  exact absurd (List.eq_of_mem_replicate h) (by decide)

theorem printWords_of_served {line path : Bytes} (hline : lineServed line = some path)
    (stack : Stack) :
    ∃ words, sscanf (cString line) stack.words = .ok words ∧ printWords words = .ok () := by
  obtain ⟨⟨⟨m, u, v⟩, htokens⟩, htarget⟩ := lineServed_eq_some.mp hline
  obtain ⟨⟨method, url⟩, hwords, -⟩ := Option.map_eq_some_iff.mp htarget
  obtain ⟨rest, rest', hscan, hscan', hmethod, hurl, hversion⟩ := wordsWithin_eq_some hwords
  obtain ⟨_, _, rest'', hscanm, hscanu, hscanv⟩ := tokens_eq_some htokens
  obtain ⟨rfl, rfl⟩ := Prod.mk.inj (Option.some_inj.mp (hscan.symm.trans hscanm))
  obtain ⟨rfl, rfl⟩ := Prod.mk.inj (Option.some_inj.mp (hscan'.symm.trans hscanu))
  obtain ⟨a, ha, hwrote, hwrote', hwrote''⟩ := sscanf_of_tokens htokens
    (stack.length_method ▸ hmethod) (stack.length_url ▸ hurl)
    (stack.length_version ▸ hversion _ hscanv)
  refine ⟨a, ha, ?_⟩
  obtain ⟨_, hm⟩ := readStr_wrote hwrote
  obtain ⟨_, hu⟩ := readStr_wrote hwrote'
  obtain ⟨_, hv⟩ := readStr_wrote hwrote''
  simp only [printWords, hm, hu, hv, Checked.ok_bind, Checked.pure_eq_ok]

variable {ι : Type} [DecidableEq ι] (e : Evbuffer) (fs : FileSystem)

variable {e} in
/-- A line that is served is answered, as it is without the `printf`. -/
theorem bevReadCbPrinting_eventually (he : e.Lawful) {line path : Bytes}
    (hline : lineServed line = some path) :
    ∀ᶠ fuel in atTop, ∀ stack (c : Conn) w rest, takeCrlf c.input = some (line, rest) →
      ∃ w', bevReadCbPrinting e (disk fs) fuel stack c w =
        .ok (Conn.answer fs path { c with input := rest }, w') := by
  filter_upwards [bevReadCb_eventually fs he (lineServed_eq_some.mp hline).2]
    with fuel hcall stack c w rest htake
  obtain ⟨w', hw'⟩ := hcall stack c w rest htake
  obtain ⟨words, hwords, hprint⟩ := printWords_of_served hline stack
  refine ⟨w', ?_⟩
  rw [bevReadCbPrinting, he.readln_some _ _ _ htake]
  simp only [hwords, hprint, Checked.ok_bind, hw']

variable {e} in
theorem bevReadCbPrinting_of_takeCrlf_none (he : e.Lawful) (fuel : ℕ) (stack : Stack) {c : Conn}
    (w : Disk) (htake : takeCrlf c.input = none) :
    bevReadCbPrinting e (disk fs) fuel stack c w = .error .nullPointer := by
  rw [bevReadCbPrinting, he.readln_none _ htake]

variable {e} in
/-- On a stack of ones any other line is a fault, at the latest when the version is printed. -/
theorem bevReadCbPrinting_of_lineServed_none (he : e.Lawful) (fuel : ℕ) {c : Conn} (w : Disk)
    {line rest : Bytes} (htake : takeCrlf c.input = some (line, rest))
    (hline : lineServed line = none) (r : Conn × Disk) :
    bevReadCbPrinting e (disk fs) fuel .ones c w ≠ .ok r := by
  rw [bevReadCbPrinting, he.readln_some _ _ _ htake]
  intro h
  obtain ⟨words, hwords, h⟩ := Checked.bind_eq_ok.mp h
  obtain ⟨_, hprint, h⟩ := Checked.bind_eq_ok.mp h
  cases htokens : tokens (cString line) with
  | none =>
    obtain ⟨-, -, hprint⟩ := Checked.bind_eq_ok.mp hprint
    obtain ⟨-, -, hprint⟩ := Checked.bind_eq_ok.mp hprint
    have hversion : words.version = List.replicate 32 1 :=
      version_of_tokens_none htokens hwords
    rw [hversion, readStr_ones, Checked.error_bind] at hprint
    cases hprint
  | some words =>
    rw [lineServed, htokens, Option.bind_some] at hline
    obtain ⟨err, herr⟩ := bevReadCb_of_lineTarget_none fs he fuel w htake hline
    rw [herr] at h
    cases h

/-! ## The program -/

/-- What happens on a connection. -/
inductive Event
  /-- `accept_cb` -/
  | accept
  /-- Libevent has read a segment, and calls `bev_read_cb`. -/
  | receive (segment : Bytes)
  /-- Libevent calls `writev`, for that many bytes of the output or for what there is. -/
  | write (n : ℕ)
  /-- The client has hung up, and its reset arrives, the answer to what it was sent since. -/
  | reset
  /-- `bev_event_cb` is called with these of `BEV_EVENT_EOF` and `BEV_EVENT_ERROR`. -/
  | event (eof error : Bool)

/-- The bufferevent is there from `accept_cb` on until it is freed. -/
inductive Bev
  | unaccepted
  | live (c : Conn)
  | freed

def Bev.conn : Bev → Option Conn
  | .live c => some c
  | _ => none

/-- A connection. -/
structure Session where
  /-- The bufferevent. -/
  bev : Bev
  /-- What the client was sent. -/
  delivered : Bytes
  /-- Whether the client has reset the connection. -/
  isReset : Bool

def Session.start : Session := ⟨.unaccepted, [], false⟩

def acceptCb (s : Session) : Option Session :=
  match s.bev with
  | .unaccepted => some { s with bev := .live Conn.start, isReset := false }
  | _ => none

/-- `BEV_OPT_CLOSE_ON_FREE`: the socket is closed with the bufferevent. -/
def bevEventCb (eof error : Bool) (s : Session) : Session :=
  if eof || error then { s with bev := .freed } else s

def Session.write (n : ℕ) (c : Conn) (s : Session) : Session where
  bev := .live { c with output := c.output.drop n }
  delivered := s.delivered ++ c.output.take n
  isReset := s.isReset

/-- The program while it runs. -/
structure Process (ι : Type) where
  /-- The connections. -/
  sessions : ι → Session
  /-- The files that the callbacks have opened. -/
  disk : Disk
  /-- How many times `bev_read_cb` was called. -/
  calls : ℕ

def Process.start : Process ι := ⟨fun _ ↦ .start, .start, 0⟩

/-- The process runs, has left the defined behaviour, or was ended by `SIGPIPE`. -/
inductive Status (ι : Type)
  | running (p : Process ι)
  | faulted (fault : Fault)
  | killed

def Process.put (p : Process ι) (i : ι) (s : Session) : Process ι :=
  { p with sessions := Function.update p.sessions i s }

/-- The arrays of the calls hold what `arrays` says. Nothing happens in a process that has ended. -/
def dispatch (arrays : ℕ → Stack) (fuel : ℕ) : Status ι → ι × Event → Option (Status ι)
  | .running p, (i, .accept) =>
    (acceptCb (p.sessions i)).map fun session ↦ .running (p.put i session)
  | .running p, (i, .receive segment) => (p.sessions i).bev.conn.bind fun c ↦ guarded (segment ≠ [])
      (match bevReadCbPrinting e (disk fs) fuel (arrays p.calls)
          { c with input := c.input ++ segment } p.disk with
        | .error fault => .faulted fault
        | .ok (c, w) => .running {
          sessions := Function.update p.sessions i { p.sessions i with bev := .live c }
          disk := w
          calls := p.calls + 1 })
  | .running p, (i, .write n) => (p.sessions i).bev.conn.map fun c ↦
      if (p.sessions i).isReset then .killed else .running (p.put i ((p.sessions i).write n c))
  | .running p, (i, .reset) => (p.sessions i).bev.conn.map fun _ ↦
      .running (p.put i { p.sessions i with isReset := true })
  | .running p, (i, .event eof error) => (p.sessions i).bev.conn.map fun _ ↦
      .running (p.put i (bevEventCb eof error (p.sessions i)))
  | _, _ => none

/-! ## A connection of its own -/

/-- A connection as its client sees it, where `serves` says which path is looked up for a line: a
segment is answered for the first line that is left. -/
def Session.step (serves : Bytes → Option Bytes) (s : Session) : Event → Option Session
  | .accept => acceptCb s
  | .receive segment => s.bev.conn.bind fun c ↦ (guarded (segment ≠ []) (c.input ++ segment)).bind
      fun input ↦ (takeCrlf input).bind fun r ↦ (serves r.1).map fun path ↦
        { s with bev := .live (Conn.answer fs path { c with input := r.2 }) }
  | .write n => s.bev.conn.bind fun c ↦ guarded (s.isReset = false) (s.write n c)
  | .reset => s.bev.conn.map fun _ ↦ { s with isReset := true }
  | .event eof error => s.bev.conn.map fun _ ↦ bevEventCb eof error s

variable {e fs} {serves : Bytes → Option Bytes} {σ τ : ι → Session} {s : Session}
  {label : ι × Event} {labels : List (ι × Event)}

theorem Session.step_receive {segment : Bytes} {t : Session} :
    s.step fs serves (.receive segment) = some t ↔ ∃ c line rest path, s.bev.conn = some c ∧
      segment ≠ [] ∧ takeCrlf (c.input ++ segment) = some (line, rest) ∧ serves line = some path ∧
      t = { s with bev := .live (Conn.answer fs path { c with input := rest }) } := by
  simp only [Session.step, Option.bind_eq_some_iff, guarded_eq_some, Option.map_eq_some_iff,
    Prod.exists]
  constructor
  · rintro ⟨c, hc, _, ⟨hne, rfl⟩, line, rest, htake, path, hpath, rfl⟩
    exact ⟨c, line, rest, path, hc, hne, htake, hpath, rfl⟩
  · rintro ⟨c, line, rest, path, hc, hne, htake, hpath, rfl⟩
    exact ⟨c, hc, _, ⟨hne, rfl⟩, line, rest, htake, path, hpath, rfl⟩

theorem Session.step_write {n : ℕ} {t : Session} : s.step fs serves (.write n) = some t ↔
    ∃ c, s.bev.conn = some c ∧ s.isReset = false ∧ s.write n c = t := by
  simp only [Session.step, Option.bind_eq_some_iff, guarded_eq_some]

/-- But for the calls of `bev_read_cb`, the process does what the connection does, and lives if the
connection can do it. -/
theorem dispatch_eq_running {event : Event} (hevent : ∀ segment, event ≠ .receive segment)
    {arrays : ℕ → Stack} {fuel : ℕ} {p q : Process ι} {i : ι} :
    dispatch e fs arrays fuel (.running p) (i, event) = some (.running q) ↔
      ∃ t, (p.sessions i).step fs serves event = some t ∧ p.put i t = q := by
  cases event with
  | accept => simp only [dispatch, Session.step, Option.map_eq_some_iff, Status.running.injEq]
  | receive segment => exact absurd rfl (hevent segment)
  | write n =>
    simp only [dispatch, Session.step_write, Option.map_eq_some_iff]
    constructor
    · rintro ⟨c, hc, h⟩
      split at h
      · cases h
      · next halive =>
        exact ⟨_, ⟨c, hc, Bool.eq_false_iff.mpr halive, rfl⟩, Status.running.inj h⟩
    · rintro ⟨_, ⟨c, hc, halive, rfl⟩, rfl⟩
      exact ⟨c, hc, if_neg (by rw [halive]; exact Bool.false_ne_true)⟩
  | reset => simp [dispatch, Session.step, Option.map_eq_some_iff]
  | event eof error => simp [dispatch, Session.step, Option.map_eq_some_iff]

/-- A call is made where a connection is there and a segment has come, and has to return. -/
theorem dispatch_receive {segment : Bytes} {arrays : ℕ → Stack} {fuel : ℕ} {p q : Process ι}
    {i : ι} : dispatch e fs arrays fuel (.running p) (i, .receive segment) = some (.running q) ↔
      ∃ c r, (p.sessions i).bev.conn = some c ∧ segment ≠ [] ∧
        bevReadCbPrinting e (disk fs) fuel (arrays p.calls)
          { c with input := c.input ++ segment } p.disk = .ok r ∧
        { p.put i { p.sessions i with bev := .live r.1 } with
          disk := r.2, calls := p.calls + 1 } = q := by
  simp only [dispatch, Option.bind_eq_some_iff, guarded_eq_some]
  constructor
  · rintro ⟨c, hc, hne, h⟩
    split at h
    · cases h
    · next c' w hr => exact ⟨c, _, hc, hne, hr, Status.running.inj h⟩
  · rintro ⟨c, ⟨c', w⟩, hc, hne, hr, rfl⟩
    exact ⟨c, hc, hne, by rw [hr]; rfl⟩

/-- The process makes the step that the connection makes of its own, if the lines are served. -/
theorem dispatch_of_stepAt (he : e.Lawful)
    (hstep : stepAt (Session.step fs lineServed) σ label = some τ) :
    ∀ᶠ fuel in atTop, ∀ arrays (p : Process ι), p.sessions = σ →
      ∃ q, dispatch e fs arrays fuel (.running p) label = some (.running q) ∧ q.sessions = τ := by
  obtain ⟨i, event⟩ := label
  obtain ⟨t, ht, rfl⟩ := stepAt_eq_some.mp hstep
  by_cases hevent : ∀ segment, event ≠ .receive segment
  · refine Eventually.of_forall fun fuel arrays p hp ↦ ?_
    subst hp
    exact ⟨_, (dispatch_eq_running hevent).mpr ⟨t, ht, rfl⟩, rfl⟩
  · obtain ⟨segment, rfl⟩ := not_forall_not.mp hevent
    obtain ⟨c, line, rest, path, hc, hne, htake, hpath, rfl⟩ := Session.step_receive.mp ht
    filter_upwards [bevReadCbPrinting_eventually fs he hpath] with fuel hcall arrays p hp
    subst hp
    obtain ⟨w, hw⟩ :=
      hcall (arrays p.calls) { c with input := c.input ++ segment } p.disk rest htake
    exact ⟨_, dispatch_receive.mpr ⟨c, _, hc, hne, hw, rfl⟩, rfl⟩

/-- On stacks of ones the process cannot make any other step and live. -/
theorem dispatch_of_stepAt_none (he : e.Lawful)
    (hstep : stepAt (Session.step fs lineServed) σ label = none) (fuel : ℕ) {p : Process ι}
    (hp : p.sessions = σ) (q : Process ι) :
    dispatch e fs (fun _ ↦ .ones) fuel (.running p) label ≠ some (.running q) := by
  subst hp
  obtain ⟨i, event⟩ := label
  rw [stepAt, Option.map_eq_none_iff] at hstep
  intro h
  have hnone : ∀ t, (p.sessions i).step fs lineServed event ≠ some t := fun t ht ↦ by
    rw [hstep] at ht
    cases ht
  by_cases hevent : ∀ segment, event ≠ .receive segment
  · obtain ⟨t, ht, -⟩ := (dispatch_eq_running hevent).mp h
    exact hnone t ht
  · obtain ⟨segment, rfl⟩ := not_forall_not.mp hevent
    obtain ⟨c, r, hc, hne, hr, -⟩ := dispatch_receive.mp h
    cases htake : takeCrlf (c.input ++ segment) with
    | none =>
      rw [bevReadCbPrinting_of_takeCrlf_none fs he fuel _ p.disk htake] at hr
      cases hr
    | some l =>
      obtain ⟨line, rest⟩ := l
      cases hpath : lineServed line with
      | none =>
        exact bevReadCbPrinting_of_lineServed_none fs he fuel
          (c := { c with input := c.input ++ segment }) p.disk htake hpath r hr
      | some path =>
        exact hnone _ (Session.step_receive.mpr ⟨c, line, rest, path, hc, hne, htake, hpath, rfl⟩)

/-! ## Runs of the process -/

theorem run_of_stepAt (he : e.Lawful)
    (hrun : run (stepAt (Session.step fs lineServed)) σ labels = some τ) :
    ∀ᶠ fuel in atTop, ∀ arrays (p : Process ι), p.sessions = σ → ∃ q,
      run (dispatch e fs arrays fuel) (.running p) labels = some (.running q) ∧ q.sessions = τ := by
  induction labels generalizing σ with
  | nil =>
    obtain rfl := Option.some_inj.mp hrun
    exact Eventually.of_forall fun fuel arrays p hp ↦ ⟨p, rfl, hp⟩
  | cons label labels ih =>
    obtain ⟨υ, hυ, htail⟩ := run_cons_eq_some.mp hrun
    filter_upwards [dispatch_of_stepAt he hυ, ih htail] with fuel hfirst hrest arrays p hp
    obtain ⟨q, hq, hqυ⟩ := hfirst arrays p hp
    obtain ⟨r, hr, hrτ⟩ := hrest arrays q hqυ
    exact ⟨r, run_cons_of hq hr, hrτ⟩

/-- A process that has ended stays as it is. -/
theorem running_of_run {arrays : ℕ → Stack} {fuel : ℕ} {u : Status ι} {q : Process ι}
    (hrun : run (dispatch e fs arrays fuel) u labels = some (.running q)) :
    ∃ p, u = .running p := by
  cases u with
  | running p => exact ⟨p, rfl⟩
  | faulted fault =>
    cases labels with
    | nil => cases hrun
    | cons label labels => cases hrun
  | killed =>
    cases labels with
    | nil => cases hrun
    | cons label labels => cases hrun

theorem run_of_stepAt_none (he : e.Lawful)
    (hrun : run (stepAt (Session.step fs lineServed)) σ labels = none) :
    ∀ᶠ fuel in atTop, ∀ (p : Process ι), p.sessions = σ → ∀ q,
      run (dispatch e fs (fun _ ↦ .ones) fuel) (.running p) labels ≠ some (.running q) := by
  induction labels generalizing σ with
  | nil => cases hrun
  | cons label labels ih =>
    cases hstep : stepAt (Session.step fs lineServed) σ label with
    | none =>
      refine Eventually.of_forall fun fuel p hp q h ↦ ?_
      obtain ⟨u, hu, htail⟩ := run_cons_eq_some.mp h
      obtain ⟨p', rfl⟩ := running_of_run htail
      exact dispatch_of_stepAt_none he hstep fuel hp p' hu
    | some υ =>
      rw [run, hstep, Option.bind_some] at hrun
      filter_upwards [dispatch_of_stepAt he hstep, ih hrun] with fuel hfirst hrest p hp q h
      obtain ⟨u, hu, huυ⟩ := hfirst (fun _ ↦ .ones) p hp
      obtain ⟨u', hu', htail⟩ := run_cons_eq_some.mp h
      obtain rfl : .running u = u' := Option.some_inj.mp (hu.symm.trans hu')
      exact hrest u huυ q htail

/-! ## Runs of a connection -/

/-- Whether the connection was accepted, and whether its client is still there and takes what it is
sent. -/
inductive Life
  | new
  | open (isReset : Bool)
  | closed

def Session.life (s : Session) : Life :=
  match s.bev with
  | .unaccepted => .new
  | .live _ => .open s.isReset
  | .freed => .closed

/-- What can happen when, and leaves the process alive: a connection is accepted once, things happen
on it until it is freed, and nothing is written after it was reset. -/
def Life.step : Life → Event → Option Life
  | .new, .accept => some (.open false)
  | .open isReset, .receive segment => guarded (segment ≠ []) (.open isReset)
  | .open isReset, .write _ => guarded (isReset = false) (.open isReset)
  | .open _, .reset => some (.open true)
  | .open isReset, .event eof error => some (if eof || error then .closed else .open isReset)
  | _, _ => none

/-- The segments that arrive. -/
def segments : List Event → List Bytes
  | [] => []
  | .receive segment :: events => segment :: segments events
  | _ :: events => segments events

/-- Each segment finds a whole line, and the line is served. -/
def Readable (serves : Bytes → Option Bytes) (buf : Bytes) (segments : List Bytes) : Prop :=
  ∃ lines, taken buf segments = some lines ∧ ∀ l ∈ lines, (serves l).isSome

/-- The answer to a line. -/
def lineResponse (fs : FileSystem) (line : Bytes) : Bytes :=
  ((lineTarget line).map (response fs)).getD []

def answers (fs : FileSystem) (lines : List Bytes) : Bytes := (lines.map (lineResponse fs)).flatten

/-- What is left in the input buffer. -/
def Bev.input (b : Bev) : Bytes := (b.conn.map Conn.input).getD []

/-- What is left in the output buffer. -/
def Bev.output (b : Bev) : Bytes := (b.conn.map Conn.output).getD []

theorem readable_cons {buf segment : Bytes} {segments : List Bytes} :
    Readable serves buf (segment :: segments) ↔ ∃ line rest,
      takeCrlf (buf ++ segment) = some (line, rest) ∧ (serves line).isSome ∧
        Readable serves rest segments := by
  constructor
  · rintro ⟨lines, htaken, hlines⟩
    obtain ⟨⟨line, rest⟩, htake, htaken⟩ := Option.bind_eq_some_iff.mp htaken
    obtain ⟨tail, htail, rfl⟩ := Option.map_eq_some_iff.mp htaken
    obtain ⟨hline, hlines⟩ := List.forall_mem_cons.mp hlines
    exact ⟨line, rest, htake, hline, tail, htail, hlines⟩
  · rintro ⟨line, rest, htake, hline, tail, htail, hlines⟩
    refine ⟨line :: tail, ?_, List.forall_mem_cons.mpr ⟨hline, hlines⟩⟩
    rw [taken, htake, Option.bind_some, htail, Option.map_some]

theorem run_closed_isSome {events : List Event} :
    (run Life.step .closed events).isSome ↔ events = [] := by
  cases events with
  | nil => exact iff_of_true rfl rfl
  | cons event events =>
    refine iff_of_false (fun h ↦ ?_) (List.cons_ne_nil event events)
    cases event <;> cases h

theorem readable_nil (serves : Bytes → Option Bytes) (buf : Bytes) : Readable serves buf [] :=
  ⟨[], rfl, fun _ h ↦ absurd h List.not_mem_nil⟩

/-- Where a step can be taken, the rest of a run goes on from there. -/
theorem exists_run_cons {t : Session} {event : Event} {events : List Event}
    (h : s.step fs serves event = some t) :
    (∃ u, run (Session.step fs serves) s (event :: events) = some u) ↔
      ∃ u, run (Session.step fs serves) t events = some u := by
  rw [run, h, Option.bind_some]

theorem not_exists_run_cons {event : Event} {events : List Event}
    (h : s.step fs serves event = none) :
    ¬∃ u, run (Session.step fs serves) s (event :: events) = some u := by
  rintro ⟨u, hu⟩
  rw [run, h] at hu
  cases hu

/-- A connection can go on as long as its client keeps the order and can be read. -/
theorem exists_run_iff {events : List Event} : ∀ {s : Session},
    (∃ t, run (Session.step fs serves) s events = some t) ↔
      (run Life.step s.life events).isSome ∧ Readable serves s.bev.input (segments events) := by
  induction events with
  | nil => exact fun {s} ↦ iff_of_true ⟨s, rfl⟩ ⟨rfl, readable_nil _ _⟩
  | cons event events ih =>
    rintro ⟨bev, delivered, isReset⟩
    cases bev with
    | unaccepted =>
      cases event with
      | accept => exact (exists_run_cons rfl).trans ih
      | receive segment => exact iff_of_false (not_exists_run_cons rfl) fun h ↦ by cases h.1
      | write n => exact iff_of_false (not_exists_run_cons rfl) fun h ↦ by cases h.1
      | reset => exact iff_of_false (not_exists_run_cons rfl) fun h ↦ by cases h.1
      | event eof error => exact iff_of_false (not_exists_run_cons rfl) fun h ↦ by cases h.1
    | freed =>
      have hclosed : ¬(run Life.step .closed (event :: events)).isSome := fun h ↦
        absurd (run_closed_isSome.mp h) (List.cons_ne_nil event events)
      refine iff_of_false (not_exists_run_cons ?_) fun h ↦ hclosed h.1
      cases event <;> rfl
    | live c =>
      cases event with
      | accept => exact iff_of_false (not_exists_run_cons rfl) fun h ↦ by cases h.1
      | write n =>
        cases isReset with
        | false => exact (exists_run_cons rfl).trans ih
        | true => exact iff_of_false (not_exists_run_cons rfl) fun h ↦ by cases h.1
      | reset => exact (exists_run_cons rfl).trans ih
      | event eof error =>
        refine (exists_run_cons rfl).trans (ih.trans ?_)
        by_cases hgone : (eof || error) = true
        · simp only [bevEventCb, hgone, if_true, run, Life.step, Session.life, Option.bind_some]
          refine and_congr_right fun h ↦ ?_
          obtain rfl := run_closed_isSome.mp h
          exact iff_of_true (readable_nil _ _) (readable_nil _ _)
        · simp only [bevEventCb, hgone, run, Life.step, Session.life, Option.bind_some]
          rfl
      | receive segment =>
        have hlife : (run Life.step (.open isReset) (.receive segment :: events)).isSome ↔
            segment ≠ [] ∧ (run Life.step (.open isReset) events).isSome := by
          rw [run, Life.step, guarded]
          split
          · next hne => exact (and_iff_right hne).symm
          · next hne => exact iff_of_false (fun h ↦ by cases h) fun h ↦ hne h.1
        rw [Session.life, hlife, segments, readable_cons]
        constructor
        · rintro ⟨u, hu⟩
          obtain ⟨t, ht, hu⟩ := run_cons_eq_some.mp hu
          obtain ⟨_, line, rest, path, hc, hne, htake, hpath, rfl⟩ := Session.step_receive.mp ht
          obtain rfl := Option.some_inj.mp hc
          obtain ⟨hrest, hread⟩ := ih.mp ⟨u, hu⟩
          exact ⟨⟨hne, hrest⟩, line, rest, htake, by rw [hpath, Option.isSome_some], hread⟩
        · rintro ⟨⟨hne, hrest⟩, line, rest, htake, hline, hread⟩
          obtain ⟨path, hpath⟩ := Option.isSome_iff_exists.mp hline
          have ht : Session.step fs serves ⟨.live c, delivered, isReset⟩ (.receive segment) =
              some _ :=
            Session.step_receive.mpr ⟨c, line, rest, path, rfl, hne, htake, hpath, rfl⟩
          exact (exists_run_cons ht).mpr (ih.mpr ⟨hrest, hread⟩)

/-- What the clients do keeps the order of a connection and can be read, line by line. -/
def Fine (serves : Bytes → Option Bytes) (events : List Event) : Prop :=
  (run Life.step .new events).isSome ∧ Readable serves [] (segments events)

variable (fs labels) in
theorem exists_sessions_iff :
    (∃ τ, run (stepAt (Session.step fs serves)) (fun _ ↦ .start) labels = some τ) ↔
      ∀ i : ι, Fine serves (part i labels) := by
  have halone : ∀ i : ι, (∃ t, run (Session.step fs serves) .start (part i labels) = some t) ↔
      Fine serves (part i labels) := fun i ↦ exists_run_iff
  simp only [run_stepAt_eq_some, ← halone]
  constructor
  · rintro ⟨τ, hτ⟩ i
    exact ⟨τ i, hτ i⟩
  · exact Classical.axiomOfChoice

/-- **One for all**: all this can happen and the process is sure to live, whatever is on the stack,
if and only if on every connection the order is kept, nothing is written after a reset, and each
segment finds a whole line with three words that fit. -/
theorem dispatch_iff (he : e.Lawful) (labels : List (ι × Event)) :
    (∀ arrays, ∀ᶠ fuel in atTop, ∃ q,
      run (dispatch e fs arrays fuel) (.running .start) labels = some (.running q)) ↔
      ∀ i, Fine lineServed (part i labels) := by
  rw [← exists_sessions_iff fs labels]
  constructor
  · intro h
    by_contra hnone
    have hrun : run (stepAt (Session.step fs lineServed)) (fun _ ↦ .start) labels = none := by
      cases hτ : run (stepAt (Session.step fs lineServed)) (fun _ ↦ .start) labels with
      | none => rfl
      | some τ => exact absurd ⟨τ, hτ⟩ hnone
    obtain ⟨fuel, ⟨q, hq⟩, hdies⟩ :=
      ((h fun _ ↦ .ones).and (run_of_stepAt_none he hrun)).exists
    exact hdies .start rfl q hq
  · rintro ⟨τ, hτ⟩ arrays
    filter_upwards [run_of_stepAt he hτ] with fuel hfuel
    obtain ⟨q, hq, -⟩ := hfuel arrays .start rfl
    exact ⟨q, hq⟩

/-- The first client asks for a page and gets it. Of the second one it depends what becomes of the
first: it leaves out the version, or it asks for a page too and resets the connection before it is
written to a second time. -/
def twoClients (events : List Event) : List (Bool × Event) :=
  [(false, .accept), (true, .accept), (false, .receive index.text), (false, .write 100)] ++
    events.map (true, ·)

def noVersion : List Event := [.receive (ascii "GET /index.html\r\n")]

def resets : List Event :=
  [.receive index.text, .write 16, .reset, .write 16]

theorem not_served_twoClients :
    (¬∀ arrays, ∀ᶠ fuel in atTop, ∃ q, run (dispatch evbuffer site arrays fuel) (.running .start)
      (twoClients noVersion) = some (.running q)) ∧
    ¬∀ arrays, ∀ᶠ fuel in atTop, ∃ q, run (dispatch evbuffer site arrays fuel) (.running .start)
      (twoClients resets) = some (.running q) := by
  refine ⟨fun h ↦ ?_, fun h ↦ ?_⟩
  · -- a whole line, but with two words
    obtain ⟨-, lines, htaken, hserved⟩ :=
      (dispatch_iff evbuffer_lawful (twoClients noVersion)).mp h true
    have hline : taken [] (segments (part true (twoClients noVersion))) =
        some [ascii "GET /index.html"] := by decide
    obtain rfl := Option.some_inj.mp (hline.symm.trans htaken)
    exact absurd (hserved _ List.mem_cons_self) (by decide +kernel)
  · obtain ⟨horder, -⟩ := (dispatch_iff evbuffer_lawful (twoClients resets)).mp h true
    exact absurd horder (by decide)

end LibeventServer

end CodeOnLinux
