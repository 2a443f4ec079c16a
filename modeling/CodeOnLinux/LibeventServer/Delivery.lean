import CodeOnLinux.LibeventServer.Connection
import CodeOnLinux.LibeventServer.Reading
import CodeOnLinux.WebServer.Delivery

/-!
# A request that arrives in pieces, on the libevent server

Libevent calls `bev_read_cb` after each segment. The callback takes one line off the input buffer,
takes it for a request line, and leaves the rest where it is. So a request that comes in `n`
segments is read as its first `n` lines, each of them one call; a call that finds no whole line
passes NULL to `sscanf`, and one that finds a header line looks up a path that nobody asked for.

A request is answered exactly once if and only if every call finds its line, every line that is
taken has words that fit, and one of these lines gets a status line (`answeredOnce_iff`). A request
that arrives in one segment is the usual case.
-/

namespace CodeOnLinux

namespace LibeventServer

open Memory Stdio Pub Lines Filter
open WebServer (FileSystem Splitting tokens wordsWithin site)

/-! ## Deliveries -/

variable (e : Evbuffer) (fs : FileSystem)

def Conn.start : Conn := ⟨[], [], []⟩

/-- Each segment is put behind what is left in the input buffer and is one call. The local arrays
of the calls hold what `arrays` says. -/
def serve (fuel : ℕ) : (ℕ → Stack) → List Bytes → Conn → Disk → Checked (Conn × Disk)
  | _, [], c, w => .ok (c, w)
  | arrays, segment :: segments, c, w => do
    let (c, w) ← bevReadCb e (disk fs) fuel (arrays 0) { c with input := c.input ++ segment } w
    serve fuel (fun n ↦ arrays (n + 1)) segments c w

/-- Whatever is on the stack, no call leaves the defined behaviour, in particular none passes NULL
to `sscanf`, and one status line is added to the output over all the calls. -/
def AnsweredOnce (segments : List Bytes) : Prop :=
  ∀ arrays, ∀ᶠ fuel in atTop, ∃ c w, serve e fs fuel arrays segments Conn.start Disk.start =
    .ok (c, w) ∧ c.answered.length = 1

/-- A `GET` request. -/
structure Request where
  /-- The request line. -/
  line : Bytes
  /-- The header lines. -/
  headers : List Bytes
  /-- The URL in the request line. -/
  url : Bytes
  /-- The version in the request line. -/
  version : Bytes
  /-- The words of the line. -/
  tokens_line : tokens line = some (ascii "GET", url, version)
  /-- Each line ends with its own newline. -/
  lf_notMem : ∀ l ∈ line :: headers, lf ∉ l

/-- All lines, the blank one behind the headers included. -/
def Request.lines (r : Request) : List Bytes := r.line :: r.headers ++ [[]]

def Request.text (r : Request) : Bytes := joinLines r.lines

theorem Request.lf_notMem_lines (r : Request) : ∀ l ∈ r.lines, lf ∉ l := by
  intro l hl
  rcases List.mem_append.mp hl with hl | hl
  · exact r.lf_notMem l hl
  · rw [List.mem_singleton.mp hl]
    exact List.not_mem_nil

/-! ## One call -/

/-- The path that is looked up for a line, if its words are there and fit. -/
def lineTarget (line : Bytes) : Option Bytes :=
  (wordsWithin 512 (cString line)).map fun words ↦ target words.2

/-- The code of the status line that is added for a line, if there is one. -/
def lineCode (fs : FileSystem) (line : Bytes) : Option ℤ := (lineTarget line).bind (statusCode fs)

variable {e}

theorem bevReadCb_eventually (he : e.Lawful) {line path : Bytes}
    (hline : lineTarget line = some path) :
    ∀ᶠ fuel in atTop, ∀ stack (c : Conn) w rest, takeCrlf c.input = some (line, rest) →
      ∃ w', bevReadCb e (disk fs) fuel stack c w =
        .ok (Conn.answer fs path { c with input := rest }, w') := by
  obtain ⟨⟨method, url⟩, hwords, rfl⟩ := Option.map_eq_some_iff.mp hline
  filter_upwards [respond_eventually fs he (target url)] with fuel hrespond stack c w rest htake
  obtain ⟨w', hw'⟩ := hrespond { c with input := rest } w
  refine ⟨w', ?_⟩
  rw [bevReadCb, he.readln_some _ _ _ htake]
  simp only [lookup_eq hwords, Checked.ok_bind]
  exact hw'

theorem bevReadCb_of_takeCrlf_none (he : e.Lawful) (fuel : ℕ) (stack : Stack) {c : Conn} (w : Disk)
    (htake : takeCrlf c.input = none) :
    bevReadCb e (disk fs) fuel stack c w = .error .nullPointer := by
  rw [bevReadCb, he.readln_none _ htake]

theorem bevReadCb_of_lineTarget_none (he : e.Lawful) (fuel : ℕ) {c : Conn} (w : Disk)
    {line rest : Bytes} (htake : takeCrlf c.input = some (line, rest))
    (hline : lineTarget line = none) :
    ∃ err, bevReadCb e (disk fs) fuel .ones c w = .error err := by
  obtain ⟨err, herr⟩ := lookup_of_none (Option.map_eq_none_iff.mp hline)
  refine ⟨err, ?_⟩
  rw [bevReadCb, he.readln_some _ _ _ htake]
  simp only [herr, Checked.error_bind]

/-! ## All calls -/

/-- The lines that the calls take, each from what is left and its own segment; `none` where a call
finds none. -/
def taken : Bytes → List Bytes → Option (List Bytes)
  | _, [] => some []
  | buf, segment :: segments =>
    (takeCrlf (buf ++ segment)).bind fun r ↦ (taken r.2 segments).map (r.1 :: ·)

theorem serve_eventually (he : e.Lawful) {buf : Bytes} {segments lines : List Bytes}
    (htaken : taken buf segments = some lines) (hlines : ∀ l ∈ lines, (lineTarget l).isSome) :
    ∀ᶠ fuel in atTop, ∀ arrays (c : Conn) w, c.input = buf → ∃ c' w',
      serve e fs fuel arrays segments c w = .ok (c', w') ∧
        c'.answered = c.answered ++ lines.filterMap (lineCode fs) := by
  induction segments generalizing buf lines with
  | nil =>
    obtain rfl := Option.some_inj.mp htaken
    exact Eventually.of_forall fun fuel arrays c w _ ↦ ⟨c, w, rfl, (List.append_nil _).symm⟩
  | cons segment segments ih =>
    obtain ⟨⟨line, rest⟩, htake, htaken⟩ := Option.bind_eq_some_iff.mp htaken
    obtain ⟨lines, hrest, rfl⟩ := Option.map_eq_some_iff.mp htaken
    obtain ⟨hline, hlines⟩ := List.forall_mem_cons.mp hlines
    obtain ⟨path, hpath⟩ := Option.isSome_iff_exists.mp hline
    filter_upwards [bevReadCb_eventually fs he hpath, ih hrest hlines]
      with fuel hcall hserve arrays c w hbuf
    obtain ⟨w₁, hw₁⟩ := hcall (arrays 0) { c with input := c.input ++ segment } w rest
      (by rw [hbuf]; exact htake)
    obtain ⟨c', w', hw', hanswered⟩ := hserve (fun n ↦ arrays (n + 1))
      (Conn.answer fs path { c with input := rest }) w₁ rfl
    refine ⟨c', w', ?_, ?_⟩
    · rw [serve, hw₁]
      exact hw'
    · have hcode : lineCode fs line = statusCode fs path := by
        rw [lineCode, hpath, Option.bind_some]
      rw [hanswered, Conn.answer, List.append_assoc, List.filterMap_cons, hcode]
      cases statusCode fs path with
      | none => rfl
      | some code => rfl

/-- On stacks of ones, anything else is a fault. -/
theorem serve_error (he : e.Lawful) {buf : Bytes} {segments : List Bytes}
    (h : ¬∃ lines, taken buf segments = some lines ∧ ∀ l ∈ lines, (lineTarget l).isSome) :
    ∀ᶠ fuel in atTop, ∀ (c : Conn) w, c.input = buf →
      ∃ err, serve e fs fuel (fun _ ↦ Stack.ones) segments c w = .error err := by
  induction segments generalizing buf with
  | nil => exact absurd ⟨[], rfl, fun l hl ↦ absurd hl List.not_mem_nil⟩ h
  | cons segment segments ih =>
    cases htake : takeCrlf (buf ++ segment) with
    | none =>
      refine Eventually.of_forall fun fuel c w hbuf ↦ ⟨.nullPointer, ?_⟩
      have htake' : takeCrlf (c.input ++ segment) = none := by rw [hbuf, htake]
      rw [serve, bevReadCb_of_takeCrlf_none fs he fuel _ w htake', Checked.error_bind]
    | some r =>
      obtain ⟨line, rest⟩ := r
      cases hline : lineTarget line with
      | none =>
        refine Eventually.of_forall fun fuel c w hbuf ↦ ?_
        have htake' : takeCrlf (c.input ++ segment) = some (line, rest) := by rw [hbuf, htake]
        obtain ⟨err, herr⟩ := bevReadCb_of_lineTarget_none fs he fuel
          (c := { c with input := c.input ++ segment }) w htake' hline
        exact ⟨err, by rw [serve, herr, Checked.error_bind]⟩
      | some path =>
        have hrest : ¬∃ lines, taken rest segments = some lines ∧
            ∀ l ∈ lines, (lineTarget l).isSome := by
          rintro ⟨lines, htaken, hlines⟩
          refine h ⟨line :: lines, ?_, List.forall_mem_cons.mpr ⟨?_, hlines⟩⟩
          · rw [taken, htake, Option.bind_some, htaken, Option.map_some]
          · rw [hline, Option.isSome_some]
        filter_upwards [bevReadCb_eventually fs he hline, ih hrest] with fuel hcall hserve c w hbuf
        obtain ⟨w₁, hw₁⟩ := hcall .ones { c with input := c.input ++ segment } w rest
          (by rw [hbuf]; exact htake)
        obtain ⟨err, herr⟩ := hserve (Conn.answer fs path { c with input := rest }) w₁ rfl
        refine ⟨err, ?_⟩
        rw [serve, hw₁]
        exact herr

theorem answeredOnce_iff_taken (he : e.Lawful) (segments : List Bytes) :
    AnsweredOnce e fs segments ↔ ∃ lines, taken [] segments = some lines ∧
      (∀ l ∈ lines, (lineTarget l).isSome) ∧ (lines.filterMap (lineCode fs)).length = 1 := by
  constructor
  · intro h
    by_cases hlines : ∃ lines, taken [] segments = some lines ∧ ∀ l ∈ lines, (lineTarget l).isSome
    · obtain ⟨lines, htaken, hlines⟩ := hlines
      obtain ⟨fuel, ⟨c, w, hw, hone⟩, hserve⟩ :=
        ((h fun _ ↦ .ones).and (serve_eventually fs he htaken hlines)).exists
      obtain ⟨c', w', hw', hanswered⟩ := hserve (fun _ ↦ .ones) .start .start rfl
      obtain ⟨rfl, -⟩ := Prod.mk.inj (Except.ok.inj (hw.symm.trans hw'))
      have hall : c.answered = lines.filterMap (lineCode fs) := hanswered
      exact ⟨lines, htaken, hlines, hall ▸ hone⟩
    · obtain ⟨fuel, ⟨c, w, hw, -⟩, hserve⟩ :=
        ((h fun _ ↦ .ones).and (serve_error fs he hlines)).exists
      obtain ⟨err, herr⟩ := hserve .start .start rfl
      rw [hw] at herr
      cases herr
  · rintro ⟨lines, htaken, hlines, hone⟩ arrays
    filter_upwards [serve_eventually fs he htaken hlines] with fuel hserve
    obtain ⟨c, w, hw, hanswered⟩ := hserve arrays .start .start rfl
    have hall : c.answered = lines.filterMap (lineCode fs) := hanswered
    exact ⟨c, w, hw, hall ▸ hone⟩

/-! ## The lines of the request -/

/-- The first `i` segments reach the end of the first `i` lines, for every `i`. -/
def Reaches (lines : List Bytes) (n : ℕ) (segments : List Bytes) : Prop :=
  segments.length ≤ lines.length ∧ ∀ i ≤ segments.length,
    (joinLines (lines.take i)).length ≤ n + (segments.take i).flatten.length

theorem reaches_cons {line segment : Bytes} {lines segments : List Bytes} {n : ℕ} :
    Reaches (line :: lines) n (segment :: segments) ↔
      line.length + 2 ≤ n + segment.length ∧
        Reaches lines (n + segment.length - (line.length + 2)) segments := by
  have hshift : ∀ i, (joinLines ((line :: lines).take (i + 1))).length =
      line.length + 2 + (joinLines (lines.take i)).length := by
    intro i
    rw [List.take_succ_cons, joinLines_cons, List.length_append, List.length_append, Nat.add_assoc]
    rfl
  have hsegments : ∀ i, ((segment :: segments).take (i + 1)).flatten.length =
      segment.length + (segments.take i).flatten.length := by
    intro i
    rw [List.take_succ_cons, List.flatten_cons, List.length_append]
  constructor
  · rintro ⟨hlen, hreach⟩
    have hfirst := hreach 1 (Nat.le_add_left 1 segments.length)
    rw [hshift 0, hsegments 0] at hfirst
    have hline : line.length + 2 ≤ n + segment.length := hfirst
    refine ⟨hline, Nat.le_of_succ_le_succ hlen, fun i hi ↦ ?_⟩
    have := hreach (i + 1) (Nat.succ_le_succ hi)
    rw [hshift, hsegments] at this
    omega
  · rintro ⟨hline, hlen, hreach⟩
    refine ⟨Nat.succ_le_succ hlen, fun i hi ↦ ?_⟩
    cases i with
    | zero => exact Nat.zero_le _
    | succ i =>
      have := hreach i (Nat.le_of_succ_le_succ hi)
      rw [hshift, hsegments]
      omega

/-- **The calls take the first lines of the text**, one each, if its line is there in time. -/
theorem taken_eq_some_iff {buf : Bytes} {segments all lines : List Bytes}
    (hall : ∀ l ∈ all, lf ∉ l) (htext : buf ++ segments.flatten = joinLines all) :
    taken buf segments = some lines ↔
      Reaches all buf.length segments ∧ lines = all.take segments.length := by
  induction segments generalizing buf all lines with
  | nil =>
    rw [taken, Option.some_inj, List.length_nil, List.take_zero, eq_comm]
    refine (and_iff_right ⟨Nat.zero_le _, fun i hi ↦ ?_⟩).symm
    rw [Nat.le_zero.mp hi]
    exact Nat.zero_le _
  | cons segment segments ih =>
    rw [List.flatten_cons, ← List.append_assoc] at htext
    cases all with
    | nil =>
      -- nothing is left of the text, so there is no line for this call
      have hnil : buf ++ segment = [] := (List.append_eq_nil_iff.mp htext).1
      rw [taken, hnil]
      exact iff_of_false (Option.some_ne_none lines).symm fun h ↦ absurd h.1.1 (by simp)
    | cons line all =>
      obtain ⟨hline, hall⟩ := List.forall_mem_cons.mp hall
      rw [joinLines_cons] at htext
      have hfront := takeCrlf_front hline htext
      rw [List.length_append] at hfront
      rw [reaches_cons, List.length_cons, List.take_succ_cons, taken, hfront]
      by_cases hle : line.length + 2 ≤ buf.length + segment.length
      · have hrest : (buf ++ segment).drop (line.length + 2) ++ segments.flatten =
            joinLines all := by
          have hdrop := congrArg (List.drop (line.length + 2)) htext
          rw [List.drop_append_of_le_length (by rwa [List.length_append]), ← List.append_assoc]
            at hdrop
          have hcrlf : (line ++ crlf).length = line.length + 2 := List.length_append
          exact hdrop.trans (List.drop_left' hcrlf)
        rw [if_pos hle, Option.bind_some, and_iff_right hle, Option.map_eq_some_iff]
        have hlen : ((buf ++ segment).drop (line.length + 2)).length =
            buf.length + segment.length - (line.length + 2) := by
          rw [List.length_drop, List.length_append]
        rw [← hlen]
        constructor
        · rintro ⟨rest, htaken, rfl⟩
          obtain ⟨hreach, rfl⟩ := (ih hall hrest).mp htaken
          exact ⟨hreach, rfl⟩
        · rintro ⟨hreach, rfl⟩
          exact ⟨_, (ih hall hrest).mpr ⟨hreach, rfl⟩, rfl⟩
      · rw [if_neg hle, Option.bind_none]
        exact iff_of_false (Option.some_ne_none lines).symm fun h ↦ hle h.1.1

/-- **Answered exactly once**, exactly: the segments reach the end of as many lines as there are
segments, each in time, these lines have words that fit, and one of their paths is missing, a file
or a directory. -/
theorem answeredOnce_iff (he : e.Lawful) (r : Request) (σ : Splitting r.text) :
    AnsweredOnce e fs σ.segments ↔ Reaches r.lines 0 σ.segments ∧
      (∀ l ∈ r.lines.take σ.segments.length, (lineTarget l).isSome) ∧
      ((r.lines.take σ.segments.length).filterMap (lineCode fs)).length = 1 := by
  have htext : [] ++ σ.segments.flatten = joinLines r.lines := σ.flatten_eq
  rw [answeredOnce_iff_taken fs he]
  constructor
  · rintro ⟨lines, htaken, hlines⟩
    obtain ⟨hreach, rfl⟩ := (taken_eq_some_iff r.lf_notMem_lines htext).mp htaken
    exact ⟨hreach, hlines⟩
  · rintro ⟨hreach, hlines⟩
    exact ⟨_, (taken_eq_some_iff r.lf_notMem_lines htext).mpr ⟨hreach, rfl⟩, hlines⟩

/-! ## A request in one piece and in two -/

instance (lines : List Bytes) (n : ℕ) (segments : List Bytes) :
    Decidable (Reaches lines n segments) := inferInstanceAs (Decidable (_ ∧ _))

/-- Buffers that never run out of memory. -/
def evbuffer : Evbuffer where
  readln buf :=
    match takeCrlf buf with
    | some (line, rest) => (some line, rest)
    | none => (none, buf)
  add buf data := (0, buf ++ data)
  addPrintf buf text := (text.length, buf ++ text)

theorem evbuffer_lawful : evbuffer.Lawful where
  readln_some buf line rest h := by simp only [evbuffer, h]
  readln_none buf h := by simp only [evbuffer, h]
  add_eq _ _ := rfl
  addPrintf_eq _ _ := rfl

def index : Request where
  line := ascii "GET /index.html HTTP/1.1"
  headers := []
  url := ascii "/index.html"
  version := ascii "HTTP/1.1"
  tokens_line := by decide +kernel
  lf_notMem := by decide

def inOnePiece : Splitting index.text where
  segments := [index.text]
  flatten_eq := List.append_nil _
  nonempty := by decide

def cutInLine : Splitting index.text where
  segments := [ascii "GET /index.html", ascii " HTTP/1.1\r\n\r\n"]
  flatten_eq := by decide
  nonempty := by decide

theorem answeredOnce_inOnePiece : AnsweredOnce evbuffer site inOnePiece.segments :=
  (answeredOnce_iff site evbuffer_lawful index inOnePiece).mpr
    ⟨by decide +kernel, by decide +kernel, by decide +kernel⟩

/-- A cut in the request line: the first call passes NULL to `sscanf`. -/
theorem not_answeredOnce : ¬∀ (e : Evbuffer) (fs : FileSystem), e.Lawful →
    ∀ (r : Request) (σ : Splitting r.text), AnsweredOnce e fs σ.segments := by
  intro h
  have hcut := h evbuffer site evbuffer_lawful index cutInLine
  obtain ⟨lines, htaken, -⟩ := (answeredOnce_iff_taken site evbuffer_lawful _).mp hcut
  have hnone : taken [] cutInLine.segments = none := by decide +kernel
  exact absurd (htaken.symm.trans hnone) (Option.some_ne_none lines)

end LibeventServer

end CodeOnLinux
