import CodeOnLinux.WebServer.Connection
import CodeOnLinux.WebServer.Reading

/-!
# A request that arrives in pieces

A connection is non-blocking and watched for edges: each time a segment becomes readable
`http_request` is called once, reads what there is and gets `EAGAIN` behind it. Nothing is kept
from one call to the next, so every call takes the first line of its own segment for a request
line.

What the client sees of a connection is an `Answer`. Two ways of cutting the same text are answered
alike if and only if their segments, read line for line in this way, ask for the same paths
(`deliveryIndependent_iff`). They do where a request for a file or a directory has its first line
in the first segment (`deliveryIndependent_of_line`), and they need not where a cut falls inside
that line (`not_deliveryIndependent`).
-/

namespace CodeOnLinux

namespace WebServer

open Memory Stdio Pub Lines Filter

/-! ## Deliveries -/

variable (fs : FileSystem) (connfd : ℕ)

/-- Each segment that arrives is one edge and one call, until the connection is closed. The local
arrays of the calls hold what `arrays` says. -/
def serve (fuel : ℕ) : (ℕ → Stack) → List Bytes → World → Checked World
  | _, [], w => .ok w
  | arrays, segment :: segments, w =>
    if w.closed then .ok w
    else do
      let (_, w) ← httpRequest (kernel fs connfd) fuel connfd (arrays 0)
        { w with input := w.input ++ segment }
      serve fuel (fun n ↦ arrays (n + 1)) segments w

/-- The answer to a client. -/
structure Answer where
  /-- The paths that were looked up. -/
  looked : List Bytes
  /-- What was sent. -/
  output : Bytes
  /-- Whether the connection was closed. -/
  closed : Bool

def World.answer (w : World) : Answer := ⟨w.looked, w.output, w.closed⟩

/-- The segments get this answer, whatever is on the stack. -/
def Answers (segments : List Bytes) (a : Answer) : Prop :=
  ∀ arrays, ∀ᶠ fuel in atTop,
    ∃ w, serve fs connfd fuel arrays segments World.start = .ok w ∧ w.answer = a

/-- A way in which a text arrives. -/
structure Splitting (text : Bytes) where
  /-- What has arrived when `http_request` is called. -/
  segments : List Bytes
  /-- Together the segments are the text. -/
  flatten_eq : segments.flatten = text
  /-- It is called when something has arrived. -/
  nonempty : [] ∉ segments

def DeliveryIndependent {text : Bytes} (σ τ : Splitting text) : Prop :=
  ∃ a, Answers fs connfd σ.segments a ∧ Answers fs connfd τ.segments a

/-! ## One call -/

theorem recv_input (w : World) (peek : Bool) (s : Bytes) :
    (kernel fs connfd).recv connfd peek { w with input := s } =
      Prod.map id (fun s ↦ { w with input := s }) (streamRecv .failed peek s) := rfl

/-- A call takes its whole segment; what it does depends on the first line of it only. -/
theorem httpRequest_eventually {segment : Bytes} {words : Bytes × Bytes}
    (hline : requestLine (firstLine segment) = some words) : ∀ᶠ fuel in atTop,
      ∀ stack (w : World), ∃ r w', httpRequest (kernel fs connfd) fuel connfd stack
          { w with input := segment } = .ok (r, w') ∧
        if words.1.take 3 = ascii "GET" then
          Responded fs (target words.2) { w with input := [] } w'
        else w' = { w with input := [] } := by
  filter_upwards [eventually_gt_atTop segment.length,
    respond_eventually fs connfd (target words.2)] with fuel hfuel hrespond stack w
  rw [requestLine] at hline
  rw [httpRequest_eq Recv.ends_failed (recv_input fs connfd w) stack hfuel, lookup_eq hline stack,
    Checked.ok_bind]
  split_ifs with hget
  · exact hrespond { w with input := [] }
  · exact ⟨1, _, rfl, rfl⟩

theorem httpRequest_of_none {segment : Bytes} (hline : requestLine (firstLine segment) = none)
    {fuel : ℕ} (hfuel : segment.length < fuel) (w : World) :
    ∃ e, httpRequest (kernel fs connfd) fuel connfd .ones { w with input := segment } =
      .error e := by
  rw [requestLine] at hline
  obtain ⟨e, he⟩ := lookup_of_none hline
  refine ⟨e, ?_⟩
  rw [httpRequest_eq Recv.ends_failed (recv_input fs connfd w) .ones hfuel, he, Checked.error_bind]

/-! ## All calls -/

/-- The path that a request line asks for; nothing where the method is refused. -/
def asked (words : Bytes × Bytes) : List Bytes :=
  if words.1.take 3 = ascii "GET" then [target words.2] else []

/-- The paths that the segments ask for, each segment read by its own first line, up to the first
file or directory; `none` where a line that is read lacks the words of a request. -/
def presented (fs : FileSystem) : List Bytes → Option (List Bytes)
  | [] => some []
  | segment :: segments =>
    (requestLine (firstLine segment)).bind fun words ↦
      if (asked words).any (closes fs) then some (asked words)
      else (presented fs segments).map (asked words ++ ·)

/-- The answer to these paths, after what was answered before. -/
def Answer.after (fs : FileSystem) (a : Answer) (paths : List Bytes) : Answer where
  looked := a.looked ++ paths
  output := a.output ++ paths.flatMap (response fs)
  closed := a.closed || paths.any (closes fs)

theorem Answer.after_nil (a : Answer) : a.after fs [] = a := by
  simp [Answer.after]

theorem Answer.after_append (a : Answer) (paths paths' : List Bytes) :
    (a.after fs paths).after fs paths' = a.after fs (paths ++ paths') := by
  simp [Answer.after, Bool.or_assoc]

theorem Responded.answer_eq {path : Bytes} {w w' : World} (h : Responded fs path w w') :
    w'.answer = w.answer.after fs [path] := by
  simp [Answer.after, World.answer, h.looked, h.output, h.closed]

theorem serve_of_closed (fuel : ℕ) (arrays : ℕ → Stack) (segments : List Bytes) {w : World}
    (h : w.closed = true) : serve fs connfd fuel arrays segments w = .ok w := by
  cases segments with
  | nil => rfl
  | cons segment segments => rw [serve, if_pos h]

/-- A segment that arrives on an open connection whose bytes have been read is one call. -/
theorem serve_cons (fuel : ℕ) (arrays : ℕ → Stack) (segment : Bytes) (segments : List Bytes)
    {w : World} (hinput : w.input = []) (hopen : w.closed = false) :
    serve fs connfd fuel arrays (segment :: segments) w =
      httpRequest (kernel fs connfd) fuel connfd (arrays 0) { w with input := segment } >>=
        fun r ↦ serve fs connfd fuel (fun n ↦ arrays (n + 1)) segments r.2 := by
  rw [serve, if_neg (by rw [hopen]; exact Bool.false_ne_true), hinput, List.nil_append]

/-- **One edge**, for a segment with a request line: its path is answered, all of it is read. -/
theorem serve_cons_eventually {segment : Bytes} {words : Bytes × Bytes}
    (hline : requestLine (firstLine segment) = some words) (segments : List Bytes) :
    ∀ᶠ fuel in atTop, ∀ arrays (w : World), w.input = [] → w.closed = false →
      ∃ w', serve fs connfd fuel arrays (segment :: segments) w =
          serve fs connfd fuel (fun n ↦ arrays (n + 1)) segments w' ∧
        w'.input = [] ∧ w'.closed = (asked words).any (closes fs) ∧
        w'.answer = w.answer.after fs (asked words) := by
  filter_upwards [httpRequest_eventually fs connfd hline] with fuel hcall arrays w hinput hopen
  obtain ⟨r, w', hw', hdone⟩ := hcall (arrays 0) w
  refine ⟨w', by rw [serve_cons fs connfd fuel arrays segment segments hinput hopen, hw']; rfl, ?_⟩
  rw [asked]
  split_ifs at hdone ⊢ with hget
  · refine ⟨hdone.input, ?_, hdone.answer_eq⟩
    rw [hdone.closed, List.any_cons, List.any_nil, Bool.or_false]
    exact (congrArg (· || _) hopen).trans (Bool.false_or _)
  · subst hdone
    exact ⟨rfl, hopen, (Answer.after_nil fs _).symm⟩

theorem serve_eventually {segments paths : List Bytes} (h : presented fs segments = some paths) :
    ∀ᶠ fuel in atTop, ∀ arrays (w : World), w.input = [] → w.closed = false →
      ∃ w', serve fs connfd fuel arrays segments w = .ok w' ∧
        w'.answer = w.answer.after fs paths := by
  induction segments generalizing paths with
  | nil =>
    obtain rfl := Option.some_inj.mp h
    exact Eventually.of_forall fun fuel arrays w _ _ ↦ ⟨w, rfl, (Answer.after_nil fs _).symm⟩
  | cons segment segments ih =>
    obtain ⟨words, hline, h⟩ := Option.bind_eq_some_iff.mp h
    split_ifs at h with hcloses
    · -- the connection is closed here, and what is left of the segments is not read
      obtain rfl := Option.some_inj.mp h
      filter_upwards [serve_cons_eventually fs connfd hline segments]
        with fuel hstep arrays w hinput hopen
      obtain ⟨w', hserve, -, hclosed, hanswer⟩ := hstep arrays w hinput hopen
      refine ⟨w', ?_, hanswer⟩
      rw [hserve, serve_of_closed fs connfd fuel _ segments (hclosed.trans hcloses)]
    · obtain ⟨rest, hrest, rfl⟩ := Option.map_eq_some_iff.mp h
      filter_upwards [serve_cons_eventually fs connfd hline segments, ih hrest]
        with fuel hstep hserve arrays w hinput hopen
      obtain ⟨w', hw', hinput', hclosed, hanswer⟩ := hstep arrays w hinput hopen
      obtain ⟨w'', hw'', hanswer'⟩ := hserve (fun n ↦ arrays (n + 1)) w' hinput'
        (hclosed.trans (eq_false_of_ne_true hcloses))
      refine ⟨w'', hw'.trans hw'', ?_⟩
      rw [hanswer', hanswer, Answer.after_append]

/-- On stacks of ones a line without the words is a fault. -/
theorem serve_of_presented_none {segments : List Bytes} (h : presented fs segments = none) :
    ∀ᶠ fuel in atTop, ∀ w : World, w.input = [] → w.closed = false →
      ∃ e, serve fs connfd fuel (fun _ ↦ Stack.ones) segments w = .error e := by
  induction segments with
  | nil => exact absurd h (Option.some_ne_none _)
  | cons segment segments ih =>
    cases hline : requestLine (firstLine segment) with
    | none =>
      filter_upwards [eventually_gt_atTop segment.length] with fuel hfuel w hinput hopen
      obtain ⟨e, he⟩ := httpRequest_of_none fs connfd hline hfuel w
      refine ⟨e, ?_⟩
      rw [serve_cons fs connfd fuel _ segment segments hinput hopen, he, Checked.error_bind]
    | some words =>
      rw [presented, hline, Option.bind_some] at h
      split_ifs at h with hcloses
      have hrest : presented fs segments = none := Option.map_eq_none_iff.mp h
      filter_upwards [serve_cons_eventually fs connfd hline segments, ih hrest]
        with fuel hstep hserve w hinput hopen
      obtain ⟨w', hw', hinput', hclosed, -⟩ := hstep (fun _ ↦ .ones) w hinput hopen
      obtain ⟨e, he⟩ := hserve w' hinput' (hclosed.trans (eq_false_of_ne_true hcloses))
      exact ⟨e, hw'.trans he⟩

/-- **The answer of a delivery.** -/
theorem answers_iff {segments : List Bytes} {a : Answer} :
    Answers fs connfd segments a ↔
      ∃ paths, presented fs segments = some paths ∧ a = Answer.after fs ⟨[], [], false⟩ paths := by
  constructor
  · intro h
    cases hpaths : presented fs segments with
    | none =>
      obtain ⟨fuel, ⟨w, hw, -⟩, hnone⟩ :=
        ((h fun _ ↦ .ones).and (serve_of_presented_none fs connfd hpaths)).exists
      obtain ⟨e, he⟩ := hnone .start rfl rfl
      rw [hw] at he
      cases he
    | some paths =>
      obtain ⟨fuel, ⟨w, hw, rfl⟩, hsome⟩ :=
        ((h fun _ ↦ .ones).and (serve_eventually fs connfd hpaths)).exists
      obtain ⟨w', hw', hanswer⟩ := hsome (fun _ ↦ .ones) .start rfl rfl
      obtain rfl := Except.ok.inj (hw.symm.trans hw')
      exact ⟨paths, rfl, hanswer⟩
  · rintro ⟨paths, hpaths, rfl⟩ arrays
    filter_upwards [serve_eventually fs connfd hpaths] with fuel hfuel
    obtain ⟨w, hw, hanswer⟩ := hfuel arrays .start rfl rfl
    exact ⟨w, hw, hanswer⟩

/-- **Delivery independence**, exactly: two ways of cutting a text are answered alike if and only
if, each segment read by its own first line, they ask for the same paths. -/
theorem deliveryIndependent_iff {text : Bytes}
    (σ τ : Splitting text) : DeliveryIndependent fs connfd σ τ ↔
      ∃ paths, presented fs σ.segments = some paths ∧ presented fs τ.segments = some paths := by
  constructor
  · rintro ⟨a, hσ, hτ⟩
    obtain ⟨paths, hpaths, rfl⟩ := (answers_iff fs connfd).mp hσ
    obtain ⟨paths', hpaths', heq⟩ := (answers_iff fs connfd).mp hτ
    have hlooked : [] ++ paths = [] ++ paths' := congrArg Answer.looked heq
    rw [List.nil_append, List.nil_append] at hlooked
    exact ⟨paths, hpaths, hlooked ▸ hpaths'⟩
  · rintro ⟨paths, hσ, hτ⟩
    exact ⟨_, (answers_iff fs connfd).mpr ⟨paths, hσ, rfl⟩,
      (answers_iff fs connfd).mpr ⟨paths, hτ, rfl⟩⟩

/-! ## Cuts behind and inside the request line -/

theorem presented_of_line {s method url : Bytes} {segments : List Bytes}
    (hline : requestLine (firstLine s) = some (method, url)) (hget : method.take 3 = ascii "GET")
    (hcloses : closes fs (target url) = true) :
    presented fs (s :: segments) = some [target url] := by
  have hasked : asked (method, url) = [target url] := if_pos hget
  rw [presented, hline, Option.bind_some, hasked, List.any_cons, hcloses, Bool.true_or, if_pos rfl]

/-- Where the first line of the text is a request for a file or a directory and both first segments
have all of it, the rest may be cut anywhere. -/
theorem deliveryIndependent_of_line {text method url s t : Bytes} {ss ts : List Bytes}
    {σ τ : Splitting text} (hσ : σ.segments = s :: ss) (hτ : τ.segments = t :: ts)
    (hs : lf ∈ (takeLine 4095 s).1) (ht : lf ∈ (takeLine 4095 t).1)
    (hline : requestLine (firstLine text) = some (method, url))
    (hget : method.take 3 = ascii "GET") (hcloses : closes fs (target url) = true) :
    DeliveryIndependent fs connfd σ τ := by
  have hfirst : ∀ {r : Bytes} {rs : List Bytes} {ρ : Splitting text}, ρ.segments = r :: rs →
      lf ∈ (takeLine 4095 r).1 → presented fs ρ.segments = some [target url] := by
    intro r rs ρ hρ hr
    have htext : text = r ++ rs.flatten := by rw [← ρ.flatten_eq, hρ, List.flatten_cons]
    rw [htext, firstLine, takeLine_append hr, ← firstLine] at hline
    rw [hρ]
    exact presented_of_line fs hline hget hcloses
  exact ⟨_, (answers_iff fs connfd).mpr ⟨_, hfirst hσ hs, rfl⟩,
    (answers_iff fs connfd).mpr ⟨_, hfirst hτ ht, rfl⟩⟩

/-- A directory with one file. -/
def site : FileSystem where
  stat path := if path = ascii "index.html" then some ⟨.regular, 2⟩ else none
  content path := if path = ascii "index.html" then some (ascii "hi") else none
  entries _ := none
  name_le _ _ h := nomatch h

def indexRequest : Bytes := ascii "GET /index.html HTTP/1.1\r\n\r\n"

def atOnce : Splitting indexRequest where
  segments := [indexRequest]
  flatten_eq := by decide
  nonempty := by decide

def cutInUrl : Splitting indexRequest where
  segments := [ascii "GET /in", ascii "dex.html HTTP/1.1\r\n\r\n"]
  flatten_eq := by decide
  nonempty := by decide

/-- A cut in the URL: the file is sent in the one case, and a page for `in` that does not exist in
the other. -/
theorem not_deliveryIndependent : ¬∀ (fs : FileSystem) (connfd : ℕ) (text : Bytes)
    (σ τ : Splitting text), DeliveryIndependent fs connfd σ τ := by
  intro h
  obtain ⟨a, honce, hcut⟩ := h site 5 indexRequest atOnce cutInUrl
  obtain ⟨paths, hpaths, rfl⟩ := (answers_iff site 5).mp honce
  obtain ⟨paths', hpaths', heq⟩ := (answers_iff site 5).mp hcut
  have hwhole : presented site atOnce.segments = some [ascii "index.html"] := by decide +kernel
  have htorn : presented site cutInUrl.segments = some [ascii "in"] := by
    decide +kernel
  have hlooked : [] ++ paths = [] ++ paths' := congrArg Answer.looked heq
  obtain rfl := Option.some_inj.mp (hpaths.symm.trans hwhole)
  obtain rfl := Option.some_inj.mp (hpaths'.symm.trans htorn)
  exact absurd hlooked (by decide)

end WebServer

end CodeOnLinux
