import CodeOnLinux.DebugServer.Server
import CodeOnLinux.LibeventServer.Delivery
import CodeOnLinux.WebServer.Reading

/-!
# The words of the request line and their arrays

The three servers take a line off their connection and give it to `sscanf` with `%s %s %s`. The line
is bounded, by 4095 bytes, by 127, or by nothing but its CRLF; the words of it are not, and the
arrays are much shorter than the line. So a call of `sscanf` stays inside the arrays if and only if
the words of the line fit them (`tokensFit_iff`), and the method of a request line may well have 32
bytes (`not_tokensFit`).
-/

namespace CodeOnLinux

namespace Web

open Memory Stdio Pub Lines Filter
open WebServer (Words WordsFit sscanf sscanf_ok_iff)

/-! ## From the connection to `sscanf` -/

/-- The front of `http_request` of `01_webserver`. -/
def webServerScan {σ : Type} (recv : Bool → σ → Recv × σ) (stack : WebServer.Stack) (s : σ) :
    Checked (Words × σ) := do
  let (_, str, s) ← getLine recv stack.str 0 WebServer.maxSize s
  let line ← readStr str 0
  let words ← sscanf line stack.words
  return (words, s)

theorem webServer_readRequest_eq {ω : Type} (k : WebServer.Kernel ω) (fuel : ℕ) (connfd : ℤ)
    (stack : WebServer.Stack) (w : ω) :
    WebServer.readRequest k fuel connfd stack w = do
      let (words, w) ← webServerScan (k.recv connfd) stack w
      let url ← strdecode words.url 0 0
      let w ← WebServer.headerLoop (k.recv connfd) fuel w
      return ({ words with url }, w) := by
  simp only [WebServer.readRequest, webServerScan, bind_assoc, Checked.pure_eq_ok,
    Checked.ok_bind]

/-- The front of `http_request` of `99_debg`: the line is kept while the rest is read. -/
def debugServerScan {σ : Type} (recv : Bool → σ → Recv × σ) (fuel : ℕ) (s : σ) :
    Checked (Words × σ) := do
  let (_, line, s) ← getLine recv (List.replicate DebugServer.bufSize 0) 0 DebugServer.bufSize s
  let s ← DebugServer.headerLoop recv fuel s
  let line ← readStr line 0
  let words ← sscanf line DebugServer.Words.zero
  return (words, s)

theorem debugServer_readRequest_eq {ω : Type} (k : DebugServer.System ω) (fuel : ℕ) (connfd : ℤ)
    (w : ω) : DebugServer.readRequest k fuel connfd w = debugServerScan (k.recv connfd) fuel w :=
  rfl

/-- It uses the connection through its `recv` only. -/
theorem debugServerScan_map {σ ω : Type} {recv : Bool → σ → Recv × σ}
    {recv' : Bool → ω → Recv × ω} {f : σ → ω}
    (hf : ∀ peek s, recv' peek (f s) = Prod.map id f (recv peek s)) (fuel : ℕ) (s : σ) :
    debugServerScan recv' fuel (f s) = (debugServerScan recv fuel s).map (Prod.map id f) := by
  rw [debugServerScan, debugServerScan, getLine_map hf]
  cases getLine recv (List.replicate DebugServer.bufSize 0) 0 DebugServer.bufSize s with
  | error e => rfl
  | ok r =>
    obtain ⟨n, line, s⟩ := r
    simp only [Except.map, Checked.ok_bind, Prod.map, id, DebugServer.headerLoop,
      dropLines_map hf]
    cases dropLines recv DebugServer.bufSize fuel s with
    | error e => rfl
    | ok s =>
      rw [Checked.ok_bind]
      cases readStr line 0 with
      | error e => rfl
      | ok line =>
        simp only [Checked.ok_bind]
        cases sscanf line DebugServer.Words.zero <;> rfl

/-- The front of `bev_read_cb`, where `evbuffer_readln` has returned a line. -/
def libeventServerScan (buffer : Bytes) (stack : LibeventServer.Stack) : Checked Words :=
  sscanf (cString buffer) stack.words

theorem libeventServer_lookup_eq (buffer : Bytes) (stack : LibeventServer.Stack) :
    LibeventServer.lookup buffer stack.words = (do
      let words ← libeventServerScan buffer stack
      let url ← strdecode words.url 0 0
      let c ← load url 1
      if c = 0 then return ascii "./" else readStr url 1) := rfl

/-! ## Tokens that fit -/

/-- What the client sends arrives, and every word of its first line is stored inside its array. -/
def WebServerTokensFit (atEnd : Recv) (stack : WebServer.Stack) (s : Bytes) : Prop :=
  ∃ r, webServerScan (streamRecv atEnd) stack s = .ok r

def DebugServerTokensFit (atEnd : Recv) (s : Bytes) : Prop :=
  ∀ᶠ fuel in atTop, ∃ r, debugServerScan (streamRecv atEnd) fuel s = .ok r

def LibeventServerTokensFit (e : LibeventServer.Evbuffer) (stack : LibeventServer.Stack)
    (s : Bytes) : Prop :=
  ∀ buffer ∈ (e.readln s).1, ∃ words, libeventServerScan buffer stack = .ok words

variable {atEnd : Recv}

/-- A line of a stream, read into a buffer of `n + 1` bytes and from there as a string. -/
theorem getLine_readStr (hend : atEnd.Ends) {n : ℕ} {m : Bytes} (hm : m.length = n + 1)
    (s : Bytes) :
    ∃ m', getLine (streamRecv atEnd) m 0 (n + 1) s =
        .ok ((takeLine n s).1.length, m', (takeLine n s).2) ∧
      readStr m' 0 = .ok (cString (takeLine n s).1) := by
  obtain ⟨m', hm', hwrote⟩ := getLine_stream hend s (show 0 + n < m.length by omega)
  obtain ⟨tail, htail⟩ := hwrote.eq_append
  refine ⟨m', hm', ?_⟩
  rw [htail, List.append_assoc, List.singleton_append, readStr_append]

/-- A computation that keeps the result of `sscanf` and something else. -/
theorem sscanf_pair_ok_iff {β : Type} (line : Bytes) (a : Words) (s : β) :
    (∃ r, (sscanf line a >>= fun words ↦ pure (words, s)) = .ok r) ↔
      WordsFit [a.method.length, a.url.length, a.version.length] line := by
  rw [← sscanf_ok_iff]
  cases sscanf line a with
  | error e =>
    rw [Checked.error_bind]
    refine iff_of_false ?_ ?_ <;> rintro ⟨r, hr⟩ <;> cases hr
  | ok words => exact iff_of_true ⟨_, rfl⟩ ⟨words, rfl⟩

theorem webServerTokensFit_iff (hend : atEnd.Ends) (stack : WebServer.Stack) (s : Bytes) :
    WebServerTokensFit atEnd stack s ↔
      WordsFit [32, 1024, 32] (cString (takeLine 4095 s).1) := by
  obtain ⟨str, hstr, hread⟩ := getLine_readStr (n := 4095) hend stack.length_str s
  rw [WebServerTokensFit, webServerScan, show (WebServer.maxSize : ℤ) = (4095 : ℕ) + 1 from rfl,
    hstr]
  simp only [Checked.ok_bind, hread]
  rw [sscanf_pair_ok_iff, stack.length_method, stack.length_url, stack.length_version]

/-- The header lines are dropped, and `sscanf` reads the first line. -/
theorem debugServerScan_stream (hend : atEnd.Ends) {fuel : ℕ} {s : Bytes}
    (hfuel : s.length < fuel) :
    debugServerScan (streamRecv atEnd) fuel s =
      (sscanf (cString (takeLine 127 s).1) DebugServer.Words.zero >>= fun words ↦
        pure (words, [])) := by
  have hlen : (List.replicate DebugServer.bufSize (0 : UInt8)).length = 127 + 1 :=
    List.length_replicate
  obtain ⟨line, hline, hread⟩ := getLine_readStr hend hlen s
  have hshort := length_takeLine_snd_le 127 s
  have hheader : DebugServer.headerLoop (streamRecv atEnd) fuel (takeLine 127 s).2 = .ok [] :=
    dropLines_stream hend (n := 126) (by omega)
  rw [debugServerScan, show (DebugServer.bufSize : ℤ) = (127 : ℕ) + 1 from rfl, hline]
  simp only [Checked.ok_bind, hheader, hread]

theorem debugServerTokensFit_iff (hend : atEnd.Ends) (s : Bytes) :
    DebugServerTokensFit atEnd s ↔ WordsFit [32, 32, 32] (cString (takeLine 127 s).1) := by
  have hscan : ∀ fuel, s.length < fuel →
      ((∃ r, debugServerScan (streamRecv atEnd) fuel s = .ok r) ↔
        WordsFit [32, 32, 32] (cString (takeLine 127 s).1)) := by
    intro fuel hfuel
    rw [debugServerScan_stream hend hfuel]
    exact sscanf_pair_ok_iff _ _ _
  exact (eventually_congr ((eventually_gt_atTop s.length).mono hscan)).trans eventually_const

theorem libeventServerTokensFit_iff {e : LibeventServer.Evbuffer} (he : e.Lawful)
    (stack : LibeventServer.Stack) (s : Bytes) :
    LibeventServerTokensFit e stack s ↔
      ∀ l ∈ takeCrlf s, WordsFit [32, 512, 32] (cString l.1) := by
  have hscan : ∀ buffer, (∃ words, libeventServerScan buffer stack = .ok words) ↔
      WordsFit [32, 512, 32] (cString buffer) := by
    intro buffer
    rw [libeventServerScan, sscanf_ok_iff, stack.length_method, stack.length_url,
      stack.length_version]
  rw [LibeventServerTokensFit]
  cases htake : takeCrlf s with
  | none => simp [he.readln_none s htake]
  | some l =>
    obtain ⟨line, rest⟩ := l
    simp [he.readln_some s line rest htake, hscan]

/-! ## The three servers -/

/-- **Request-line tokens and their arrays.** The bytes a client sends are read up to the first CR
or LF, but at most 4095 of them, up to there but at most 127, or up to the first CRLF; the line ends
at a NUL in it. `sscanf` stays inside the arrays exactly when the first three words of that line
are shorter than 32, 1024 and 32 bytes, than 32 each, or than 32, 512 and 32. -/
theorem tokensFit_iff (hend : atEnd.Ends) {e : LibeventServer.Evbuffer} (he : e.Lawful)
    (stack : WebServer.Stack) (stack' : LibeventServer.Stack) (s : Bytes) :
    (WebServerTokensFit atEnd stack s ↔
      WordsFit [32, 1024, 32] (cString (takeLine 4095 s).1)) ∧
    (DebugServerTokensFit atEnd s ↔ WordsFit [32, 32, 32] (cString (takeLine 127 s).1)) ∧
    (LibeventServerTokensFit e stack' s ↔
      ∀ l ∈ takeCrlf s, WordsFit [32, 512, 32] (cString l.1)) :=
  ⟨webServerTokensFit_iff hend stack s, debugServerTokensFit_iff hend s,
    libeventServerTokensFit_iff he stack' s⟩

theorem tokensFit_iff_get :
    WebServerTokensFit .closed WebServer.Stack.ones (ascii "GET / HTTP/1.1\r\n") ∧
    DebugServerTokensFit .closed (ascii "GET / HTTP/1.1\r\n") ∧
    LibeventServerTokensFit LibeventServer.evbuffer LibeventServer.Stack.ones
      (ascii "GET / HTTP/1.1\r\n") := by
  have hline : WordsFit [32, 1024, 32] (cString (takeLine 4095 (ascii "GET / HTTP/1.1\r\n")).1) :=
    by decide +kernel
  have hline' : WordsFit [32, 32, 32] (cString (takeLine 127 (ascii "GET / HTTP/1.1\r\n")).1) := by
    decide +kernel
  have htake : takeCrlf (ascii "GET / HTTP/1.1\r\n") = some (ascii "GET / HTTP/1.1", []) := by
    decide +kernel
  have hline'' : WordsFit [32, 512, 32] (cString (ascii "GET / HTTP/1.1")) := by decide +kernel
  obtain ⟨hweb, hdebug, hlibevent⟩ := tokensFit_iff Recv.ends_closed
    LibeventServer.evbuffer_lawful WebServer.Stack.ones LibeventServer.Stack.ones
    (ascii "GET / HTTP/1.1\r\n")
  refine ⟨hweb.mpr hline, hdebug.mpr hline', hlibevent.mpr fun l hl ↦ ?_⟩
  obtain rfl := Option.some_inj.mp (htake.symm.trans hl)
  exact hline''

/-- A method of 32 bytes, one more than there is room for. -/
def longMethod : Bytes := List.replicate 32 (byte 'A') ++ ascii " / HTTP/1.1\r\n"

theorem not_tokensFit : ¬WebServerTokensFit .closed WebServer.Stack.ones longMethod ∧
    ¬DebugServerTokensFit .closed longMethod ∧
    ¬LibeventServerTokensFit LibeventServer.evbuffer LibeventServer.Stack.ones longMethod := by
  have hline : ¬WordsFit [32, 1024, 32] (cString (takeLine 4095 longMethod).1) := by decide +kernel
  have hline' : ¬WordsFit [32, 32, 32] (cString (takeLine 127 longMethod).1) := by decide +kernel
  have htake : takeCrlf longMethod =
      some (List.replicate 32 (byte 'A') ++ ascii " / HTTP/1.1", []) := by decide +kernel
  have hline'' : ¬WordsFit [32, 512, 32]
      (cString (List.replicate 32 (byte 'A') ++ ascii " / HTTP/1.1")) := by decide +kernel
  refine ⟨fun h ↦ hline ?_, fun h ↦ hline' ?_, fun h ↦ hline'' ?_⟩
  · exact (webServerTokensFit_iff Recv.ends_closed _ _).mp h
  · exact (debugServerTokensFit_iff Recv.ends_closed _).mp h
  · exact (libeventServerTokensFit_iff LibeventServer.evbuffer_lawful _ _).mp h _ htake

end Web

end CodeOnLinux
