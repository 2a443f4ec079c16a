import CodeOnLinux.Foundation.Response
import CodeOnLinux.LibeventServer.Framing
import CodeOnLinux.Web.DeclaredLength

/-!
# Reading a header block back

A header block in the grammar of `Foundation.Response` gives back the code, the status text, the
media type and the length that it was made from. The block of the libevent server does
(`headerText_readsBack`). `send_header` of `01_webserver` writes `HTTP1.1` without a slash, so what
it sends is no response, whatever it is called with (`sendHeader_not_readsBack`); and with any other
first line the colon behind `Content-Length` would still be missing (`parse_webWording`).
-/

namespace CodeOnLinux

namespace Web

open Stdio Pub Lines
open WebServer (FileSystem World Sent kernel site)

/-- The text is a response that says what the header block was made from. -/
def ReadsBack (code : ℤ) (status fileType : Bytes) (length : ℤ) (text : Bytes) : Prop :=
  ∃ r, Response.parse text = some r ∧ r.status.code = code ∧ r.status.reason = status ∧
    r.value (ascii "Content-Type") = some fileType ∧
    (r.value (ascii "Content-Length")).bind readInt = some length

/-! ## The libevent server -/

theorem formatInt_natCast (n : ℕ) : formatInt n = digits n := if_neg (by omega)

/-- What the libevent server says in a header block. -/
def libeventResponse (code : ℕ) (status fileType : Bytes) (length : ℤ) (body : Bytes)
    (hcode : 100 ≤ code ∧ code ≤ 999) (hstatus : OneLine status) (htype : OneLine fileType) :
    Response where
  status := ⟨byte '1', byte '1', code, status, by decide, by decide, hcode, hstatus⟩
  fields :=
    [⟨ascii "Content-Type", fileType, by decide, List.all_eq_true.mp (by decide), htype⟩,
      ⟨ascii "Content-Length", formatInt length, by decide, List.all_eq_true.mp (by decide),
        oneLine_of_printable (printable_formatInt length)⟩,
      ⟨ascii "Connection", ascii "close", by decide, List.all_eq_true.mp (by decide), by decide⟩]
  body := body

/-- **The libevent server's header block** reads back, in front of any body. -/
theorem headerText_readsBack {code size : ℤ} {status fileType : Bytes}
    (hcode : 100 ≤ code ∧ code ≤ 999) (hstatus : OneLine status) (htype : OneLine fileType)
    (hsize : 0 ≤ size ∧ size < 2 ^ 63) (body : Bytes) :
    ReadsBack code status fileType size
      (LibeventServer.headerText code status fileType size ++ body) := by
  obtain ⟨n, rfl⟩ := Int.eq_ofNat_of_zero_le (by omega : 0 ≤ code)
  have hlong : longOfSizeT (toSizeT size) = size := by
    rw [longOfSizeT, toSizeT]
    omega
  have hn : 100 ≤ n ∧ n ≤ 999 := by omega
  refine ⟨libeventResponse n status fileType size body hn hstatus htype, ?_, rfl, rfl, rfl,
    readInt_formatInt size⟩
  rw [Response.parse_eq_some_iff, LibeventServer.headerText_append, hlong,
    LibeventServer.headerBlock, Wording.block, formatInt_natCast]
  rfl

/-! ## `01_webserver` -/

/-- The line with the length has no colon. -/
theorem readField_contentLength (length : ℤ) :
    Response.readField (webWording.contentLength ++ formatInt length) = none := by
  rw [Option.eq_none_iff_forall_ne_some]
  intro f hf
  have hrender := Response.render_of_readField hf
  have hcolon : byte ':' ∈ webWording.contentLength ++ formatInt length := by
    rw [← hrender, Response.Field.render]
    exact List.mem_append_right _ List.mem_cons_self
  rcases List.mem_append.mp hcolon with hlabel | hnumber
  · exact absurd hlabel (by decide)
  · rw [formatInt_eq] at hnumber
    have hdigits : byte ':' ∉ digits length.natAbs := fun hmem ↦
      absurd (isdigit_of_mem_digits hmem) (by decide)
    split at hnumber
    · rcases List.mem_cons.mp hnumber with heq | hmem
      · exact absurd heq (by decide)
      · exact hdigits hmem
    · exact hdigits hnumber

/-- No status line would make the block of `01_webserver` a response. -/
theorem parse_webWording {line : Bytes} (hline : line ≠ [] ∧ lf ∉ line) {status fileType : Bytes}
    (hstatus : Printable status) (htype : Printable fileType) (code length : ℤ) (body : Bytes) :
    Response.parse (Header.render
      (line :: (webWording.block code status fileType length).tail) body) = none := by
  have hlines : ∀ l ∈ line :: (webWording.block code status fileType length).tail,
      l ≠ [] ∧ lf ∉ l := by
    intro l hl
    rcases List.mem_cons.mp hl with rfl | hl
    · exact hline
    · obtain ⟨hne, hprint⟩ :=
        Wording.block_lines hstatus htype code length l (List.mem_of_mem_tail hl)
      exact ⟨hne, hprint.notMem (by decide)⟩
  have hfields : (webWording.block code status fileType length).tail.mapM Response.readField =
      none := by
    rw [Wording.block, List.tail_cons, List.mapM_cons, List.mapM_cons, readField_contentLength]
    simp
  rw [Response.parse, Header.take_render hlines]
  simp only [hfields, Option.map_none, Option.bind_fun_none]

variable (fs : FileSystem) (connfd : ℕ)

/-- Every call of `send_header` on this connection, with texts that fit its buffer, reads back. -/
def HeaderReadsBack : Prop :=
  ∀ (code fileLength : ℤ) (status fileType : Bytes), 100 ≤ code ∧ code ≤ 999 →
    0 ≤ fileLength ∧ fileLength ≤ intMax → OneLine status ∧ 0 ∉ status →
    OneLine fileType ∧ 0 ∉ fileType →
    (∀ l ∈ WebServer.headerLines code status fileType fileLength, l.length < WebServer.maxSize) →
    ∀ w ret w' text,
      WebServer.sendHeader (kernel fs connfd) connfd code status fileType fileLength w =
        .ok (ret, w') →
      Sent w w' text → ReadsBack code status fileType fileLength text

variable {code fileLength : ℤ} {status fileType : Bytes}

/-- The fifth byte that is sent is not the slash. -/
theorem parse_headerLines :
    Response.parse ((WebServer.headerLines code status fileType fileLength).flatMap cString) =
      none := by
  have htake : ((WebServer.headerLines code status fileType fileLength).flatMap cString).take 5 =
      ascii "HTTP1" := rfl
  refine Response.parse_eq_none fun hpre ↦ ?_
  have hslash : ascii "HTTP/" = ascii "HTTP1" := (List.prefix_iff_eq_take.mp hpre).trans htake
  exact absurd hslash (by decide)

theorem not_readsBack_of_parse {length : ℤ} {text : Bytes} (h : Response.parse text = none) :
    ¬ReadsBack code status fileType length text := by
  rintro ⟨r, hr, -⟩
  rw [h] at hr
  cases hr

/-- **The `epoll` server's header block** never reads back: with texts that fit the buffer the five
sends are complete, and what they send is not a response. -/
theorem sendHeader_not_readsBack
    (hfits : ∀ l ∈ WebServer.headerLines code status fileType fileLength,
      l.length < WebServer.maxSize) (w : World) :
    ∃ w' text,
      WebServer.sendHeader (kernel fs connfd) connfd code status fileType fileLength w =
        .ok (0, w') ∧
      Sent w w' text ∧ Response.parse text = none ∧
      ¬ReadsBack code status fileType fileLength text := by
  obtain ⟨w', hw', hsent⟩ := WebServer.sendLines_sent fs connfd hfits w
  exact ⟨w', _, hw', hsent, parse_headerLines, not_readsBack_of_parse parse_headerLines⟩

theorem sendHeader_not_readsBack_ok : ∃ w' text,
    WebServer.sendHeader (kernel site 5) 5 200 (ascii "OK") (ascii "text/html") 5 .start =
      .ok (0, w') ∧ Sent .start w' text ∧ Response.parse text = none ∧
      ¬ReadsBack 200 (ascii "OK") (ascii "text/html") 5 text :=
  sendHeader_not_readsBack site 5 (by decide +kernel) .start

theorem not_headerReadsBack : ¬HeaderReadsBack site 5 := by
  intro h
  have hfits : ∀ l ∈ WebServer.headerLines 404 (ascii "NOT FOUND") (ascii ".html") 0,
      l.length < WebServer.maxSize := by decide +kernel
  obtain ⟨w', hw', hsent⟩ := WebServer.sendLines_sent site 5 hfits .start
  have hback := h 404 0 (ascii "NOT FOUND") (ascii ".html") (by decide) (by decide) (by decide)
    (by decide) hfits .start 0 w' _ hw' hsent
  exact not_readsBack_of_parse parse_headerLines hback

end Web

end CodeOnLinux
