import CodeOnLinux.Foundation.Blocks
import CodeOnLinux.Pub.HeaderBlock
import CodeOnLinux.LibeventServer.Delivery

/-!
# Where an answer of the libevent server ends

The client takes the header block off the answer and finds in it how long the body is. For a file
this is its length, and the body is the file, in whatever blocks it was read
(`bevReadCb_regular`). For a directory it is the `st_size` of the directory, and the body is a page
that is put together from two files and the entries; the two agree where the sizes happen to
(`framed_iff`). The page for a path that does not exist is announced with length `-1`.
-/

namespace CodeOnLinux

namespace LibeventServer

open Stdio Pub Lines Filter
open WebServer (FileKind Stat Dirent FileSystem site)

/-! ## The header block -/

def wording : Wording where
  protocol := ascii "HTTP/1.1 "
  contentType := ascii "Content-Type: "
  contentLength := ascii "Content-Length: "
  connection := ascii "Connection: close"
  lines := by decide
  protocol_ne := Header.not_prefix_append (n := 1) (by decide) (by decide) (by decide)
  contentType_ne := Header.not_prefix_append (n := 9) (by decide) (by decide) (by decide)

/-- The lines of a header block, as the client takes them. -/
def headerBlock (code : ℤ) (status fileType : Bytes) (length : ℤ) : List Bytes :=
  wording.block code status fileType length

/-- The length that the client finds in an answer. -/
def contentLength (answer : Bytes) : Option ℤ := Header.number wording.contentLength answer

theorem headerText_append (code size : ℤ) (status fileType body : Bytes) :
    headerText code status fileType size ++ body =
      Header.render (headerBlock code status fileType (longOfSizeT (toSizeT size))) body := by
  have htexts : statusLine code status :: headerLines fileType size =
      wording.texts code status fileType (longOfSizeT (toSizeT size)) := by
    rw [Wording.texts_eq]
    simp only [statusLine, headerLines, List.append_assoc]
    rfl
  rw [headerText, ← List.flatten_cons, htexts, Wording.flatten_texts, headerBlock]

/-! ## A file, in any blocks -/

/-- A disk on which the calls of `read` are counted. -/
structure Chunked extends Disk where
  /-- How many times `read` was called. -/
  reads : ℕ

variable {e : Evbuffer} (fs : FileSystem) (lengths : ℕ → ℕ)

/-- The system calls over the file system, where the `i`-th `read` brings what `lengths i` says. -/
def chunked : Kernel Chunked where
  stat path w := (fs.stat path, w)
  openRead path w :=
    match fs.content path with
    | some content => (3, { w with file := content })
    | none => (-1, w)
  read _ n w :=
    (some (w.file.take (Blocks.partLength n (lengths w.reads))),
      { w with
        file := w.file.drop (Blocks.partLength n (lengths w.reads))
        reads := w.reads + 1 })
  close _ w := w
  opendir path w :=
    match fs.entries path with
    | some entries => (some 0, { w with dir := entries })
    | none => (none, w)
  readdir _ w :=
    match w.dir with
    | [] => (none, w)
    | d :: dir => (some d, { w with dir := dir })

theorem chunked_readsFile : ReadsFile (chunked fs lengths) fun w ↦ w.file := by
  intro fd w
  refine ⟨_, _, rfl, (List.take_append_drop _ _).symm, fun hblock ↦ ?_⟩
  rcases List.take_eq_nil_iff.mp hblock with hzero | hnil
  · exact absurd hzero (Blocks.partLength_pos size _).ne'
  · exact hnil

theorem sendFile_chunked (he : e.Lawful) {fuel : ℕ} {name content : Bytes}
    (hcontent : fs.content name = some content) (hfuel : content.length < fuel) (c : Conn)
    (w : Chunked) :
    ∃ w', sendFile e (chunked fs lengths) fuel name c w = .ok (c.add content, w') := by
  have hopen : (chunked fs lengths).openRead name w = (3, { w with file := content }) := by
    simp only [chunked, hcontent]
  exact sendFile_opened he (chunked_readsFile fs lengths) c hopen (by decide) hfuel

/-- **Files are answered exactly**: whatever is in the output buffer before, a header block is
appended that gives the status 200, the media type of the path and the length of the file, and
behind its blank line the bytes of the file, in whatever blocks they are read. The client takes the
block off and finds that length in it. -/
theorem bevReadCb_regular (he : e.Lawful) {line path content rest : Bytes} {c : Conn}
    (htake : takeCrlf c.input = some (line, rest)) (hline : lineTarget line = some path)
    (hstat : fs.stat path = some ⟨.regular, content.length⟩)
    (hcontent : fs.content path = some content) (hlength : content.length < 2 ^ 63) :
    ∀ᶠ fuel in atTop, ∀ stack w, ∃ w' answer, bevReadCb e (chunked fs lengths) fuel stack c w =
        .ok (⟨rest, c.output ++ answer, c.answered ++ [200]⟩, w') ∧
      answer = Header.render
        (headerBlock 200 (ascii "OK") (getMimeType path) content.length) content ∧
      Header.take answer =
        some (headerBlock 200 (ascii "OK") (getMimeType path) content.length, content) ∧
      contentLength answer = some content.length := by
  have hok : Printable (ascii "OK") := by decide
  obtain ⟨⟨method, url⟩, hwords, rfl⟩ := Option.map_eq_some_iff.mp hline
  filter_upwards [eventually_gt_atTop content.length] with fuel hfuel stack w
  obtain ⟨w', hw'⟩ := sendFile_chunked fs lengths he hcontent hfuel
    (httpSendHeaderLines e 200 (ascii "OK") (getMimeType (target url)) content.length
      { c with input := rest }) w
  have hstat' : (chunked fs lengths).stat (target url) w =
      (some ⟨.regular, content.length⟩, w) := by simp only [chunked, hstat]
  have htype := printable_getMimeType (target url)
  refine ⟨w', _, ?_, rfl, Wording.take_block hok htype 200 _ content,
    Wording.number_block hok htype 200 _ content⟩
  have hprinted : longOfSizeT (toSizeT (content.length : ℤ)) = content.length :=
    longOfSizeT_toSizeT (by omega) (by omega)
  have htext := headerText_append 200 content.length (ascii "OK") (getMimeType (target url)) content
  rw [hprinted] at htext
  rw [bevReadCb, he.readln_some _ _ _ htake]
  simp only [lookup_eq hwords, Checked.ok_bind]
  rw [respond, hstat']
  simp only [hw']
  rw [httpSendHeaderLines_lawful he, ← htext]
  simp only [Conn.add, List.append_assoc]

theorem bevReadCb_regular_index :
    ∀ᶠ fuel in atTop, ∀ stack w, ∃ w' answer,
      bevReadCb evbuffer (chunked site fun _ ↦ 1) fuel stack ⟨index.text, [], []⟩ w =
        .ok (⟨crlf, [] ++ answer, [] ++ [200]⟩, w') ∧
      answer = Header.render
        (headerBlock 200 (ascii "OK") (getMimeType (ascii "index.html")) (ascii "hi").length)
          (ascii "hi") ∧
      Header.take answer = some (headerBlock 200 (ascii "OK")
        (getMimeType (ascii "index.html")) (ascii "hi").length, ascii "hi") ∧
      contentLength answer = some (ascii "hi").length := by
  have htake : takeCrlf index.text = some (index.line, crlf) := by decide +kernel
  have hline : lineTarget index.line = some (ascii "index.html") := by decide +kernel
  exact bevReadCb_regular site (fun _ ↦ 1) evbuffer_lawful htake hline rfl rfl (by decide)

/-! ## Directories, and paths that do not exist -/

/-- The client takes a header block off the answer, and the length in it is that of what is left. -/
def Framed (answer : Bytes) : Prop :=
  ∃ lines body, Header.take answer = some (lines, body) ∧
    contentLength answer = some (body.length : ℤ)

theorem framed_render_iff {status : Bytes} (hstatus : Printable status) (code length : ℤ)
    (name body : Bytes) :
    Framed (Header.render (headerBlock code status (getMimeType name) length) body) ↔
      length = body.length := by
  have htype := printable_getMimeType name
  have htake := Wording.take_block (W := wording) hstatus htype code length body
  have hnumber := Wording.number_block (W := wording) hstatus htype code length body
  constructor
  · rintro ⟨lines, body', htake', hnumber'⟩
    obtain ⟨rfl, rfl⟩ := Prod.mk.inj (Option.some_inj.mp (htake.symm.trans htake'))
    exact Option.some_inj.mp (hnumber.symm.trans hnumber')
  · rintro rfl
    exact ⟨_, body, htake, hnumber⟩

/-- What the callback appends on this connection is framed. -/
def AnswersFramed (e : Evbuffer) (fs : FileSystem) (c : Conn) : Prop :=
  ∀ᶠ fuel in atTop, ∀ stack w, ∃ c' w' answer, bevReadCb e (disk fs) fuel stack c w =
    .ok (c', w') ∧ c'.output = c.output ++ answer ∧ Framed answer

theorem answersFramed_iff (he : e.Lawful) {line path rest : Bytes} {c : Conn}
    (htake : takeCrlf c.input = some (line, rest)) (hline : lineTarget line = some path) :
    AnswersFramed e fs c ↔ Framed (response fs path) := by
  have hcall := bevReadCb_eventually fs he hline
  constructor
  · intro h
    obtain ⟨fuel, hframed, hcall⟩ := (h.and hcall).exists
    obtain ⟨c', w', answer, hw', houtput, hframed⟩ := hframed .ones .start
    obtain ⟨w'', hw''⟩ := hcall .ones c .start rest htake
    obtain ⟨rfl, -⟩ := Prod.mk.inj (Except.ok.inj (hw'.symm.trans hw''))
    have hanswer : c.output ++ response fs path = c.output ++ answer := houtput
    rw [List.append_cancel_left_eq] at hanswer
    exact hanswer ▸ hframed
  · intro h
    filter_upwards [hcall] with fuel hcall stack w
    obtain ⟨w', hw'⟩ := hcall stack c w rest htake
    exact ⟨_, w', response fs path, hw', rfl, h⟩

/-- The length of the link for an entry. -/
def linkLength (d : Dirent) : ℕ :=
  match d.kind with
  | .directory => 2 * d.name.length + 27
  | .regular => 2 * d.name.length + 26
  | .other => 0

/-- The length of the page for a directory. -/
def pageLength (fs : FileSystem) (path : Bytes) : ℕ :=
  ((fs.content (page "upper.html")).getD []).length +
    (((fs.entries path).getD []).map linkLength).sum +
    ((fs.content (page "lower.html")).getD []).length

theorem length_entryLine (d : Dirent) : ((entryLine d).getD []).length = linkLength d := by
  have hascii : (ascii "<li><a href = '").length = 15 ∧ (ascii "/'>").length = 3 ∧
      (ascii "'>").length = 2 ∧ (ascii "</a></li>").length = 9 := by decide
  rw [entryLine, linkLength]
  cases d.kind with
  | regular =>
    simp only [Option.getD_some, List.length_append]
    omega
  | directory =>
    simp only [Option.getD_some, List.length_append]
    omega
  | other => rfl

theorem length_listing (path : Bytes) :
    (listing fs path).length = (((fs.entries path).getD []).map linkLength).sum := by
  rw [listing]
  induction (fs.entries path).getD [] with
  | nil => rfl
  | cons d entries ih =>
    rw [List.flatMap_cons, List.length_append, List.map_cons, List.sum_cons, ih, length_entryLine]

theorem framed_directory_iff {path : Bytes} {size : ℤ}
    (hstat : fs.stat path = some ⟨.directory, size⟩) (hmin : 0 ≤ size) (hmax : size < 2 ^ 63) :
    Framed (response fs path) ↔ size = pageLength fs path := by
  have hok : Printable (ascii "OK") := by decide
  have hprinted : longOfSizeT (toSizeT size) = size := longOfSizeT_toSizeT (by omega) (by omega)
  rw [response, hstat]
  simp only [List.append_assoc]
  rw [headerText_append, hprinted, framed_render_iff hok]
  simp only [List.length_append, length_listing, pageLength, Nat.add_assoc]

/-- The length `-1` is that of no page. -/
theorem not_framed_missing {path : Bytes} (hstat : fs.stat path = none) :
    ¬Framed (response fs path) := by
  have hstatus : Printable (ascii "NOT FOUND") := by decide
  have hprinted : longOfSizeT (toSizeT (-1)) = -1 := by decide
  rw [response, hstat]
  simp only
  rw [headerText_append, hprinted, framed_render_iff hstatus]
  omega

/-- **Directories are framed**, exactly, where `st_size` is the length of the page; **a path that
does not exist** never is. -/
theorem framed_iff (he : e.Lawful) {line path rest : Bytes} {c : Conn}
    (htake : takeCrlf c.input = some (line, rest)) (hline : lineTarget line = some path) :
    (∀ size : ℤ, fs.stat path = some ⟨.directory, size⟩ → 0 ≤ size → size < 2 ^ 63 →
      (AnswersFramed e fs c ↔ size = pageLength fs path)) ∧
    (fs.stat path = none → ¬AnswersFramed e fs c) := by
  constructor
  · intro size hstat hmin hmax
    rw [answersFramed_iff fs he htake hline]
    exact framed_directory_iff fs hstat hmin hmax
  · intro hstat
    rw [answersFramed_iff fs he htake hline]
    exact not_framed_missing fs hstat

/-- The directory has one file in it, and the pages are missing. -/
def root (size : ℤ) : FileSystem where
  stat path := if path = ascii "./" then some ⟨.directory, size⟩ else none
  content _ := none
  entries path := if path = ascii "./" then some [⟨.regular, ascii "a"⟩] else none
  name_le path l hl d hd := by
    obtain ⟨-, hl⟩ := Option.ite_none_right_eq_some.mp hl
    rw [← Option.some_inj.mp hl] at hd
    rw [List.mem_singleton.mp hd]
    decide

/-- A connection on which a request for the directory has arrived. -/
def rootConn : Conn := ⟨ascii "GET / HTTP/1.1\r\n\r\n", [], []⟩

def missingConn : Conn := ⟨ascii "GET /a HTTP/1.1\r\n\r\n", [], []⟩

theorem framed_iff_root :
    (AnswersFramed evbuffer (root 28) rootConn ↔ (28 : ℤ) = pageLength (root 28) (ascii "./")) ∧
      ¬AnswersFramed evbuffer (root 28) missingConn := by
  have htake : takeCrlf rootConn.input = some (ascii "GET / HTTP/1.1", crlf) := by decide +kernel
  have hline : lineTarget (ascii "GET / HTTP/1.1") = some (ascii "./") := by decide +kernel
  have htake' : takeCrlf missingConn.input = some (ascii "GET /a HTTP/1.1", crlf) := by
    decide +kernel
  have hline' : lineTarget (ascii "GET /a HTTP/1.1") = some (ascii "a") := by decide +kernel
  constructor
  · exact (framed_iff (root 28) evbuffer_lawful htake hline).1 28 rfl (by decide) (by decide)
  · exact (framed_iff (root 28) evbuffer_lawful htake' hline').2 rfl

/-- A directory of the usual `st_size`, whose page has 28 bytes, and a path that is not there. -/
theorem not_answersFramed :
    (¬∀ (e : Evbuffer) (fs : FileSystem) (c : Conn) (line path rest : Bytes) (size : ℤ), e.Lawful →
      takeCrlf c.input = some (line, rest) → lineTarget line = some path →
      fs.stat path = some ⟨.directory, size⟩ → 0 ≤ size → size < 2 ^ 63 → AnswersFramed e fs c) ∧
    ¬∀ (e : Evbuffer) (fs : FileSystem) (c : Conn) (line path rest : Bytes), e.Lawful →
      takeCrlf c.input = some (line, rest) → lineTarget line = some path →
      fs.stat path = none → AnswersFramed e fs c := by
  have hline : lineTarget (ascii "GET / HTTP/1.1") = some (ascii "./") := by decide +kernel
  have hline' : lineTarget (ascii "GET /a HTTP/1.1") = some (ascii "a") := by decide +kernel
  have htake : takeCrlf rootConn.input = some (ascii "GET / HTTP/1.1", crlf) := by decide +kernel
  have htake' : takeCrlf missingConn.input = some (ascii "GET /a HTTP/1.1", crlf) := by
    decide +kernel
  constructor
  · intro h
    have hframed := h evbuffer (root 4096) rootConn _ _ _ 4096 evbuffer_lawful htake hline rfl
      (by decide) (by decide)
    rw [answersFramed_iff (root 4096) evbuffer_lawful htake hline,
      framed_directory_iff (root 4096) rfl (by decide) (by decide)] at hframed
    exact absurd hframed (by decide +kernel)
  · intro h
    have hframed := h evbuffer (root 4096) missingConn _ _ _ evbuffer_lawful htake' hline' rfl
    rw [answersFramed_iff (root 4096) evbuffer_lawful htake' hline'] at hframed
    exact not_framed_missing (root 4096) rfl hframed

end LibeventServer

end CodeOnLinux
