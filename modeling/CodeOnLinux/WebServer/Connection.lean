import CodeOnLinux.WebServer.Server
import Mathlib.Order.Filter.AtTopBot.Basic

/-!
# The answer on a connection

The server runs here against a file system that does not change and a socket that takes everything
it is sent. Then `respond` always returns, given enough fuel for the files and the directory it
sends (`respond_eventually`), and what it sends is `response`, a function of the path alone.
-/

namespace CodeOnLinux

namespace WebServer

open Memory Stdio Pub Lines Filter

/-! ## The world of a connection -/

/-- The files of the server. -/
structure FileSystem where
  /-- What `stat` finds. -/
  stat : Bytes → Option Stat
  /-- What can be read after `open`. -/
  content : Bytes → Option Bytes
  /-- What can be read after `opendir`. -/
  entries : Bytes → Option (List Dirent)
  /-- A file name has at most 255 bytes. -/
  name_le : ∀ path l, entries path = some l → ∀ d ∈ l, d.name.length ≤ 255

/-- The connection, and the rest of the one file and the one directory that the server has open
at a time. -/
structure World where
  /-- What has arrived and was not read. -/
  input : Bytes
  /-- What was sent. -/
  output : Bytes
  /-- The paths that were looked up. -/
  looked : List Bytes
  /-- Whether the connection was closed. -/
  closed : Bool
  /-- The rest of the file. -/
  file : Bytes
  /-- The rest of the directory. -/
  dir : List Dirent

def World.start : World := ⟨[], [], [], false, [], []⟩

variable (fs : FileSystem) (connfd : ℕ)

/-- The descriptor behind `connfd` is free for files. -/
def kernel : Kernel World where
  recv _ peek w := Prod.map id (fun s ↦ { w with input := s }) (streamRecv .failed peek w.input)
  send _ text w := (text.length, { w with output := w.output ++ text })
  stat path w := (fs.stat path, { w with looked := w.looked ++ [path] })
  openRead path w :=
    match fs.content path with
    | some content => (connfd + 1, { w with file := content })
    | none => (-1, w)
  read fd n w :=
    if fd = connfd + 1 then (some (w.file.take n), { w with file := w.file.drop n }) else (none, w)
  close fd w := if fd = connfd then { w with closed := true } else w
  opendir path w :=
    match fs.entries path with
    | some entries => (some 0, { w with dir := entries })
    | none => (none, w)
  readdir _ w :=
    match w.dir with
    | [] => (none, w)
    | d :: dir => (some d, { w with dir := dir })
  closedir _ w := w

/-! ## What is sent -/

/-- `w'` is `w` with `text` sent on the connection; the open file and directory may differ. -/
structure Sent (w w' : World) (text : Bytes) : Prop where
  /-- Nothing was read. -/
  input : w'.input = w.input
  /-- The text was sent. -/
  output : w'.output = w.output ++ text
  /-- Nothing was looked up. -/
  looked : w'.looked = w.looked
  /-- The connection was not closed. -/
  closed : w'.closed = w.closed

theorem Sent.refl (w : World) : Sent w w [] := ⟨rfl, (List.append_nil _).symm, rfl, rfl⟩

theorem Sent.trans {w w₁ w₂ : World} {text text' : Bytes} (h : Sent w w₁ text)
    (h' : Sent w₁ w₂ text') : Sent w w₂ (text ++ text') where
  input := h'.input.trans h.input
  output := by rw [h'.output, h.output, List.append_assoc]
  looked := h'.looked.trans h.looked
  closed := h'.closed.trans h.closed

theorem kernel_send (fd : ℤ) (text : Bytes) (w : World) : (kernel fs connfd).send fd text w =
    ((text.length : ℤ), { w with output := w.output ++ text }) := rfl

variable {fs connfd} in
theorem kernel_openRead {name content : Bytes} (h : fs.content name = some content) (w : World) :
    (kernel fs connfd).openRead name w = ((connfd : ℤ) + 1, { w with file := content }) := by
  simp only [kernel, h]

variable {fs connfd} in
theorem kernel_openRead_none {name : Bytes} (h : fs.content name = none) (w : World) :
    (kernel fs connfd).openRead name w = (-1, w) := by
  simp only [kernel, h]

/-- Only the connection's own descriptor closes it. -/
theorem kernel_close_of_ne {fd : ℤ} (h : fd ≠ connfd) (w : World) :
    (kernel fs connfd).close fd w = w := if_neg h

theorem sent_output (w : World) (text : Bytes) :
    Sent w { w with output := w.output ++ text } text := ⟨rfl, rfl, rfl, rfl⟩

theorem sendLines_sent {lines : List Bytes} (hlines : ∀ l ∈ lines, l.length < maxSize) (w : World) :
    ∃ w', sendLines (kernel fs connfd) connfd lines w = .ok (0, w') ∧
      Sent w w' (lines.flatMap cString) := by
  induction lines generalizing w with
  | nil => exact ⟨w, rfl, Sent.refl w⟩
  | cons line lines ih =>
    obtain ⟨hline, hlines⟩ := List.forall_mem_cons.mp hlines
    obtain ⟨w', hw', hsent⟩ := ih hlines { w with output := w.output ++ cString line }
    refine ⟨w', ?_, (sent_output w (cString line)).trans hsent⟩
    rw [sendLines, sprintf_ok hline]
    -- the socket takes the whole text, so the result is not `-1`
    simp only [Checked.ok_bind, kernel_send]
    exact hw'

theorem headerLines_lt {code fileLength : ℤ} {status fileType : Bytes}
    (hcode : intMin ≤ code ∧ code ≤ intMax) (hlength : intMin ≤ fileLength ∧ fileLength ≤ intMax)
    (hstatus : status.length < 64) (htype : fileType.length < 64) :
    ∀ l ∈ headerLines code status fileType fileLength, l.length < maxSize := by
  have hcode := length_formatInt_le hcode.1 hcode.2
  have hlength := length_formatInt_le hlength.1 hlength.2
  have hascii : (ascii "HTTP1.1 ").length = 8 ∧ (ascii " ").length = 1 ∧ (ascii "\r\n").length = 2 ∧
      (ascii "Content-Type: ").length = 14 ∧ (ascii "Content-Length ").length = 15 ∧
      (ascii "Connection: close\r\n").length = 19 := by decide
  intro l hl
  simp only [headerLines, List.mem_cons, List.not_mem_nil, or_false] at hl
  rcases hl with rfl | rfl | rfl | rfl | rfl <;> simp only [List.length_append, maxSize] <;> omega

/-- The file goes out in blocks, all of it. -/
theorem sendFileLoop_sent {fuel : ℕ} {w : World} (hfuel : w.file.length < fuel) :
    ∃ w', sendFileLoop (kernel fs connfd) connfd (connfd + 1) fuel w = .ok w' ∧
      Sent w w' w.file := by
  induction fuel generalizing w with
  | zero => exact absurd hfuel (Nat.not_lt_zero _)
  | succ fuel ih =>
    have hread : (kernel fs connfd).read (connfd + 1) maxSize w =
        (some (w.file.take maxSize), { w with file := w.file.drop maxSize }) := if_pos rfl
    rw [sendFileLoop, hread]
    cases hblock : w.file.take maxSize with
    | nil =>
      -- `read` returns 0 only at the end of the file
      have hnil : w.file = [] := by
        rcases List.take_eq_nil_iff.mp hblock with hzero | hnil
        · exact absurd hzero (by decide)
        · exact hnil
      exact ⟨_, rfl, rfl, by rw [hnil, List.append_nil], rfl, rfl⟩
    | cons b block =>
      have hlen : (w.file.take maxSize).length = block.length + 1 := by rw [hblock]; rfl
      rw [List.length_take] at hlen
      have hdrop : (w.file.drop maxSize).length < fuel := by
        rw [List.length_drop]
        omega
      obtain ⟨w', hw', hsent⟩ := ih (w := { w with
        file := w.file.drop maxSize, output := w.output ++ (b :: block) }) hdrop
      refine ⟨w', ?_, ?_⟩
      · simp only [kernel_send]
        exact hw'
      · have hstep : Sent w { w with
            file := w.file.drop maxSize, output := w.output ++ (b :: block) } (b :: block) :=
          ⟨rfl, rfl, rfl, rfl⟩
        have := hstep.trans hsent
        rwa [← hblock, List.take_append_drop] at this

theorem sendFile_sent {fuel : ℕ} {name : Bytes} (w : World)
    (hfuel : ((fs.content name).getD []).length < fuel) :
    ∃ w', sendFile (kernel fs connfd) fuel connfd name w = .ok (0, w') ∧
      Sent w w' ((fs.content name).getD []) := by
  obtain ⟨n, rfl⟩ := Nat.exists_eq_succ_of_ne_zero (Nat.ne_of_gt (Nat.zero_lt_of_lt hfuel))
  cases hname : fs.content name with
  | none =>
    -- the source goes on after a failed `open`; `read` and `close` then fail too
    have hfree : (-1 : ℤ) ≠ connfd + 1 := by omega
    have hother : (-1 : ℤ) ≠ connfd := by omega
    have hread : (kernel fs connfd).read (-1) maxSize w = (none, w) := by
      simp only [kernel, if_neg hfree]
    refine ⟨w, ?_, Sent.refl w⟩
    rw [sendFile, kernel_openRead_none hname]
    simp only [sendFileLoop, hread, Checked.ok_bind, kernel_close_of_ne fs connfd hother]
    rfl
  | some content =>
    rw [hname] at hfuel
    obtain ⟨w', hw', hsent⟩ := sendFileLoop_sent fs connfd (w := { w with file := content }) hfuel
    have hother : (connfd : ℤ) + 1 ≠ connfd := by omega
    refine ⟨w', ?_, hsent.input, hsent.output, hsent.looked, hsent.closed⟩
    rw [sendFile, kernel_openRead hname]
    simp only [hw', Checked.ok_bind, kernel_close_of_ne fs connfd hother]
    rfl

theorem length_entryLine_lt {d : Dirent} (h : d.name.length ≤ 255) :
    (entryLine d).length < maxSize := by
  have hascii : (ascii "<li><a href = '").length = 15 ∧ (ascii "'> ").length = 3 ∧
      (ascii "/'> ").length = 4 ∧ (ascii "</a></li>").length = 9 := by decide
  rw [entryLine]
  split <;> simp only [List.length_append, List.length_nil, maxSize] <;> omega

theorem sendDirLoop_sent {fuel : ℕ} {w : World} (hfuel : w.dir.length < fuel)
    (hnames : ∀ d ∈ w.dir, d.name.length ≤ 255) :
    ∃ w', sendDirLoop (kernel fs connfd) connfd 0 fuel w = .ok w' ∧
      Sent w w' (w.dir.flatMap fun d ↦ cString (entryLine d)) := by
  induction fuel generalizing w with
  | zero => exact absurd hfuel (Nat.not_lt_zero _)
  | succ fuel ih =>
    rw [sendDirLoop]
    cases hdir : w.dir with
    | nil =>
      have hread : (kernel fs connfd).readdir 0 w = (none, w) := by simp only [kernel, hdir]
      rw [hread]
      exact ⟨w, rfl, Sent.refl w⟩
    | cons d dir =>
      have hread : (kernel fs connfd).readdir 0 w = (some d, { w with dir := dir }) := by
        simp only [kernel, hdir]
      rw [hdir] at hfuel hnames
      obtain ⟨hd, hnames⟩ := List.forall_mem_cons.mp hnames
      obtain ⟨w', hw', hsent⟩ := ih (w := { w with
        dir := dir, output := w.output ++ cString (entryLine d) })
        (Nat.lt_of_succ_lt_succ hfuel) hnames
      have hstep : Sent w { w with dir := dir, output := w.output ++ cString (entryLine d) }
          (cString (entryLine d)) := ⟨rfl, rfl, rfl, rfl⟩
      refine ⟨w', ?_, hstep.trans hsent⟩
      rw [hread]
      simp only [sprintf_ok (length_entryLine_lt hd), Checked.ok_bind]
      exact hw'

/-- What `send_dir` sends. -/
def listing (fs : FileSystem) (path : Bytes) : Bytes :=
  ((fs.entries path).getD []).flatMap fun d ↦ cString (entryLine d)

theorem sendDir_sent {fuel : ℕ} {path : Bytes} (w : World)
    (hfuel : ((fs.entries path).getD []).length < fuel) :
    ∃ r w', sendDir (kernel fs connfd) fuel connfd path w = .ok (r, w') ∧
      Sent w w' (listing fs path) := by
  rw [listing]
  cases hpath : fs.entries path with
  | none =>
    have hopen : (kernel fs connfd).opendir path w = (none, w) := by simp only [kernel, hpath]
    refine ⟨1, w, ?_, Sent.refl w⟩
    rw [sendDir, hopen]
  | some entries =>
    rw [hpath] at hfuel
    have hopen : (kernel fs connfd).opendir path w = (some 0, { w with dir := entries }) := by
      simp only [kernel, hpath]
    obtain ⟨w', hw', hsent⟩ := sendDirLoop_sent fs connfd (w := { w with dir := entries }) hfuel
      (fs.name_le path entries hpath)
    refine ⟨0, w', ?_, hsent.input, hsent.output, hsent.looked, hsent.closed⟩
    rw [sendDir, hopen]
    simp only [hw', Checked.ok_bind]
    rfl

/-! ## The answer to one request -/

def headerText (code : ℤ) (status fileType : Bytes) (fileLength : ℤ) : Bytes :=
  (headerLines code status fileType fileLength).flatMap cString

theorem sendHeader_sent (code fileLength : ℤ) (status fileType : Bytes)
    (hcode : intMin ≤ code ∧ code ≤ intMax) (hlength : intMin ≤ fileLength ∧ fileLength ≤ intMax)
    (hstatus : status.length < 64) (htype : fileType.length < 64) (w : World) :
    ∃ w', sendHeader (kernel fs connfd) connfd code status fileType fileLength w = .ok (0, w') ∧
      Sent w w' (headerText code status fileType fileLength) :=
  sendLines_sent fs connfd (headerLines_lt hcode hlength hstatus htype) w

/-- What is sent for a path. -/
def response (fs : FileSystem) (path : Bytes) : Bytes :=
  match fs.stat path with
  | none =>
    headerText 404 (ascii "NOT FOUND") (ascii ".html") (-1) ++
      (fs.content (page "404.html")).getD []
  | some s =>
    match s.kind with
    | .regular =>
      headerText 200 (ascii "OK") (getMimeType path) (wrapInt s.size) ++ (fs.content path).getD []
    | .directory =>
      headerText 200 (ascii "OK") (ascii "*.html") (-1) ++
        (fs.content (page "upper.html")).getD [] ++ listing fs path ++
        (fs.content (page "lower.html")).getD []
    | .other => []

/-- The connection is closed after the answer for a file or a directory. -/
def closes (fs : FileSystem) (path : Bytes) : Bool :=
  match fs.stat path with
  | some s => decide (s.kind = .regular ∨ s.kind = .directory)
  | none => false

/-- `w'` is `w` after the answer for a path. -/
structure Responded (fs : FileSystem) (path : Bytes) (w w' : World) : Prop where
  /-- Nothing was read. -/
  input : w'.input = w.input
  /-- The answer was sent. -/
  output : w'.output = w.output ++ response fs path
  /-- The path was looked up. -/
  looked : w'.looked = w.looked ++ [path]
  /-- The connection was closed if the path closes it. -/
  closed : w'.closed = (w.closed || closes fs path)

theorem kernel_stat (path : Bytes) (w : World) : (kernel fs connfd).stat path w =
    (fs.stat path, { w with looked := w.looked ++ [path] }) := rfl

theorem kernel_close (w : World) : (kernel fs connfd).close connfd w = { w with closed := true } :=
  if_pos rfl

theorem closes_of_kind {path : Bytes} {s : Stat} (hstat : fs.stat path = some s) :
    closes fs path = decide (s.kind = .regular ∨ s.kind = .directory) := by
  rw [closes, hstat]

theorem respond_none {path : Bytes} (hstat : fs.stat path = none) (w : World) {fuel : ℕ}
    (hfuel : ((fs.content (page "404.html")).getD []).length < fuel) :
    ∃ r w', respond (kernel fs connfd) fuel connfd path w = .ok (r, w') ∧
      Responded fs path w w' := by
  obtain ⟨w₁, hw₁, hsent₁⟩ := sendHeader_sent fs connfd 404 (-1) (ascii "NOT FOUND") (ascii ".html")
    (by decide) (by decide) (by decide) (by decide) { w with looked := w.looked ++ [path] }
  obtain ⟨w₂, hw₂, hsent₂⟩ := sendFile_sent fs connfd w₁ hfuel
  refine ⟨1, w₂, ?_, ?_⟩
  · rw [respond, kernel_stat, hstat]
    simp only [hw₁, Checked.ok_bind, hw₂]
    rfl
  · have hresponse := hsent₁.trans hsent₂
    refine ⟨hresponse.input, ?_, hresponse.looked, ?_⟩
    · rw [hresponse.output, response, hstat]
    · rw [hresponse.closed, closes, hstat, Bool.or_false]

theorem respond_regular {path : Bytes} {s : Stat} (hstat : fs.stat path = some s)
    (hkind : s.kind = .regular) (w : World) {fuel : ℕ}
    (hfuel : ((fs.content path).getD []).length < fuel) :
    ∃ r w', respond (kernel fs connfd) fuel connfd path w = .ok (r, w') ∧
      Responded fs path w w' := by
  obtain ⟨w₁, hw₁, hsent₁⟩ := sendHeader_sent fs connfd 200 (wrapInt s.size) (ascii "OK")
    (getMimeType path) (by decide) (wrapInt_mem s.size) (by decide) (length_getMimeType_lt path)
    { w with looked := w.looked ++ [path] }
  obtain ⟨w₂, hw₂, hsent₂⟩ := sendFile_sent fs connfd w₁ hfuel
  refine ⟨0, { w₂ with closed := true }, ?_, ?_⟩
  · rw [respond, kernel_stat, hstat]
    simp only [hkind, hw₁, Checked.ok_bind, hw₂, kernel_close]
    rfl
  · have hresponse := hsent₁.trans hsent₂
    refine ⟨hresponse.input, ?_, hresponse.looked, ?_⟩
    · rw [hresponse.output, response, hstat]
      simp only [hkind]
    · rw [closes_of_kind fs hstat, decide_eq_true (Or.inl hkind), Bool.or_true]

theorem respond_directory {path : Bytes} {s : Stat} (hstat : fs.stat path = some s)
    (hkind : s.kind = .directory) (w : World) {fuel : ℕ}
    (hupper : ((fs.content (page "upper.html")).getD []).length < fuel)
    (hentries : ((fs.entries path).getD []).length < fuel)
    (hlower : ((fs.content (page "lower.html")).getD []).length < fuel) :
    ∃ r w', respond (kernel fs connfd) fuel connfd path w = .ok (r, w') ∧
      Responded fs path w w' := by
  obtain ⟨w₁, hw₁, hsent₁⟩ := sendHeader_sent fs connfd 200 (-1) (ascii "OK") (ascii "*.html")
    (by decide) (by decide) (by decide) (by decide) { w with looked := w.looked ++ [path] }
  obtain ⟨w₂, hw₂, hsent₂⟩ := sendFile_sent fs connfd w₁ hupper
  obtain ⟨r, w₃, hw₃, hsent₃⟩ := sendDir_sent fs connfd w₂ hentries
  obtain ⟨w₄, hw₄, hsent₄⟩ := sendFile_sent fs connfd w₃ hlower
  refine ⟨0, { w₄ with closed := true }, ?_, ?_⟩
  · rw [respond, kernel_stat, hstat]
    simp only [hkind, hw₁, Checked.ok_bind, hw₂, hw₃, hw₄, kernel_close]
    rfl
  · have hresponse := ((hsent₁.trans hsent₂).trans hsent₃).trans hsent₄
    refine ⟨hresponse.input, ?_, hresponse.looked, ?_⟩
    · rw [hresponse.output, response, hstat]
      simp only [hkind]
    · rw [closes_of_kind fs hstat, decide_eq_true (Or.inr hkind), Bool.or_true]

theorem respond_other {path : Bytes} {s : Stat} (hstat : fs.stat path = some s)
    (hkind : s.kind = .other) (w : World) (fuel : ℕ) :
    ∃ r w', respond (kernel fs connfd) fuel connfd path w = .ok (r, w') ∧
      Responded fs path w w' := by
  refine ⟨0, { w with looked := w.looked ++ [path] }, ?_, rfl, ?_, rfl, ?_⟩
  · rw [respond, kernel_stat, hstat]
    simp only [hkind]
  · rw [response, hstat]
    simp only [hkind, List.append_nil]
  · rw [closes_of_kind fs hstat, hkind, decide_eq_false (by decide), Bool.or_false]

/-- **Answering.** With fuel for the files and the directory involved, the path is answered. -/
theorem respond_eventually (path : Bytes) :
    ∀ᶠ fuel in atTop, ∀ w, ∃ r w', respond (kernel fs connfd) fuel connfd path w = .ok (r, w') ∧
      Responded fs path w w' := by
  cases hstat : fs.stat path with
  | none =>
    filter_upwards [eventually_gt_atTop ((fs.content (page "404.html")).getD []).length]
      with fuel hfuel w
    exact respond_none fs connfd hstat w hfuel
  | some s =>
    cases hkind : s.kind with
    | regular =>
      filter_upwards [eventually_gt_atTop ((fs.content path).getD []).length] with fuel hfuel w
      exact respond_regular fs connfd hstat hkind w hfuel
    | directory =>
      filter_upwards [eventually_gt_atTop ((fs.content (page "upper.html")).getD []).length,
        eventually_gt_atTop ((fs.entries path).getD []).length,
        eventually_gt_atTop ((fs.content (page "lower.html")).getD []).length]
        with fuel hupper hentries hlower w
      exact respond_directory fs connfd hstat hkind w hupper hentries hlower
    | other => exact Eventually.of_forall fun fuel w ↦ respond_other fs connfd hstat hkind w fuel

end WebServer

end CodeOnLinux
