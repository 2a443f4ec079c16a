import CodeOnLinux.Pub.HeaderBlock
import CodeOnLinux.Web.Transfer
import CodeOnLinux.WebServer.Delivery

/-!
# The length that the `epoll` servers print

`send_header` takes the length as an `int`, and for a file it is called with the 64-bit `st_size`.
So the client finds the size of the file in the header block if and only if the size is an `int`
(`declares_iff`); from 2 GiB on it finds a negative number, or a smaller one.
-/

namespace CodeOnLinux

namespace Web

open Stdio Pub Lines Filter
open WebServer (FileSystem World Sent kernel site)

/-! ## The wordings -/

/-- `01_webserver` has no colon behind `Content-Length`. -/
def webWording : Wording where
  protocol := ascii "HTTP1.1 "
  contentType := ascii "Content-Type: "
  contentLength := ascii "Content-Length "
  connection := ascii "Connection: close"
  lines := by decide
  protocol_ne := Header.not_prefix_append (n := 1) (by decide) (by decide) (by decide)
  contentType_ne := Header.not_prefix_append (n := 9) (by decide) (by decide) (by decide)

def debugWording : Wording where
  protocol := ascii "HTTP/1.1 "
  contentType := ascii "Content-Type:"
  contentLength := ascii "Content-Length:"
  connection := ascii "Connection:close"
  lines := by decide
  protocol_ne := Header.not_prefix_append (n := 1) (by decide) (by decide) (by decide)
  contentType_ne := Header.not_prefix_append (n := 9) (by decide) (by decide) (by decide)

theorem webServer_headerLines (code length : ℤ) (status fileType : Bytes) :
    WebServer.headerLines code status fileType length =
      webWording.texts code status fileType length := by
  rw [Wording.texts_eq]
  simp only [WebServer.headerLines, List.append_assoc]
  rfl

theorem debugServer_headerLines (code length : ℤ) (msg fileType : Bytes) :
    DebugServer.headerLines code msg fileType length =
      debugWording.texts code msg fileType length := by
  rw [Wording.texts_eq]
  simp only [DebugServer.headerLines, List.append_assoc]
  rfl

/-! ## The server under debugging -/

variable (fs : FileSystem) (connfd : ℕ)

/-- The file system and the connection of `01_webserver`. -/
def debugSystem : DebugServer.System World where
  toKernel := kernel fs connfd
  noEntry _ := true
  epollDel _ _ w := w

theorem debugServer_sendLines {lines : List Bytes}
    (hlines : ∀ l ∈ lines, l.length < DebugServer.bufSize) (w : World) :
    ∃ w', DebugServer.sendLines (debugSystem fs connfd) connfd lines w = .ok w' ∧
      Sent w w' (lines.flatMap cString) := by
  induction lines generalizing w with
  | nil => exact ⟨w, rfl, Sent.refl w⟩
  | cons line lines ih =>
    obtain ⟨hline, hlines⟩ := List.forall_mem_cons.mp hlines
    obtain ⟨w', hw', hsent⟩ := ih hlines { w with output := w.output ++ cString line }
    refine ⟨w', ?_, (WebServer.sent_output w (cString line)).trans hsent⟩
    rw [DebugServer.sendLines, sprintf_ok hline]
    exact hw'

theorem debugServer_headerLines_lt {code fileSize : ℤ} {msg fileType : Bytes}
    (hcode : intMin ≤ code ∧ code ≤ intMax) (hsize : intMin ≤ fileSize ∧ fileSize ≤ intMax)
    (hmsg : msg.length < 64) (htype : fileType.length < 64) :
    ∀ l ∈ DebugServer.headerLines code msg fileType fileSize,
      l.length < DebugServer.bufSize := by
  have hcode := length_formatInt_le hcode.1 hcode.2
  have hsize := length_formatInt_le hsize.1 hsize.2
  have hascii : (ascii "HTTP/1.1 ").length = 9 ∧ (ascii " ").length = 1 ∧
      (ascii "\r\n").length = 2 ∧ (ascii "Content-Type:").length = 13 ∧
      (ascii "Content-Length:").length = 15 ∧ (ascii "Connection:close\r\n").length = 18 := by
    decide
  intro l hl
  simp only [DebugServer.headerLines, List.mem_cons, List.not_mem_nil, or_false] at hl
  rcases hl with rfl | rfl | rfl | rfl | rfl <;>
    simp only [List.length_append, DebugServer.bufSize] <;> omega

theorem debugServer_sendFile_sent {fuel : ℕ} {name : Bytes} (w : World)
    (hfuel : ((fs.content name).getD []).length < fuel) :
    ∃ w', DebugServer.sendFile (debugSystem fs connfd) fuel connfd name w = .ok w' ∧
      Sent w w' ((fs.content name).getD []) := by
  have hkernel : (debugSystem fs connfd).toKernel = kernel fs connfd := rfl
  cases hname : fs.content name with
  | none =>
    refine ⟨w, ?_, Sent.refl w⟩
    rw [DebugServer.sendFile, hkernel, WebServer.kernel_openRead_none hname]
    rfl
  | some content =>
    rw [hname] at hfuel
    have hread : ∀ w, ((debugSystem fs connfd).read (connfd + 1) 4096 w).1 ≠ none := by
      intro w
      simp only [debugSystem, kernel, if_true]
      exact Option.some_ne_none _
    obtain ⟨w', hw', hsent⟩ :=
      WebServer.sendFileLoop_sent fs connfd (w := { w with file := content }) hfuel
    have hopened : (connfd : ℤ) + 1 ≠ -1 := by omega
    have hother : (connfd : ℤ) + 1 ≠ connfd := by omega
    refine ⟨w', ?_, hsent.input, hsent.output, hsent.looked, hsent.closed⟩
    rw [DebugServer.sendFile, hkernel, WebServer.kernel_openRead hname]
    simp only [if_neg hopened, sendFileLoop_eq hread, hkernel, hw', Checked.ok_bind,
      Checked.pure_eq_ok, WebServer.kernel_close_of_ne fs connfd hother]

/-- The answer for a file: the header block and the file, and the connection stays open. -/
theorem debugServer_respond_regular {path : Bytes} {size : ℤ}
    (hstat : fs.stat path = some ⟨.regular, size⟩) (epfd : ℤ) (w : World) {fuel : ℕ}
    (hfuel : ((fs.content path).getD []).length < fuel) :
    ∃ w', DebugServer.respond (debugSystem fs connfd) fuel epfd connfd path w = .ok w' ∧
      w'.output = w.output ++ ((DebugServer.headerLines 200 (ascii "ok") (getMimeType path)
        (wrapInt size)).flatMap cString ++ (fs.content path).getD []) := by
  have hlines : ∀ l ∈ DebugServer.headerLines 200 (ascii "ok") (getMimeType path) (wrapInt size),
      l.length < DebugServer.bufSize :=
    debugServer_headerLines_lt (by decide) (wrapInt_mem size) (by decide)
      (length_getMimeType_lt path)
  obtain ⟨w₁, hw₁, hsent₁⟩ := debugServer_sendLines fs connfd hlines
    { w with looked := w.looked ++ [path] }
  obtain ⟨w₂, hw₂, hsent₂⟩ := debugServer_sendFile_sent fs connfd w₁ hfuel
  have hstat' : (debugSystem fs connfd).stat path w =
      (some ⟨.regular, size⟩, { w with looked := w.looked ++ [path] }) := by
    simp only [debugSystem, kernel, hstat]
  refine ⟨w₂, ?_, (hsent₁.trans hsent₂).output⟩
  rw [DebugServer.respond, hstat']
  simp only [DebugServer.sendHeader, hw₁, Checked.ok_bind, hw₂]
  rfl

/-! ## The number in the header block -/

/-- The answer of `01_webserver` for the path has a header block in which `size` is printed for the
length. -/
def Declares (path : Bytes) (size : ℤ) : Prop :=
  ∀ᶠ fuel in atTop, ∀ w, ∃ r w' answer,
    WebServer.respond (kernel fs connfd) fuel connfd path w = .ok (r, w') ∧
      w'.output = w.output ++ answer ∧
      Header.number webWording.contentLength answer = some size

/-- The same of the server under debugging. -/
def DebugDeclares (path : Bytes) (size : ℤ) : Prop :=
  ∀ᶠ fuel in atTop, ∀ epfd w, ∃ w' answer,
    DebugServer.respond (debugSystem fs connfd) fuel epfd connfd path w = .ok w' ∧
      w'.output = w.output ++ answer ∧
      Header.number debugWording.contentLength answer = some size

/-- The conversion to `int` keeps the sizes that are an `int`, and no others. -/
theorem wrapInt_eq_self_iff {size : ℤ} (hmin : 0 ≤ size) : wrapInt size = size ↔ size ≤ intMax := by
  constructor
  · intro h
    rw [← h]
    exact (wrapInt_mem size).2
  · intro h
    have hlow : intMin ≤ size := le_trans (by decide) hmin
    exact wrapInt_of_le hlow h

variable {fs connfd}

theorem webServer_declares_iff {path : Bytes} {size : ℤ}
    (hstat : fs.stat path = some ⟨.regular, size⟩) (hmin : 0 ≤ size) :
    Declares fs connfd path size ↔ size ≤ intMax := by
  have hok : Printable (ascii "OK") := by decide
  have htype := printable_getMimeType path
  have hresponse : WebServer.response fs path = Header.render
      (webWording.block 200 (ascii "OK") (getMimeType path) (wrapInt size))
      ((fs.content path).getD []) := by
    rw [WebServer.response, hstat]
    simp only
    rw [WebServer.headerText, webServer_headerLines, Wording.flatMap_cString_texts hok htype,
      Wording.flatten_texts]
  have hnumber : Header.number webWording.contentLength (WebServer.response fs path) =
      some (wrapInt size) := by
    rw [hresponse]
    exact Wording.number_block hok htype 200 _ _
  rw [← wrapInt_eq_self_iff hmin]
  constructor
  · intro h
    obtain ⟨fuel, hdeclares, hrespond⟩ :=
      (h.and (WebServer.respond_eventually fs connfd path)).exists
    obtain ⟨r, w, answer, hw, houtput, hsize⟩ := hdeclares .start
    obtain ⟨r', w', hw', hdone⟩ := hrespond .start
    obtain ⟨-, rfl⟩ := Prod.mk.inj (Except.ok.inj (hw.symm.trans hw'))
    have hanswer := houtput.symm.trans hdone.output
    rw [List.append_cancel_left_eq] at hanswer
    rw [hanswer, hnumber] at hsize
    exact Option.some_inj.mp hsize
  · intro h
    filter_upwards [WebServer.respond_eventually fs connfd path] with fuel hrespond w
    obtain ⟨r, w', hw', hdone⟩ := hrespond w
    exact ⟨r, w', _, hw', hdone.output, hnumber.trans (congrArg some h)⟩

theorem debugServer_declares_iff {path : Bytes} {size : ℤ}
    (hstat : fs.stat path = some ⟨.regular, size⟩) (hmin : 0 ≤ size) :
    DebugDeclares fs connfd path size ↔ size ≤ intMax := by
  have hok : Printable (ascii "ok") := by decide
  have htype := printable_getMimeType path
  have hnumber : Header.number debugWording.contentLength
      ((DebugServer.headerLines 200 (ascii "ok") (getMimeType path) (wrapInt size)).flatMap
        cString ++ (fs.content path).getD []) = some (wrapInt size) := by
    rw [debugServer_headerLines, Wording.flatMap_cString_texts hok htype, Wording.flatten_texts]
    exact Wording.number_block hok htype 200 _ _
  rw [← wrapInt_eq_self_iff hmin]
  constructor
  · intro h
    obtain ⟨fuel, hdeclares, hfuel⟩ :=
      (h.and (eventually_gt_atTop ((fs.content path).getD []).length)).exists
    obtain ⟨w, answer, hw, houtput, hsize⟩ := hdeclares 3 .start
    obtain ⟨w', hw', houtput'⟩ := debugServer_respond_regular fs connfd hstat 3 .start hfuel
    obtain rfl := Except.ok.inj (hw.symm.trans hw')
    have hanswer := houtput.symm.trans houtput'
    rw [List.append_cancel_left_eq] at hanswer
    rw [hanswer, hnumber] at hsize
    exact Option.some_inj.mp hsize
  · intro h
    filter_upwards [eventually_gt_atTop ((fs.content path).getD []).length] with fuel hfuel epfd w
    obtain ⟨w', hw', houtput⟩ := debugServer_respond_regular fs connfd hstat epfd w hfuel
    exact ⟨w', _, hw', houtput, hnumber.trans (congrArg some h)⟩

/-- **The printed length** is the size of the file, exactly, where that is an `int`. -/
theorem declares_iff {path : Bytes} {size : ℤ} (hstat : fs.stat path = some ⟨.regular, size⟩)
    (hmin : 0 ≤ size) :
    (Declares fs connfd path size ↔ size ≤ intMax) ∧
      (DebugDeclares fs connfd path size ↔ size ≤ intMax) :=
  ⟨webServer_declares_iff hstat hmin, debugServer_declares_iff hstat hmin⟩

theorem declares_iff_index : (Declares site 5 (ascii "index.html") 2 ↔ (2 : ℤ) ≤ intMax) ∧
    (DebugDeclares site 5 (ascii "index.html") 2 ↔ (2 : ℤ) ≤ intMax) :=
  declares_iff rfl (by decide)

/-- A file of 2 GiB. -/
def large : FileSystem :=
  { site with
    stat := fun path ↦ if path = ascii "a" then some ⟨.regular, 2147483648⟩ else none
    content := fun path ↦ if path = ascii "a" then some (List.replicate 2147483648 0) else none }

theorem not_declares :
    (¬∀ (fs : FileSystem) (connfd : ℕ) path size, fs.stat path = some ⟨.regular, size⟩ → 0 ≤ size →
      size < 2 ^ 63 → Declares fs connfd path size) ∧
    ¬∀ (fs : FileSystem) (connfd : ℕ) path size, fs.stat path = some ⟨.regular, size⟩ → 0 ≤ size →
      size < 2 ^ 63 → DebugDeclares fs connfd path size := by
  have hstat : large.stat (ascii "a") = some ⟨.regular, 2147483648⟩ := rfl
  have hlarge : ¬(2147483648 : ℤ) ≤ intMax := by decide
  constructor
  · intro h
    have hdeclares := h large 5 _ _ hstat (by decide) (by decide)
    exact hlarge ((webServer_declares_iff hstat (by decide)).mp hdeclares)
  · intro h
    have hdeclares := h large 5 _ _ hstat (by decide) (by decide)
    exact hlarge ((debugServer_declares_iff hstat (by decide)).mp hdeclares)

end Web

end CodeOnLinux
