import CodeOnLinux.LibeventServer.Server
import CodeOnLinux.WebServer.Connection

/-!
# The answer of the libevent server

The callback runs here against a file system that does not change and with buffers that take
everything that is added. Then what follows `stat` always returns, given enough fuel for the files
and the directory it adds, and it answers for the path once, except where that is neither a file nor
a directory (`respond_eventually`).
-/

namespace CodeOnLinux

namespace LibeventServer

open Stdio Pub Filter
open WebServer (FileKind Stat Dirent FileSystem)

/-! ## The disk -/

/-- What is open; the stream of an earlier directory, which is never closed, is not used again. -/
structure Disk where
  /-- The rest of the file. -/
  file : Bytes
  /-- The rest of the directory. -/
  dir : List Dirent

def Disk.start : Disk := ⟨[], []⟩

variable {e : Evbuffer} (fs : FileSystem)

/-- The system calls over the file system; the file that is open has descriptor 3. -/
def disk : Kernel Disk where
  stat path w := (fs.stat path, w)
  openRead path w :=
    match fs.content path with
    | some content => (3, { w with file := content })
    | none => (-1, w)
  read _ n w := (some (w.file.take n), { w with file := w.file.drop n })
  close _ w := w
  opendir path w :=
    match fs.entries path with
    | some entries => (some 0, { w with dir := entries })
    | none => (none, w)
  readdir _ w :=
    match w.dir with
    | [] => (none, w)
    | d :: dir => (some d, { w with dir := dir })

/-! ## What is added to the output -/

def Conn.add (c : Conn) (text : Bytes) : Conn := { c with output := c.output ++ text }

theorem Conn.add_nil (c : Conn) : c.add [] = c := by
  rw [Conn.add, List.append_nil]

theorem Conn.add_add (c : Conn) (text text' : Bytes) :
    (c.add text).add text' = c.add (text ++ text') := by
  rw [Conn.add, Conn.add, Conn.add, List.append_assoc]

/-- `read` brings the next block of the rest `file` of a file, and nothing only at its end. -/
def ReadsFile {ω : Type} (k : Kernel ω) (file : ω → Bytes) : Prop :=
  ∀ fd w, ∃ block w', k.read fd size w = (some block, w') ∧ file w = block ++ file w' ∧
    (block = [] → file w = [])

/-- The file is added in blocks, all of it, whatever their lengths. -/
theorem sendFileLoop_eq (he : e.Lawful) {ω : Type} {k : Kernel ω} {file : ω → Bytes}
    (hk : ReadsFile k file) {fuel : ℕ} (fd : ℤ) (c : Conn) {w : ω}
    (hfuel : (file w).length < fuel) :
    ∃ w', sendFileLoop e k fd fuel c w = .ok (c.add (file w), w') := by
  induction fuel generalizing c w with
  | zero => exact absurd hfuel (Nat.not_lt_zero _)
  | succ fuel ih =>
    obtain ⟨block, w', hread, hfile, hend⟩ := hk fd w
    rw [sendFileLoop, hread]
    cases block with
    | nil => exact ⟨w', by rw [hend rfl, Conn.add_nil]⟩
    | cons b block =>
      have hlen : (file w).length = block.length + 1 + (file w').length := by
        rw [hfile, List.length_append, List.length_cons]
      obtain ⟨w₂, hw₂⟩ := ih (c.add (b :: block)) (w := w') (by omega)
      refine ⟨w₂, ?_⟩
      simp only [he.add_eq]
      rw [if_neg (not_not.mpr rfl), ← Conn.add, hw₂, Conn.add_add, ← hfile]

/-- A file that could be opened. -/
theorem sendFile_opened (he : e.Lawful) {ω : Type} {k : Kernel ω} {file : ω → Bytes}
    (hk : ReadsFile k file) {fuel : ℕ} {name : Bytes} {w₁ w₂ : ω} {fd : ℤ} (c : Conn)
    (hopen : k.openRead name w₁ = (fd, w₂)) (hfd : fd ≠ -1)
    (hfuel : (file w₂).length < fuel) :
    ∃ w', sendFile e k fuel name c w₁ = .ok (c.add (file w₂), w') := by
  obtain ⟨w', hw'⟩ := sendFileLoop_eq he hk fd c hfuel
  refine ⟨k.close fd w', ?_⟩
  rw [sendFile, hopen]
  simp only [if_neg hfd, Checked.pure_eq_ok, Checked.ok_bind, hw']

theorem disk_readsFile : ReadsFile (disk fs) Disk.file := by
  intro fd w
  refine ⟨w.file.take size, { w with file := w.file.drop size }, rfl,
    (List.take_append_drop _ _).symm, fun hblock ↦ ?_⟩
  rcases List.take_eq_nil_iff.mp hblock with hzero | hnil
  · exact absurd hzero (by decide)
  · exact hnil

theorem sendFile_disk (he : e.Lawful) {fuel : ℕ} {name : Bytes} (c : Conn) (w : Disk)
    (hfuel : ((fs.content name).getD []).length < fuel) :
    ∃ w', sendFile e (disk fs) fuel name c w =
      .ok (c.add ((fs.content name).getD []), w') := by
  cases hname : fs.content name with
  | none =>
    have hopen : (disk fs).openRead name w = (-1, w) := by simp only [disk, hname]
    refine ⟨w, ?_⟩
    rw [sendFile, hopen, Option.getD_none, Conn.add_nil]
    rfl
  | some content =>
    rw [hname] at hfuel
    have hopen : (disk fs).openRead name w = (3, { w with file := content }) := by
      simp only [disk, hname]
    exact sendFile_opened he (disk_readsFile fs) c hopen (by decide) hfuel

theorem sendDirLoop_disk (he : e.Lawful) {fuel dir : ℕ} (c : Conn) {w : Disk}
    (hfuel : w.dir.length < fuel) :
    ∃ w', sendDirLoop e (disk fs) dir fuel c w =
      .ok (c.add (w.dir.flatMap fun d ↦ (entryLine d).getD []), w') := by
  induction fuel generalizing c w with
  | zero => exact absurd hfuel (Nat.not_lt_zero _)
  | succ fuel ih =>
    rw [sendDirLoop]
    cases hdir : w.dir with
    | nil =>
      have hread : (disk fs).readdir dir w = (none, w) := by simp only [disk, hdir]
      rw [hread]
      exact ⟨w, by rw [List.flatMap_nil, Conn.add_nil]⟩
    | cons d entries =>
      have hread : (disk fs).readdir dir w = (some d, { w with dir := entries }) := by
        simp only [disk, hdir]
      rw [hdir] at hfuel
      have hrest : entries.length < fuel := Nat.lt_of_succ_lt_succ hfuel
      rw [hread, List.flatMap_cons]
      cases hline : entryLine d with
      | none =>
        obtain ⟨w', hw'⟩ := ih c (w := { w with dir := entries }) hrest
        refine ⟨w', ?_⟩
        simp only [hline]
        rw [hw', Option.getD_none, List.nil_append]
      | some text =>
        obtain ⟨w', hw'⟩ := ih (c.add text) (w := { w with dir := entries }) hrest
        refine ⟨w', ?_⟩
        simp only [hline, he.addPrintf_eq]
        rw [← Conn.add, hw', Conn.add_add, Option.getD_some]

/-- What `send_dir` adds. -/
def listing (fs : FileSystem) (path : Bytes) : Bytes :=
  ((fs.entries path).getD []).flatMap fun d ↦ (entryLine d).getD []

theorem sendDir_disk (he : e.Lawful) {fuel : ℕ} {path : Bytes} (c : Conn) (w : Disk)
    (hfuel : ((fs.entries path).getD []).length < fuel) :
    ∃ w', sendDir e (disk fs) fuel path c w =
      .ok (c.add (listing fs path), w') := by
  rw [listing]
  cases hpath : fs.entries path with
  | none =>
    have hopen : (disk fs).opendir path w = (none, w) := by simp only [disk, hpath]
    refine ⟨w, ?_⟩
    rw [sendDir, hopen, Option.getD_none, List.flatMap_nil, Conn.add_nil]
  | some entries =>
    rw [hpath] at hfuel
    have hopen : (disk fs).opendir path w = (some 0, { w with dir := entries }) := by
      simp only [disk, hpath]
    rw [sendDir, hopen]
    exact sendDirLoop_disk fs he c hfuel

theorem addLines_lawful (he : e.Lawful) (lines : List Bytes) (outbuf : Bytes) :
    addLines e lines outbuf = outbuf ++ lines.flatten := by
  induction lines generalizing outbuf with
  | nil => exact (List.append_nil _).symm
  | cons line lines ih =>
    have hne : ((line.length : ℕ) : ℤ) ≠ -1 := by omega
    rw [addLines, he.addPrintf_eq]
    simp only [if_neg hne]
    rw [ih, List.append_assoc, List.flatten_cons]

def headerText (code : ℤ) (status fileType : Bytes) (size : ℤ) : Bytes :=
  statusLine code status ++ (headerLines fileType size).flatten

theorem httpSendHeaderLines_lawful (he : e.Lawful) (code : ℤ) (status fileType : Bytes) (size : ℤ)
    (c : Conn) : httpSendHeaderLines e code status fileType size c =
      { c.add (headerText code status fileType size) with answered := c.answered ++ [code] } := by
  have hne : (((statusLine code status).length : ℕ) : ℤ) ≠ -1 := by omega
  rw [httpSendHeaderLines, he.addPrintf_eq]
  simp only [if_neg hne]
  rw [addLines_lawful he, List.append_assoc, ← headerText, Conn.add]

/-! ## The answer for a path -/

/-- What is added for a path. -/
def response (fs : FileSystem) (path : Bytes) : Bytes :=
  match fs.stat path with
  | none =>
    headerText 404 (ascii "NOT FOUND") (getMimeType (ascii ".html")) (-1) ++
      (fs.content (page "404.html")).getD []
  | some s =>
    match s.kind with
    | .regular =>
      headerText 200 (ascii "OK") (getMimeType path) s.size ++ (fs.content path).getD []
    | .directory =>
      headerText 200 (ascii "OK") (getMimeType (ascii ".html")) s.size ++
        (fs.content (page "upper.html")).getD [] ++ listing fs path ++
        (fs.content (page "lower.html")).getD []
    | .other => []

/-- The code of the status line for a path; what is no file and no directory gets none. -/
def statusCode (fs : FileSystem) (path : Bytes) : Option ℤ :=
  match fs.stat path with
  | none => some 404
  | some s => if s.kind = .other then none else some 200

/-- The connection after the answer for a path. -/
def Conn.answer (fs : FileSystem) (path : Bytes) (c : Conn) : Conn :=
  { c.add (response fs path) with answered := c.answered ++ (statusCode fs path).toList }

theorem disk_stat (path : Bytes) (w : Disk) : (disk fs).stat path w = (fs.stat path, w) := rfl

theorem respond_none (he : e.Lawful) {path : Bytes} (hstat : fs.stat path = none) (c : Conn)
    (w : Disk) {fuel : ℕ} (hfuel : ((fs.content (page "404.html")).getD []).length < fuel) :
    ∃ w', respond e (disk fs) fuel path c w = .ok (c.answer fs path, w') := by
  obtain ⟨w', hw'⟩ := sendFile_disk fs he (httpSendHeaderLines e 404 (ascii "NOT FOUND")
    (getMimeType (ascii ".html")) (-1) c) w hfuel
  refine ⟨w', ?_⟩
  rw [respond, disk_stat, hstat]
  simp only [hw']
  rw [httpSendHeaderLines_lawful he, Conn.answer, response, statusCode, hstat]
  simp only [Conn.add, List.append_assoc, Option.toList_some]

theorem respond_regular (he : e.Lawful) {path : Bytes} {s : Stat} (hstat : fs.stat path = some s)
    (hkind : s.kind = .regular) (c : Conn) (w : Disk) {fuel : ℕ}
    (hfuel : ((fs.content path).getD []).length < fuel) :
    ∃ w', respond e (disk fs) fuel path c w = .ok (c.answer fs path, w') := by
  obtain ⟨w', hw'⟩ := sendFile_disk fs he (httpSendHeaderLines e 200 (ascii "OK")
    (getMimeType path) s.size c) w hfuel
  refine ⟨w', ?_⟩
  rw [respond, disk_stat, hstat]
  simp only [hkind, hw']
  rw [httpSendHeaderLines_lawful he, Conn.answer, response, statusCode, hstat]
  simp only [Conn.add, hkind, List.append_assoc, reduceCtorEq, if_false, Option.toList_some]

theorem respond_directory (he : e.Lawful) {path : Bytes} {s : Stat} (hstat : fs.stat path = some s)
    (hkind : s.kind = .directory) (c : Conn) (w : Disk) {fuel : ℕ}
    (hupper : ((fs.content (page "upper.html")).getD []).length < fuel)
    (hentries : ((fs.entries path).getD []).length < fuel)
    (hlower : ((fs.content (page "lower.html")).getD []).length < fuel) :
    ∃ w', respond e (disk fs) fuel path c w = .ok (c.answer fs path, w') := by
  obtain ⟨w₁, hw₁⟩ := sendFile_disk fs he (httpSendHeaderLines e 200 (ascii "OK")
    (getMimeType (ascii ".html")) s.size c) w hupper
  obtain ⟨w₂, hw₂⟩ := sendDir_disk fs he ((httpSendHeaderLines e 200 (ascii "OK")
    (getMimeType (ascii ".html")) s.size c).add ((fs.content (page "upper.html")).getD [])) w₁
    hentries
  rw [Conn.add_add] at hw₂
  obtain ⟨w₃, hw₃⟩ := sendFile_disk fs he ((httpSendHeaderLines e 200 (ascii "OK")
    (getMimeType (ascii ".html")) s.size c).add ((fs.content (page "upper.html")).getD [] ++
    listing fs path)) w₂ hlower
  rw [Conn.add_add] at hw₃
  refine ⟨w₃, ?_⟩
  rw [respond, disk_stat, hstat]
  simp only [hkind, hw₁, Checked.ok_bind, hw₂, hw₃]
  rw [httpSendHeaderLines_lawful he, Conn.answer, response, statusCode, hstat]
  simp only [Conn.add, hkind, List.append_assoc, reduceCtorEq, if_false, Option.toList_some]

theorem respond_other {path : Bytes} {s : Stat} (hstat : fs.stat path = some s)
    (hkind : s.kind = .other) (c : Conn) (w : Disk) (fuel : ℕ) :
    ∃ w', respond e (disk fs) fuel path c w = .ok (c.answer fs path, w') := by
  refine ⟨w, ?_⟩
  rw [respond, disk_stat, hstat]
  simp only [hkind]
  rw [Conn.answer, response, statusCode, hstat]
  simp only [Conn.add_nil, hkind, List.append_nil, if_true, Option.toList_none]

/-- **Answering.** With fuel for the files and the directory involved, the path is answered. -/
theorem respond_eventually (he : e.Lawful) (path : Bytes) : ∀ᶠ fuel in atTop, ∀ c w,
    ∃ w', respond e (disk fs) fuel path c w = .ok (c.answer fs path, w') := by
  cases hstat : fs.stat path with
  | none =>
    filter_upwards [eventually_gt_atTop ((fs.content (page "404.html")).getD []).length]
      with fuel hfuel c w
    exact respond_none fs he hstat c w hfuel
  | some s =>
    cases hkind : s.kind with
    | regular =>
      filter_upwards [eventually_gt_atTop ((fs.content path).getD []).length] with fuel hfuel c w
      exact respond_regular fs he hstat hkind c w hfuel
    | directory =>
      filter_upwards [eventually_gt_atTop ((fs.content (page "upper.html")).getD []).length,
        eventually_gt_atTop ((fs.entries path).getD []).length,
        eventually_gt_atTop ((fs.content (page "lower.html")).getD []).length]
        with fuel hupper hentries hlower c w
      exact respond_directory fs he hstat hkind c w hupper hentries hlower
    | other => exact Eventually.of_forall fun fuel c w ↦ respond_other fs hstat hkind c w fuel

end LibeventServer

end CodeOnLinux
