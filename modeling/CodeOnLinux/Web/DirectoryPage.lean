import CodeOnLinux.Web.DeclaredLength
import CodeOnLinux.Web.Tokens

/-!
# The page for a directory

`http_request` of `99_debg` sends a page for a directory in three parts: a head, one link for each
entry that is a file or a directory, and a tail. The part in the middle, `send_dir`, closes the
connection when it has read the last entry. So the tail is sent to a descriptor that is closed, and
`epoll_ctl` is called with it, whatever the directory holds (`not_deliversPage`). In `01_webserver`
it is `http_request` that closes the connection, behind the third part
(`WebServer.respond_directory`).

`watched` is the file system and the connection of `01_webserver`, where nothing can be done on a
connection that is closed, with a record of what is tried.
-/

namespace CodeOnLinux

namespace Web

open Memory Stdio Pub Lines Filter
open WebServer (FileSystem World Sent Stat Dirent kernel route sscanf)

/-! ## A connection that can be closed -/

/-- What can be done on a connection. -/
inductive Operation
  | recv
  | send (text : Bytes)
  | read
  | close
  | epollDel
  deriving DecidableEq

/-- A connection that is watched beyond its end. -/
structure Watched where
  /-- The world of the connection. -/
  world : World
  /-- What was done on it after it was closed. -/
  late : List Operation

/-- A system call with the descriptor `fd`. Where this is the connection, and it has been closed,
the call fails. -/
def operate {α : Type} (connfd : ℕ) (fd : ℤ) (op : Operation) (failure : α)
    (act : World → α × World) (w : Watched) : α × Watched :=
  if fd = connfd ∧ w.world.closed then (failure, { w with late := w.late ++ [op] })
  else Prod.map id (fun world ↦ { w with world }) (act w.world)

/-- A system call without a descriptor, or with that of a directory. -/
def elsewhere {α : Type} (act : World → α × World) (w : Watched) : α × Watched :=
  Prod.map id (fun world ↦ { w with world }) (act w.world)

variable (fs : FileSystem) (connfd : ℕ) (atEnd : Recv)

/-- What has arrived on the connection is read, and then `atEnd`. -/
def watched : DebugServer.System Watched where
  recv fd peek := operate connfd fd .recv .failed fun world ↦
    Prod.map id (fun s ↦ { world with input := s }) (streamRecv atEnd peek world.input)
  send fd text := operate connfd fd (.send text) (-1) ((kernel fs connfd).send fd text)
  stat path := elsewhere ((kernel fs connfd).stat path)
  openRead path := elsewhere ((kernel fs connfd).openRead path)
  read fd n := operate connfd fd .read none ((kernel fs connfd).read fd n)
  close fd w :=
    (operate connfd fd .close () (fun world ↦ ((), (kernel fs connfd).close fd world)) w).2
  opendir path := elsewhere ((kernel fs connfd).opendir path)
  readdir dir := elsewhere ((kernel fs connfd).readdir dir)
  closedir dir w := { w with world := (kernel fs connfd).closedir dir w.world }
  noEntry _ := true
  epollDel _ fd w := (operate connfd fd .epollDel () (fun world ↦ ((), world)) w).2

section

variable {α : Type} {connfd} {op : Operation} {failure : α} {act : World → α × World} {w : Watched}

theorem operate_of_open (hopen : w.world.closed = false) (fd : ℤ) :
    operate connfd fd op failure act w = elsewhere act w := by
  rw [operate, hopen, if_neg fun h ↦ Bool.false_ne_true h.2, elsewhere]

theorem operate_of_closed (hclosed : w.world.closed = true) :
    operate connfd connfd op failure act w = (failure, { w with late := w.late ++ [op] }) := by
  rw [operate, if_pos ⟨rfl, hclosed⟩]

end

/-! ## Sending -/

section

variable {fs connfd atEnd} {w : Watched} {lines : List Bytes}

theorem watched_recv (hopen : w.world.closed = false) (peek : Bool) (input : Bytes) :
    (watched fs connfd atEnd).recv connfd peek
      { w with world := { w.world with input := input } } =
        Prod.map id (fun input ↦ { w with world := { w.world with input := input } })
          (streamRecv atEnd peek input) := by
  have hrecv : (watched fs connfd atEnd).recv connfd peek
      { w with world := { w.world with input := input } } =
        operate connfd connfd .recv .failed (fun world ↦
          Prod.map id (fun s ↦ { world with input := s }) (streamRecv atEnd peek world.input))
          { w with world := { w.world with input := input } } := rfl
  rw [hrecv, operate_of_open ?_, elsewhere, Prod.map_map]
  · rfl
  · exact hopen

theorem watched_send (hopen : w.world.closed = false) (text : Bytes) :
    (watched fs connfd atEnd).send connfd text w =
      ((text.length : ℤ), { w with world := { w.world with output := w.world.output ++ text } }) :=
  operate_of_open hopen connfd

theorem watched_close (hopen : w.world.closed = false) :
    (watched fs connfd atEnd).close connfd w =
      { w with world := { w.world with closed := true } } := by
  have hclose : (watched fs connfd atEnd).close connfd w =
      (operate connfd connfd .close ()
        (fun world ↦ ((), (kernel fs connfd).close connfd world)) w).2 := rfl
  rw [hclose, operate_of_open hopen]
  simp only [elsewhere, WebServer.kernel_close, Prod.map]

theorem watched_epollDel (hclosed : w.world.closed = true) (epfd : ℤ) :
    (watched fs connfd atEnd).epollDel epfd connfd w =
      { w with late := w.late ++ [.epollDel] } :=
  congrArg Prod.snd (operate_of_closed hclosed)

/-- On a connection that is open the texts arrive. -/
theorem sendLines_open (hopen : w.world.closed = false)
    (hlines : ∀ l ∈ lines, l.length < DebugServer.bufSize) :
    DebugServer.sendLines (watched fs connfd atEnd) connfd lines w = .ok
      { w with world := { w.world with output := w.world.output ++ lines.flatMap cString } } := by
  induction lines generalizing w with
  | nil => rw [List.flatMap_nil, List.append_nil, DebugServer.sendLines]
  | cons line lines ih =>
    obtain ⟨hline, hlines⟩ := List.forall_mem_cons.mp hlines
    rw [DebugServer.sendLines, sprintf_ok hline, Checked.ok_bind, watched_send hopen,
      ih (by exact hopen) hlines, List.flatMap_cons, List.append_assoc]

/-- On one that is closed they do not, and this goes unnoticed. -/
theorem sendLines_closed (hclosed : w.world.closed = true)
    (hlines : ∀ l ∈ lines, l.length < DebugServer.bufSize) :
    DebugServer.sendLines (watched fs connfd atEnd) connfd lines w = .ok
      { w with late := w.late ++ lines.map fun l ↦ .send (cString l) } := by
  induction lines generalizing w with
  | nil => rw [List.map_nil, List.append_nil, DebugServer.sendLines]
  | cons line lines ih =>
    obtain ⟨hline, hlines⟩ := List.forall_mem_cons.mp hlines
    have hsend : (watched fs connfd atEnd).send connfd (cString line) w =
        (-1, { w with late := w.late ++ [.send (cString line)] }) := operate_of_closed hclosed
    rw [DebugServer.sendLines, sprintf_ok hline, Checked.ok_bind, hsend,
      ih (by exact hclosed) hlines, List.map_cons, List.append_assoc, List.singleton_append]

/-! ## The three parts -/

/-- One link for each file and each directory, in the order of `readdir`. -/
def links (entries : List Dirent) : Bytes :=
  (entries.filterMap DebugServer.entryLine).flatMap cString

def dirHtmlTail : Bytes := ascii "</ul></body></html>"

theorem entryLine_fits {d : Dirent} {text : Bytes} (hname : d.name.length ≤ 255)
    (h : DebugServer.entryLine d = some text) : text.length < 1024 ∧ 0 < (cString text).length := by
  have hascii : (ascii "<li><a href=\"").length = 13 ∧ (ascii "\">").length = 2 ∧
      (ascii "/\">").length = 3 ∧ (ascii "</a></li>").length = 9 := by decide
  have hpos : ∀ rest, 0 < (cString (ascii "<li><a href=\"" ++ rest)).length := fun rest ↦
    Nat.succ_pos _
  rw [DebugServer.entryLine] at h
  split at h
  · obtain rfl := Option.some_inj.mp h
    refine ⟨?_, ?_⟩
    · simp only [List.length_append]
      omega
    · simp only [List.append_assoc]
      exact hpos _
  · obtain rfl := Option.some_inj.mp h
    refine ⟨?_, ?_⟩
    · simp only [List.length_append]
      omega
    · simp only [List.append_assoc]
      exact hpos _
  · cases h

/-- **The links** are sent, each of them whole, and then the connection is closed. -/
theorem sendDirLoop_open {fuel : ℕ} (hopen : w.world.closed = false)
    (hfuel : w.world.dir.length < fuel) (hnames : ∀ d ∈ w.world.dir, d.name.length ≤ 255) :
    DebugServer.sendDirLoop (watched fs connfd atEnd) connfd 0 fuel w = .ok
      { w with world := { w.world with
          output := w.world.output ++ links w.world.dir, dir := [], closed := true } } := by
  induction fuel generalizing w with
  | zero => exact absurd hfuel (Nat.not_lt_zero _)
  | succ fuel ih =>
    rw [DebugServer.sendDirLoop]
    cases hdir : w.world.dir with
    | nil =>
      have hread : (watched fs connfd atEnd).readdir 0 w = (none, w) := by
        simp only [watched, elsewhere, kernel, hdir]
        rfl
      have hlinks : links [] = [] := rfl
      simp only [hread, watched_close hopen, hlinks, List.append_nil]
      rw [hdir]
    | cons d dir =>
      have hread : (watched fs connfd atEnd).readdir 0 w =
          (some d, { w with world := { w.world with dir := dir } }) := by
        simp only [watched, elsewhere, kernel, hdir]
        rfl
      rw [hdir] at hfuel hnames
      obtain ⟨hname, hnames⟩ := List.forall_mem_cons.mp hnames
      have hfuel := Nat.lt_of_succ_lt_succ hfuel
      simp only [hread, links]
      cases hentry : DebugServer.entryLine d with
      | none =>
        -- the entry is of another type
        simp only [List.filterMap_cons_none hentry]
        exact ih (w := { w with world := { w.world with dir := dir } }) hopen hfuel hnames
      | some text =>
        obtain ⟨hfits, hpos⟩ := entryLine_fits hname hentry
        have hsent : ¬((cString text).length : ℤ) ≤ 0 := by omega
        have hsend : (watched fs connfd atEnd).send connfd (cString text)
            { w with world := { w.world with dir := dir } } =
              (((cString text).length : ℤ), { w with world := { w.world with
                dir := dir, output := w.world.output ++ cString text } }) :=
          watched_send (w := { w with world := { w.world with dir := dir } }) hopen _
        simp only [sprintf_ok hfits, Checked.ok_bind, hsend, if_neg hsent,
          List.filterMap_cons_some hentry, List.flatMap_cons, ← List.append_assoc]
        exact ih (w := { w with world := { w.world with
          dir := dir, output := w.world.output ++ cString text } }) hopen hfuel hnames

theorem sendDir_open {fuel : ℕ} {path : Bytes} {entries : List Dirent}
    (hentries : fs.entries path = some entries) (hopen : w.world.closed = false)
    (hfuel : entries.length < fuel) :
    DebugServer.sendDir (watched fs connfd atEnd) fuel connfd path w = .ok
      { w with world := { w.world with
          output := w.world.output ++ links entries, dir := [], closed := true } } := by
  have hopendir : (watched fs connfd atEnd).opendir path w =
      (some 0, { w with world := { w.world with dir := entries } }) := by
    simp only [watched, elsewhere, kernel, hentries]
    rfl
  have hloop : DebugServer.sendDirLoop (watched fs connfd atEnd) connfd 0 fuel
      { w with world := { w.world with dir := entries } } = .ok
        { w with world := { w.world with
            output := w.world.output ++ links entries, dir := [], closed := true } } :=
    sendDirLoop_open (w := { w with world := { w.world with dir := entries } }) hopen hfuel
      (fs.name_le path entries hentries)
  rw [DebugServer.sendDir, hopendir]
  simp only [hloop, Checked.ok_bind]
  rfl

/-- What is sent in front of the page. -/
def pageHeader : Bytes :=
  (DebugServer.headerLines 200 (ascii "ok") (ascii ".html") (-1)).flatMap cString

/-- **The answer for a directory.** The head and the links are sent. The tail is not: the connection
is closed by then, as it is when it is taken out of the `epoll` set. -/
theorem respond_directory {fuel : ℕ} {path : Bytes} {s : Stat} {entries : List Dirent}
    (hstat : fs.stat path = some s) (hkind : s.kind = .directory)
    (hentries : fs.entries path = some entries) (hopen : w.world.closed = false)
    (hfuel : entries.length < fuel) (epfd : ℤ) :
    DebugServer.respond (watched fs connfd atEnd) fuel epfd connfd path w = .ok
      { world := { w.world with
          looked := w.world.looked ++ [path]
          output := w.world.output ++ (pageHeader ++ (DebugServer.dirHtmlHead ++ links entries))
          dir := []
          closed := true }
        late := w.late ++ [.send dirHtmlTail, .epollDel] } := by
  have hheader : ∀ l ∈ DebugServer.headerLines 200 (ascii "ok") (ascii ".html") (-1),
      l.length < DebugServer.bufSize :=
    debugServer_headerLines_lt (by decide) (by decide) (by decide) (by decide)
  have hhead : ∀ l ∈ [DebugServer.dirHtmlHead], l.length < DebugServer.bufSize := by decide +kernel
  have htail : ∀ l ∈ [dirHtmlTail], l.length < DebugServer.bufSize := by decide +kernel
  have hheadText : [DebugServer.dirHtmlHead].flatMap cString = DebugServer.dirHtmlHead := by
    decide +kernel
  have htailText : cString dirHtmlTail = dirHtmlTail := by decide +kernel
  have hstat' : (watched fs connfd atEnd).stat path w =
      (some s, { w with world := { w.world with looked := w.world.looked ++ [path] } }) := by
    simp only [watched, elsewhere, kernel, hstat]
    rfl
  rw [DebugServer.respond, hstat']
  simp only [hkind]
  rw [DebugServer.sendHeader, sendLines_open ?_ hheader, Checked.ok_bind,
    DebugServer.sendDirHtmlHead, sendLines_open ?_ hhead, Checked.ok_bind,
    sendDir_open hentries ?_ hfuel, Checked.ok_bind, DebugServer.sendDirHtmlTail, ← dirHtmlTail,
    sendLines_closed rfl htail, Checked.ok_bind, watched_epollDel rfl]
  · simp only [hheadText, htailText, List.map_cons, List.map_nil, List.append_assoc,
      List.singleton_append, Checked.pure_eq_ok, pageHeader]
  · exact hopen
  · exact hopen
  · exact hopen

end

/-! ## The request -/

/-- The path that `http_request` takes from a line. -/
def debugServerLookup (line : Bytes) : Checked (Option Bytes) := do
  let words ← sscanf (cString line) DebugServer.Words.zero
  route words

/-- The request is read up to its end, and its first line is answered. -/
theorem debugServer_httpRequest {ω : Type} {k : DebugServer.System ω} {connfd : ℤ} {f : Bytes → ω}
    {atEnd : Recv} (hend : atEnd.Ends)
    (hf : ∀ peek s, k.recv connfd peek (f s) = Prod.map id f (streamRecv atEnd peek s))
    {fuel : ℕ} {s pfile : Bytes} (hfuel : s.length < fuel)
    (hlookup : debugServerLookup (takeLine 127 s).1 = .ok (some pfile)) (epfd : ℤ) :
    DebugServer.httpRequest k fuel epfd connfd (f s) =
      DebugServer.respond k fuel epfd connfd pfile (f []) := by
  obtain ⟨words, hwords, hroute⟩ := Checked.bind_eq_ok.mp hlookup
  have hscan : debugServerScan (streamRecv atEnd) fuel s = .ok (words, []) := by
    rw [debugServerScan_stream hend hfuel, hwords, Checked.ok_bind, Checked.pure_eq_ok]
  have hread : DebugServer.readRequest k fuel connfd (f s) = .ok (words, f []) := by
    rw [debugServer_readRequest_eq, debugServerScan_map hf, hscan]
    rfl
  rw [DebugServer.httpRequest, hread, Checked.ok_bind]
  simp only [hroute, Checked.ok_bind]

variable (epfd : ℤ) (w : Watched) (entries : List Dirent)

/-- The request is answered with the whole page for a directory with these entries, and the
connection is not used once it is closed. -/
def DeliversPage : Prop :=
  ∀ᶠ fuel in atTop, ∃ w',
    DebugServer.httpRequest (watched fs connfd atEnd) fuel epfd connfd w = .ok w' ∧
      w'.world.output = w.world.output ++
        (pageHeader ++ (DebugServer.dirHtmlHead ++ links entries ++ dirHtmlTail)) ∧
      w'.late = w.late

/-- The request is answered without the tail, which is sent when the connection is closed. -/
def DeliversFront : Prop :=
  ∀ᶠ fuel in atTop, ∃ w',
    DebugServer.httpRequest (watched fs connfd atEnd) fuel epfd connfd w = .ok w' ∧
      w'.world.output = w.world.output ++
        (pageHeader ++ (DebugServer.dirHtmlHead ++ links entries)) ∧
      w'.late = w.late ++ [.send dirHtmlTail, .epollDel]

/-- Every request for a directory that can be opened is answered with the whole page. -/
def DeliversPages (fs : FileSystem) (connfd : ℕ) : Prop :=
  ∀ {atEnd : Recv}, atEnd.Ends → ∀ (epfd : ℤ) (w : Watched), w.world.closed = false →
    ∀ {path : Bytes} {s : Stat} {entries : List Dirent},
      debugServerLookup (takeLine 127 w.world.input).1 = .ok (some path) →
      fs.stat path = some s → s.kind = .directory → fs.entries path = some entries →
      DeliversPage fs connfd atEnd epfd w entries

variable {fs connfd atEnd epfd w entries}

/-- The two exclude each other. -/
theorem not_deliversPage_of_front (h : DeliversFront fs connfd atEnd epfd w entries) :
    ¬DeliversPage fs connfd atEnd epfd w entries := by
  intro hpage
  obtain ⟨fuel, ⟨w₁, hw₁, -, hlate₁⟩, w₂, hw₂, -, hlate₂⟩ := (h.and hpage).exists
  obtain rfl := Except.ok.inj (hw₁.symm.trans hw₂)
  have hlen := congrArg List.length (hlate₁.symm.trans hlate₂)
  rw [List.length_append] at hlen
  exact absurd hlen (by simp)

theorem deliversFront (hend : atEnd.Ends) (hopen : w.world.closed = false) {path : Bytes} {s : Stat}
    (hlookup : debugServerLookup (takeLine 127 w.world.input).1 = .ok (some path))
    (hstat : fs.stat path = some s) (hkind : s.kind = .directory)
    (hentries : fs.entries path = some entries) :
    DeliversFront fs connfd atEnd epfd w entries := by
  filter_upwards [eventually_gt_atTop w.world.input.length, eventually_gt_atTop entries.length]
    with fuel hinput hfuel
  have hrequest : DebugServer.httpRequest (watched fs connfd atEnd) fuel epfd connfd w =
      DebugServer.respond (watched fs connfd atEnd) fuel epfd connfd path
        { w with world := { w.world with input := [] } } :=
    debugServer_httpRequest hend (watched_recv hopen) hinput hlookup epfd
  rw [respond_directory hstat hkind hentries ?_ hfuel] at hrequest
  · exact ⟨_, hrequest, rfl, rfl⟩
  · exact hopen

/-- **The page for a directory** is never delivered whole. For every directory that can be opened,
what arrives behind the header is the head and the links; the tail is sent, and the connection is
taken out of the `epoll` set, when it is closed. -/
theorem not_deliversPage (hend : atEnd.Ends) (hopen : w.world.closed = false) {path : Bytes}
    {s : Stat} (hlookup : debugServerLookup (takeLine 127 w.world.input).1 = .ok (some path))
    (hstat : fs.stat path = some s) (hkind : s.kind = .directory)
    (hentries : fs.entries path = some entries) :
    DeliversFront fs connfd atEnd epfd w entries ∧
      ¬DeliversPage fs connfd atEnd epfd w entries := by
  have hfront : DeliversFront fs connfd atEnd epfd w entries :=
    deliversFront hend hopen hlookup hstat hkind hentries
  exact ⟨hfront, not_deliversPage_of_front hfront⟩

/-- The directory that the server starts in, with a file, a directory and something else. -/
def startEntries : List Dirent :=
  [⟨.regular, ascii "a.c"⟩, ⟨.directory, ascii "sub"⟩, ⟨.other, ascii "pipe"⟩]

def startSite : FileSystem where
  stat path := if path = ascii "./" then some ⟨.directory, 4096⟩ else none
  content _ := none
  entries path := if path = ascii "./" then some startEntries else none
  name_le path l hl := by
    have hnames : ∀ d ∈ startEntries, d.name.length ≤ 255 := by decide
    split at hl
    · exact Option.some_inj.mp hl ▸ hnames
    · cases hl

/-- A connection on which `GET / HTTP/1.1` has arrived. -/
def rootRequest : Watched :=
  ⟨{ WebServer.World.start with input := ascii "GET / HTTP/1.1\r\n\r\n" }, []⟩

theorem lookup_rootRequest :
    debugServerLookup (takeLine 127 rootRequest.world.input).1 = .ok (some (ascii "./")) := by
  decide +kernel

theorem startSite_stat : startSite.stat (ascii "./") = some ⟨.directory, 4096⟩ := by
  simp only [startSite, if_true]

theorem startSite_entries : startSite.entries (ascii "./") = some startEntries := by
  simp only [startSite, if_true]

theorem not_deliversPage_root :
    DeliversFront startSite 5 .closed 3 rootRequest startEntries ∧
      ¬DeliversPage startSite 5 .closed 3 rootRequest startEntries :=
  not_deliversPage Recv.ends_closed rfl lookup_rootRequest startSite_stat rfl startSite_entries

theorem not_deliversPages : ¬DeliversPages startSite 5 := by
  intro h
  have hpage := h Recv.ends_closed 3 rootRequest rfl lookup_rootRequest startSite_stat rfl
    startSite_entries
  refine not_deliversPage_of_front ?_ hpage
  exact deliversFront Recv.ends_closed rfl lookup_rootRequest startSite_stat rfl startSite_entries

end Web

end CodeOnLinux
