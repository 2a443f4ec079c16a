import CodeOnLinux.WebServer.Server
import CodeOnLinux.Pub.Draining

/-!
# The web server under debugging: `99_debg/web_server/01web_sever.c`

An earlier form of `01_webserver`, on the same `pub.c`. Its header lines are other ones and what
`send` returns for them is not looked at; the length of a file that cannot be read is passed on to
`send`; `send_dir` closes the connection behind the last entry, so the tail of the page goes to a
closed descriptor, and for a file the connection stays open. The arrays are set to zero first, and
the URL is not decoded.

The functions are embedded over a `System`: the system calls of `01_webserver`, and two more.
-/

namespace CodeOnLinux

namespace DebugServer

open Memory Stdio Pub
open WebServer (Kernel FileKind Stat Dirent Words sscanf route)

/-- The system calls of the debug server. -/
structure System (ω : Type) extends Kernel ω where
  /-- Whether `errno` is `ENOENT`. -/
  noEntry : ω → Bool
  /-- `epoll_ctl(epfd, EPOLL_CTL_DEL, ..)` -/
  epollDel : ℤ → ℤ → ω → ω

/-- `BUFSIZE` -/
def bufSize : ℕ := 128

variable {ω : Type} (k : System ω)

/-! ## Sending -/

/-- Format each text into the buffer and send it; what `send` returns is not looked at. -/
def sendLines (connfd : ℤ) : List Bytes → ω → Checked ω
  | [], w => .ok w
  | line :: lines, w => do
    let text ← sprintf bufSize line
    sendLines connfd lines (k.send connfd text w).2

def headerLines (code : ℤ) (msg fileType : Bytes) (fileSize : ℤ) : List Bytes :=
  [ascii "HTTP/1.1 " ++ formatInt code ++ ascii " " ++ msg ++ ascii "\r\n",
    ascii "Content-Type:" ++ fileType ++ ascii "\r\n",
    ascii "Content-Length:" ++ formatInt fileSize ++ ascii "\r\n",
    ascii "Connection:close\r\n",
    ascii "\r\n"]

def sendHeader (connfd code : ℤ) (msg fileType : Bytes) (fileSize : ℤ) (w : ω) : Checked ω :=
  sendLines k connfd (headerLines code msg fileType fileSize) w

/-- The `-1` of `read` is not tested for: as the length of a `send` it is larger than the buffer. -/
def sendFileLoop (connfd fd : ℤ) : ℕ → ω → Checked ω
  | 0, _ => .error .outOfFuel
  | fuel + 1, w =>
    match k.read fd 4096 w with
    | (none, _) => .error .outOfBounds
    | (some [], w) => .ok w
    | (some (b :: buf), w) =>
      let (ret, w) := k.send connfd (b :: buf) w
      if ret ≤ 0 then .ok w else sendFileLoop connfd fd fuel w

def sendFile (fuel : ℕ) (connfd : ℤ) (fileName : Bytes) (w : ω) : Checked ω := do
  let (fd, w) := k.openRead fileName w
  if fd = -1 then return w
  let w ← sendFileLoop k connfd fd fuel w
  return k.close fd w

/-- Entries of other types are left out. -/
def entryLine (d : Dirent) : Option Bytes :=
  match d.kind with
  | .regular =>
    some (ascii "<li><a href=\"" ++ d.name ++ ascii "\">" ++ d.name ++ ascii "</a></li>")
  | .directory =>
    some (ascii "<li><a href=\"" ++ d.name ++ ascii "/\">" ++ d.name ++ ascii "</a></li>")
  | .other => none

/-- The connection is closed behind the last entry, and left open where a `send` fails. -/
def sendDirLoop (connfd : ℤ) (dir : ℕ) : ℕ → ω → Checked ω
  | 0, _ => .error .outOfFuel
  | fuel + 1, w =>
    match k.readdir dir w with
    | (none, w) => .ok (k.close connfd w)
    | (some d, w) =>
      match entryLine d with
      | none => sendDirLoop connfd dir fuel w
      | some text => do
        let text ← sprintf 1024 text
        let (ret, w) := k.send connfd text w
        if ret ≤ 0 then return w else sendDirLoop connfd dir fuel w

def sendDir (fuel : ℕ) (connfd : ℤ) (fileName : Bytes) (w : ω) : Checked ω :=
  match k.opendir fileName w with
  | (some dir, w) => do
    let w ← sendDirLoop k connfd dir fuel w
    return k.closedir dir w
  | (none, w) => .ok w

/-- The title of the page is in UTF-8. -/
def dirHtmlHead : Bytes :=
  ascii "<!DOCTYPE html><html><head><title>" ++ [0xE6, 0x96, 0x87, 0xE4, 0xBB, 0xB6] ++
    ascii "</title></head><body><ul>"

def sendDirHtmlHead (connfd : ℤ) (w : ω) : Checked ω := sendLines k connfd [dirHtmlHead] w

def sendDirHtmlTail (connfd : ℤ) (w : ω) : Checked ω :=
  sendLines k connfd [ascii "</ul></body></html>"] w

/-! ## Reading the request -/

def headerLoop {σ : Type} (recv : Bool → σ → Recv × σ) (fuel : ℕ) (s : σ) : Checked σ :=
  dropLines recv bufSize fuel s

/-- `method`, `url` and `version` after `bzero`. -/
def Words.zero : Words := ⟨List.replicate 32 0, List.replicate 32 0, List.replicate 32 0⟩

def readRequest (fuel : ℕ) (connfd : ℤ) (w : ω) : Checked (Words × ω) := do
  let (_, line, w) ← getLine (k.recv connfd) (List.replicate bufSize 0) 0 bufSize w
  let w ← headerLoop (k.recv connfd) fuel w
  let line ← readStr line 0
  let words ← sscanf line Words.zero
  return (words, w)

/-! ## Answering -/

/-- From `stat` on; where it fails for another reason than `ENOENT`, nothing is sent. -/
def respond (fuel : ℕ) (epfd connfd : ℤ) (pfile : Bytes) (w : ω) : Checked ω :=
  match k.stat pfile w with
  | (none, w) =>
    if k.noEntry w then sendHeader k connfd 404 (ascii "err") (ascii ".html") (-1) w else .ok w
  | (some s, w) => do
    let w ← match s.kind with
      | .regular => do
        let w ← sendHeader k connfd 200 (ascii "ok") (getMimeType pfile) (wrapInt s.size) w
        sendFile k fuel connfd pfile w
      | .directory => do
        let w ← sendHeader k connfd 200 (ascii "ok") (ascii ".html") (-1) w
        let w ← sendDirHtmlHead k connfd w
        let w ← sendDir k fuel connfd pfile w
        sendDirHtmlTail k connfd w
      | .other => .ok w
    return k.epollDel epfd connfd w

/-- The path is chosen as in `01_webserver`. -/
def httpRequest (fuel : ℕ) (epfd connfd : ℤ) (w : ω) : Checked ω := do
  let (words, w) ← readRequest k fuel connfd w
  match ← route words with
  | none => return w
  | some pfile => respond k fuel epfd connfd pfile w

end DebugServer

end CodeOnLinux
