import CodeOnLinux.Foundation.Stdio
import CodeOnLinux.Pub.GetLine
import CodeOnLinux.Pub.Mime
import CodeOnLinux.Pub.Url

/-!
# The web server on `epoll`: `01_webserver/server.c`

The functions of the server are embedded over a `Kernel`: the system calls they make, each a
function of the state `ω` of everything outside the process. The loops that need not end (reading
headers, copying a file, listing a directory) take `fuel`.

The local arrays of `http_request` are not initialised; what they hold when it is called is a
`Stack`. Where the source prints for debugging, or ignores a result, the embedding is silent.
`http_request` is divided into reading (`readRequest`), choosing the path (`route`) and answering
(`respond`), in the order of the source.
-/

namespace CodeOnLinux

namespace WebServer

open Memory Stdio Pub

/-! ## The system -/

inductive FileKind
  | regular
  | directory
  | other
  deriving DecidableEq

/-- What `stat` tells of a path. -/
structure Stat where
  /-- `S_ISREG` and `S_ISDIR` of `st_mode`. -/
  kind : FileKind
  /-- `st_size` -/
  size : ℤ

/-- An entry of a directory. -/
structure Dirent where
  /-- `d_type` -/
  kind : FileKind
  /-- `d_name` -/
  name : Bytes

/-- The system calls of the server. -/
structure Kernel (ω : Type) where
  /-- `recv`, with `MSG_PEEK` or without; `Recv.failed` is `-1`. -/
  recv : ℤ → Bool → ω → Recv × ω
  /-- `send` -/
  send : ℤ → Bytes → ω → ℤ × ω
  /-- `stat`; `none` is `-1`. -/
  stat : Bytes → ω → Option Stat × ω
  /-- `open(path, O_RDONLY)` -/
  openRead : Bytes → ω → ℤ × ω
  /-- `read`; `none` is `-1`. -/
  read : ℤ → ℕ → ω → Option Bytes × ω
  /-- `close` -/
  close : ℤ → ω → ω
  /-- `opendir`; `none` is the null pointer. -/
  opendir : Bytes → ω → Option ℕ × ω
  /-- `readdir`; `none` is the null pointer. -/
  readdir : ℕ → ω → Option Dirent × ω
  /-- `closedir` -/
  closedir : ℕ → ω → ω

/-- `MAXSIZE` -/
def maxSize : ℕ := 4096

variable {ω : Type} (k : Kernel ω)

/-! ## Sending -/

/-- Format each text into the buffer and send it; `1` after the first `send` that returns `-1`. -/
def sendLines (connfd : ℤ) : List Bytes → ω → Checked (ℤ × ω)
  | [], w => .ok (0, w)
  | line :: lines, w => do
    let text ← sprintf maxSize line
    let (ret, w) := k.send connfd text w
    if ret = -1 then return (1, w) else sendLines connfd lines w

def headerLines (code : ℤ) (status fileType : Bytes) (fileLength : ℤ) : List Bytes :=
  [ascii "HTTP1.1 " ++ formatInt code ++ ascii " " ++ status ++ ascii "\r\n",
    ascii "Content-Type: " ++ fileType ++ ascii "\r\n",
    ascii "Content-Length " ++ formatInt fileLength ++ ascii "\r\n",
    ascii "Connection: close\r\n",
    ascii "\r\n"]

def sendHeader (connfd code : ℤ) (status fileType : Bytes) (fileLength : ℤ) (w : ω) :
    Checked (ℤ × ω) :=
  sendLines k connfd (headerLines code status fileType fileLength) w

def sendFileLoop (connfd fd : ℤ) : ℕ → ω → Checked ω
  | 0, _ => .error .outOfFuel
  | fuel + 1, w =>
    match k.read fd maxSize w with
    | (some (b :: buffer), w) =>
      let (ret, w) := k.send connfd (b :: buffer) w
      if ret ≤ 0 then .ok w else sendFileLoop connfd fd fuel w
    | (_, w) => .ok w

/-- Where `open` fails the loop still reads, from the descriptor `-1`. -/
def sendFile (fuel : ℕ) (connfd : ℤ) (fileName : Bytes) (w : ω) : Checked (ℤ × ω) := do
  let (fd, w) := k.openRead fileName w
  let w ← sendFileLoop k connfd fd fuel w
  return (0, k.close fd w)

/-- The link for a directory entry; entries of other types get an empty text. -/
def entryLine (d : Dirent) : Bytes :=
  match d.kind with
  | .regular =>
    ascii "<li><a href = '" ++ d.name ++ ascii "'> " ++ d.name ++ ascii "</a></li>"
  | .directory =>
    ascii "<li><a href = '" ++ d.name ++ ascii "/'> " ++ d.name ++ ascii "</a></li>"
  | .other => []

def sendDirLoop (connfd : ℤ) (dir : ℕ) : ℕ → ω → Checked ω
  | 0, _ => .error .outOfFuel
  | fuel + 1, w =>
    match k.readdir dir w with
    | (some d, w) => do
      let text ← sprintf maxSize (entryLine d)
      sendDirLoop connfd dir fuel (k.send connfd text w).2
    | (none, w) => .ok w

def sendDir (fuel : ℕ) (connfd : ℤ) (fileName : Bytes) (w : ω) : Checked (ℤ × ω) :=
  match k.opendir fileName w with
  | (some dir, w) => do
    let w ← sendDirLoop k connfd dir fuel w
    return (0, k.closedir dir w)
  | (none, w) => .ok (1, w)

/-! ## Reading the request -/

/-- The arrays that `sscanf(str, "%s %s %s\r\n", method, url, version)` fills. -/
structure Words where
  /-- `method` -/
  method : Bytes
  /-- `url` -/
  url : Bytes
  /-- `version` -/
  version : Bytes

/-- A word is stored with a NUL behind it; what is not there is left as it is. -/
def sscanf (line : Bytes) (a : Words) : Checked Words :=
  match scanWord line with
  | none => .ok a
  | some (word, line) => do
    let method ← storeAll a.method 0 (word ++ [0])
    match scanWord line with
    | none => return { a with method }
    | some (word, line) => do
      let url ← storeAll a.url 0 (word ++ [0])
      match scanWord line with
      | none => return { a with method, url }
      | some (word, _) => do
        let version ← storeAll a.version 0 (word ++ [0])
        return { method, url, version }

/-- What the arrays of `http_request` hold when it is called. -/
structure Stack where
  /-- `str` -/
  str : Bytes
  /-- The arrays for the words. -/
  words : Words
  /-- `char str[MAXSIZE]` -/
  length_str : str.length = maxSize
  /-- `char method[32]` -/
  length_method : words.method.length = 32
  /-- `char url[1024]` -/
  length_url : words.url.length = 1024
  /-- `char version[32]` -/
  length_version : words.version.length = 32

/-- The loop that reads and drops lines until `get_line` returns no more. -/
def headerLoop {σ : Type} (recv : Bool → σ → Recv × σ) : ℕ → σ → Checked σ
  | 0, _ => .error .outOfFuel
  | fuel + 1, s => do
    let (ret, _, s) ← getLine recv (List.replicate maxSize 0) 0 maxSize s
    if ret ≤ 0 then return s else headerLoop recv fuel s

/-- `get_line` does not return `-1`, so the test for it in the source is never true. -/
def readRequest (fuel : ℕ) (connfd : ℤ) (stack : Stack) (w : ω) : Checked (Words × ω) := do
  let (_, str, w) ← getLine (k.recv connfd) stack.str 0 maxSize w
  let line ← readStr str 0
  let words ← sscanf line stack.words
  let url ← strdecode words.url 0 0
  let w ← headerLoop (k.recv connfd) fuel w
  return ({ words with url }, w)

/-! ## Answering -/

/-- `pfile`, or `none` where the method is refused. -/
def route (a : Words) : Checked (Option Bytes) :=
  if a.method.take 3 ≠ ascii "GET" then .ok none
  else if a.url.take 2 = ascii "/" ++ [0] then .ok (some (ascii "./"))
  else do
    let pfile ← readStr a.url 1
    return some pfile

/-- The pages are kept in the sources, below the directory the server starts in. -/
def page (name : String) : Bytes :=
  ascii "./01_Lessons/02_Linux_Net_Programming/07_Day16/01_webserver/" ++ ascii name

/-- `st_size` is converted to the `int` that `send_header` takes. -/
def respond (fuel : ℕ) (connfd : ℤ) (pfile : Bytes) (w : ω) : Checked (ℤ × ω) :=
  match k.stat pfile w with
  | (none, w) => do
    let (_, w) ← sendHeader k connfd 404 (ascii "NOT FOUND") (ascii ".html") (-1) w
    let (_, w) ← sendFile k fuel connfd (page "404.html") w
    return (1, w)
  | (some s, w) =>
    match s.kind with
    | .regular => do
      let (_, w) ← sendHeader k connfd 200 (ascii "OK") (getMimeType pfile) (wrapInt s.size) w
      let (_, w) ← sendFile k fuel connfd pfile w
      return (0, k.close connfd w)
    | .directory => do
      let (_, w) ← sendHeader k connfd 200 (ascii "OK") (ascii "*.html") (-1) w
      let (_, w) ← sendFile k fuel connfd (page "upper.html") w
      let (_, w) ← sendDir k fuel connfd pfile w
      let (_, w) ← sendFile k fuel connfd (page "lower.html") w
      return (0, k.close connfd w)
    | .other => .ok (0, w)

def httpRequest (fuel : ℕ) (connfd : ℤ) (stack : Stack) (w : ω) : Checked (ℤ × ω) := do
  let (words, w) ← readRequest k fuel connfd stack w
  match ← route words with
  | none => return (1, w)
  | some pfile => respond k fuel connfd pfile w

end WebServer

end CodeOnLinux
