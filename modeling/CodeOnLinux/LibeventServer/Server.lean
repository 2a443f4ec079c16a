import CodeOnLinux.WebServer.Words
import CodeOnLinux.Pub.Mime
import CodeOnLinux.Pub.Url

/-!
# The web server on libevent: `02_Libevent_Server/server.c`

Libevent reads the socket into the input buffer of a connection and calls `bev_read_cb`; what the
callback adds to the output buffer is sent. An `Evbuffer` stands for the library: its calls on a
buffer, which is given by the bytes it holds. `Evbuffer.Lawful` is what its documentation promises
while there is memory. The files are reached through a `Kernel`, as in `01_webserver`, and the loops
take `fuel`.

The arrays of `bev_read_cb` are not initialised and hold a `Stack`. The test for the method `GET`
only prints, so it leaves no trace here.
-/

namespace CodeOnLinux

namespace LibeventServer

open Memory Stdio Pub Lines
open WebServer (FileKind Stat Dirent Words sscanf)

/-! ## Libevent and the system -/

/-- The functions of libevent that work on a buffer. They return their result and what is in the
buffer then. -/
structure Evbuffer where
  /-- `evbuffer_readln` with `EVBUFFER_EOL_CRLF_STRICT`: a line without its CRLF, or `none` for
  NULL. -/
  readln : Bytes → Option Bytes × Bytes
  /-- `evbuffer_add` -/
  add : Bytes → Bytes → ℤ × Bytes
  /-- `evbuffer_add_printf`, which is given the formatted text here. -/
  addPrintf : Bytes → Bytes → ℤ × Bytes

/-- What libevent documents. -/
structure Evbuffer.Lawful (e : Evbuffer) : Prop where
  /-- The first line that ends in CRLF is removed and returned. -/
  readln_some : ∀ buf line rest, takeCrlf buf = some (line, rest) → e.readln buf = (some line, rest)
  /-- Without such a line nothing is removed. -/
  readln_none : ∀ buf, takeCrlf buf = none → e.readln buf = (none, buf)
  /-- Adding appends. -/
  add_eq : ∀ buf data, e.add buf data = (0, buf ++ data)
  /-- So does printing, which returns the number of bytes. -/
  addPrintf_eq : ∀ buf text, e.addPrintf buf text = ((text.length : ℤ), buf ++ text)

/-- The system calls of the callbacks. Directories are not closed. -/
structure Kernel (ω : Type) where
  /-- `stat`; `none` is `-1`. -/
  stat : Bytes → ω → Option Stat × ω
  /-- `open(path, O_RDONLY)` -/
  openRead : Bytes → ω → ℤ × ω
  /-- `read`; `none` is `-1`. -/
  read : ℤ → ℕ → ω → Option Bytes × ω
  /-- `close` -/
  close : ℤ → ω → ω
  /-- `opendir`; `none` is the null pointer. -/
  opendir : Bytes → ω → Option ℕ × ω
  /-- `readdir`; `none` is the null pointer. -/
  readdir : ℕ → ω → Option Dirent × ω

/-- A connection. -/
structure Conn where
  /-- The input buffer. -/
  input : Bytes
  /-- The output buffer. -/
  output : Bytes
  /-- Not in the source: the codes of the status lines that were added to the output, in their
  order. -/
  answered : List ℤ

/-- `SIZE` -/
def size : ℕ := 4096

variable {ω : Type} (e : Evbuffer) (k : Kernel ω)

/-! ## Adding to the output -/

/-- Entries of other types are left out. -/
def entryLine (d : Dirent) : Option Bytes :=
  match d.kind with
  | .directory =>
    some (ascii "<li><a href = '" ++ d.name ++ ascii "/'>" ++ d.name ++ ascii "</a></li>")
  | .regular =>
    some (ascii "<li><a href = '" ++ d.name ++ ascii "'>" ++ d.name ++ ascii "</a></li>")
  | .other => none

def sendDirLoop (dir : ℕ) : ℕ → Conn → ω → Checked (Conn × ω)
  | 0, _, _ => .error .outOfFuel
  | fuel + 1, c, w =>
    match k.readdir dir w with
    | (some d, w) =>
      match entryLine d with
      | some text => sendDirLoop dir fuel { c with output := (e.addPrintf c.output text).2 } w
      | none => sendDirLoop dir fuel c w
    | (none, w) => .ok (c, w)

def sendDir (fuel : ℕ) (fileName : Bytes) (c : Conn) (w : ω) : Checked (Conn × ω) :=
  match k.opendir fileName w with
  | (some dir, w) => sendDirLoop e k dir fuel c w
  | (none, w) => .ok (c, w)

def sendFileLoop (fd : ℤ) : ℕ → Conn → ω → Checked (Conn × ω)
  | 0, _, _ => .error .outOfFuel
  | fuel + 1, c, w =>
    match k.read fd size w with
    | (some (b :: buffer), w) =>
      let (ret, output) := e.add c.output (b :: buffer)
      if ret ≠ 0 then .ok ({ c with output }, w) else sendFileLoop fd fuel { c with output } w
    | (_, w) => .ok (c, w)

def sendFile (fuel : ℕ) (fileName : Bytes) (c : Conn) (w : ω) : Checked (Conn × ω) := do
  let (fd, w) := k.openRead fileName w
  if fd = -1 then return (c, w)
  let (c, w) ← sendFileLoop e k fd fuel c w
  return (c, k.close fd w)

/-- Add each text; stop after the first call that returns `-1`. -/
def addLines : List Bytes → Bytes → Bytes
  | [], outbuf => outbuf
  | line :: lines, outbuf =>
    let (ret, outbuf) := e.addPrintf outbuf line
    if ret = -1 then outbuf else addLines lines outbuf

def statusLine (code : ℤ) (status : Bytes) : Bytes :=
  ascii "HTTP/1.1 " ++ formatInt code ++ ascii " " ++ status ++ ascii "\r\n"

/-- `size` is converted to the unsigned `size_t`, and `%ld` prints that as a `long`. -/
def headerLines (fileType : Bytes) (size : ℤ) : List Bytes :=
  [ascii "Content-Type: " ++ fileType ++ ascii "\r\n",
    ascii "Content-Length: " ++ formatInt (longOfSizeT (toSizeT size)) ++ ascii "\r\n",
    ascii "Connection: close\r\n",
    ascii "\r\n"]

def httpSendHeaderLines (code : ℤ) (status fileType : Bytes) (size : ℤ) (c : Conn) : Conn :=
  let (ret, output) := e.addPrintf c.output (statusLine code status)
  if ret = -1 then { c with output }
  else
    { c with
      output := addLines e (headerLines fileType size) output
      answered := c.answered ++ [code] }

/-! ## The callback -/

/-- What the arrays of `bev_read_cb` hold when it is called. -/
structure Stack where
  /-- The arrays. -/
  words : Words
  /-- `char method[32]` -/
  length_method : words.method.length = 32
  /-- `char url[512]` -/
  length_url : words.url.length = 512
  /-- `char version[32]` -/
  length_version : words.version.length = 32

/-- From `sscanf` to `pfile`. -/
def lookup (buffer : Bytes) (a : Words) : Checked Bytes := do
  let words ← sscanf (cString buffer) a
  let url ← strdecode words.url 0 0
  let c ← load url 1
  if c = 0 then return ascii "./" else readStr url 1

/-- The pages are kept in the sources, below the directory the server starts in. -/
def page (name : String) : Bytes :=
  ascii "01_Lessons/02_Linux_Net_Programming/07_Day16/02_Libevent_Server/" ++ ascii name

/-- From `stat` to the end of the callback. -/
def respond (fuel : ℕ) (pfile : Bytes) (c : Conn) (w : ω) : Checked (Conn × ω) :=
  match k.stat pfile w with
  | (none, w) =>
    let c := httpSendHeaderLines e 404 (ascii "NOT FOUND") (getMimeType (ascii ".html")) (-1) c
    sendFile e k fuel (page "404.html") c w
  | (some s, w) =>
    match s.kind with
    | .regular =>
      let c := httpSendHeaderLines e 200 (ascii "OK") (getMimeType pfile) s.size c
      sendFile e k fuel pfile c w
    | .directory => do
      let c := httpSendHeaderLines e 200 (ascii "OK") (getMimeType (ascii ".html")) s.size c
      let (c, w) ← sendFile e k fuel (page "upper.html") c w
      let (c, w) ← sendDir e k fuel pfile c w
      sendFile e k fuel (page "lower.html") c w
    | .other => .ok (c, w)

/-- `evbuffer_readln` may return NULL, and `sscanf` is called with what it returned. -/
def bevReadCb (fuel : ℕ) (stack : Stack) (c : Conn) (w : ω) : Checked (Conn × ω) :=
  match e.readln c.input with
  | (none, _) => .error .nullPointer
  | (some buffer, input) => do
    let pfile ← lookup buffer stack.words
    respond e k fuel pfile { c with input } w

end LibeventServer

end CodeOnLinux
