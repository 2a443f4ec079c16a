import CodeOnLinux.Foundation.Descriptors
import CodeOnLinux.WebServer.Closing
import CodeOnLinux.WebServer.Simulation

/-!
# The main loop of `01_webserver/server.c`

The process of the server has a table of descriptors, and the connections that `accept` gave it are
`Session`s, numbered in the order in which they were accepted; a descriptor that has been closed is
given out again. `epoll_wait` reports at most 128 descriptors, which the loop goes through one after
the other, while bytes go on arriving at all connections. A connection is watched for edges: it is
reported once after bytes have arrived.

The `printf` at the end of the loop over the events has `i++` among its arguments, and `i` is the
loop's own variable there. So behind an event that was served to its end the next one is left out
(`List.drop 1`).

`httpRequest` runs over the system calls of this process. What it does for one connection is what it
does in the world of that connection alone, where the files can be opened if the process has a free
descriptor for them (`request_spec`).

## The descriptors

A call opens one file or directory at a time and closes it again, so the descriptors that are free
when it starts decide about all of them (`System.files`). Where none is free, `stat` finds the path
as before and the header goes out, but `open` and `opendir` fail and nothing follows it.
-/

namespace CodeOnLinux

namespace WebServer

open Memory Stdio Pub Lines Checked Filter

/-! ## The process -/

/-- What a descriptor of the process refers to: a connection, by its number; an open file or
directory, with what is left of it; or something that is not looked at here. -/
inductive Opened
  | reserved
  | socket (n : ℕ)
  | file (rest : Bytes)
  | dir (rest : List Dirent)

/-- A connection. -/
structure Session where
  /-- What has arrived on it so far. -/
  arrived : Bytes
  /-- What of that has not been read. -/
  input : Bytes
  /-- Whether the client has shut it down. -/
  ended : Bool
  /-- What was sent. -/
  output : Bytes
  /-- What each call found on it. -/
  segments : List Bytes
  /-- Whether the server has closed it. -/
  closed : Bool
  /-- Whether it became readable since it was last reported. -/
  ready : Bool

/-- A connection on which `early` has arrived before it was accepted. -/
def Session.fresh (early : Bytes) : Session := ⟨early, early, false, [], [], false, early ≠ []⟩

/-- `re[i]` -/
structure Event where
  /-- `data.fd` -/
  fd : ℕ
  /-- Whether `EPOLLIN` is among the events. -/
  epollIn : Bool
  deriving DecidableEq

/-- The process in its main loop. -/
structure System where
  /-- What each open descriptor refers to. -/
  table : ℕ → Option Opened
  /-- The connections. -/
  sessions : ℕ → Session
  /-- How many were accepted. -/
  accepted : ℕ
  /-- `re`, from the place on to which the loop has come. -/
  batch : List Event

/-- The first socket of the process; behind it is `epollfd`. -/
def sockfd : ℕ := 3

def System.start : System where
  table fd := if fd ≤ sockfd + 1 then some .reserved else none
  sessions _ := .fresh []
  accepted := 0
  batch := []

namespace System

variable (s : System)

def put (fd : ℕ) (o : Option Opened) : System := { s with table := Function.update s.table fd o }

def modify (n : ℕ) (f : Session → Session) : System :=
  { s with sessions := Function.update s.sessions n (f (s.sessions n)) }

/-- What a descriptor refers to; negative ones to nothing. -/
def opened (fd : ℤ) : Option Opened := if fd < 0 then none else s.table fd.toNat

/-- The connection that a descriptor refers to. -/
def sessionAt (fd : ℕ) : Option ℕ :=
  match s.table fd with
  | some (.socket n) => some n
  | _ => none

/-- The descriptor that the next call gets. -/
def free (limit : ℕ) : Option ℕ := Descriptors.free limit s.table

end System

/-! ## Its system calls -/

variable (fs : FileSystem) (limit : ℕ)

/-- The sockets take everything they are sent. -/
def process : Kernel System where
  recv fd peek s :=
    match s.opened fd with
    | some (.socket n) =>
      Prod.map id (fun input ↦ s.modify n fun c ↦ { c with input := input })
        (streamRecv (ending (s.sessions n).ended) peek (s.sessions n).input)
    | _ => (.failed, s)
  send fd text s :=
    match s.opened fd with
    | some (.socket n) => (text.length, s.modify n fun c ↦ { c with output := c.output ++ text })
    | _ => (-1, s)
  stat path s := (fs.stat path, s)
  openRead path s :=
    match fs.content path, s.free limit with
    | some content, some fd => (fd, s.put fd (some (.file content)))
    | _, _ => (-1, s)
  read fd size s :=
    match s.opened fd with
    | some (.file rest) => (some (rest.take size), s.put fd.toNat (some (.file (rest.drop size))))
    | _ => (none, s)
  close fd s :=
    match s.opened fd with
    | some (.socket n) => (s.put fd.toNat none).modify n fun c ↦ { c with closed := true }
    | some _ => s.put fd.toNat none
    | none => s
  opendir path s :=
    match fs.entries path, s.free limit with
    | some entries, some fd => (some fd, s.put fd (some (.dir entries)))
    | _, _ => (none, s)
  readdir dir s :=
    match s.table dir with
    | some (.dir (d :: rest)) => (some d, s.put dir (some (.dir rest)))
    | _ => (none, s)
  closedir dir s := s.put dir none

theorem name_le_of_none (path : Bytes) (l : List Dirent)
    (h : (fun _ : Bytes ↦ (none : Option (List Dirent))) path = some l) :
    ∀ d ∈ l, d.name.length ≤ 255 :=
  absurd h (Option.some_ne_none l).symm

/-- The same files, where none of them can be opened. -/
def FileSystem.unopened (fs : FileSystem) : FileSystem where
  stat := fs.stat
  content _ := none
  entries _ := none
  name_le := name_le_of_none

theorem closes_unopened (fs : FileSystem) : closes fs.unopened = closes fs := rfl

/-- The files, as a call finds them: without a free descriptor none can be opened. -/
def System.files (fs : FileSystem) (limit : ℕ) (s : System) : FileSystem :=
  match s.free limit with
  | some _ => fs
  | none => fs.unopened

/-! ## The loop -/

namespace System

/-- What happens next: bytes arrive on a connection, or its client shuts it down; `epoll_wait`
returns; or the loop takes the event it has come to. An event without `EPOLLIN` is passed over, for
one on the listening socket `accept`, `fcntl` or `epoll_ctl` may fail, and one on a connection is a
call of `http_request`, with whatever is on the stack. -/
inductive Label
  | arrive (n : ℕ) (segment : Bytes)
  | shutDown (n : ℕ)
  | wait (events : List Event)
  | pass
  | acceptFails
  | fcntlFails
  | epollCtlFails
  | accept (early : Bytes)
  | request (fuel : ℕ) (stack : Stack)

/-- The client can still send. -/
def Sending (s : System) (n : ℕ) : Prop :=
  n < s.accepted ∧ (s.sessions n).closed = false ∧ (s.sessions n).ended = false

instance decidableSending (s : System) (n : ℕ) : Decidable (s.Sending n) :=
  inferInstanceAs (Decidable (_ ∧ _))

/-- `epoll_wait` may report this: the listening socket, or a connection, as readable if it became
so. -/
def reports (s : System) (e : Event) : Bool :=
  if e.fd = sockfd then true
  else
    match s.sessionAt e.fd with
    | some n => e.epollIn == (s.sessions n).ready
    | none => false

/-- The edges that were reported are used up. -/
def reported (s : System) (events : List Event) : System where
  table := s.table
  sessions n :=
    if events.any fun e ↦ s.sessionAt e.fd == some n then { s.sessions n with ready := false }
    else s.sessions n
  accepted := s.accepted
  batch := events

/-- `http_request` is called for this descriptor: what it finds is one more segment. -/
def called (s : System) (fd : ℕ) : System :=
  match s.sessionAt fd with
  | some n => s.modify n fun c ↦ { c with segments := c.segments ++ [c.input] }
  | none => s

/-- A new connection gets a descriptor. -/
def join (s : System) (fd : ℕ) (early : Bytes) : System where
  table := Function.update s.table fd (some (.socket s.accepted))
  sessions := Function.update s.sessions s.accepted (.fresh early)
  accepted := s.accepted + 1
  batch := s.batch

def step (s : System) : Label → Option System
  | .arrive n segment => Transition.guarded (s.Sending n ∧ segment ≠ [])
      (s.modify n fun c ↦ { c with
        arrived := c.arrived ++ segment, input := c.input ++ segment, ready := true })
  | .shutDown n => Transition.guarded (s.Sending n)
      (s.modify n fun c ↦ { c with ended := true, ready := true })
  | .wait events => Transition.guarded (s.batch = [] ∧ events.length ≤ 128 ∧
      (events.map Event.fd).Nodup ∧ ∀ e ∈ events, s.reports e = true) (s.reported events)
  | .pass =>
    match s.batch with
    | [] => none
    | e :: rest => Transition.guarded (e.epollIn = false) { s with batch := rest }
  | .acceptFails =>
    match s.batch with
    | [] => none
    | e :: rest => Transition.guarded (e.epollIn = true ∧ e.fd = sockfd) { s with batch := rest }
  -- `break`: the new socket stays open, and the rest of the events is dropped
  | .fcntlFails =>
    match s.batch, s.free limit with
    | e :: _, some fd => Transition.guarded (e.epollIn = true ∧ e.fd = sockfd)
        { s.put fd (some .reserved) with batch := [] }
    | _, _ => none
  | .epollCtlFails =>
    match s.batch, s.free limit with
    | e :: rest, some _ => Transition.guarded (e.epollIn = true ∧ e.fd = sockfd)
        { s with batch := rest }
    | _, _ => none
  | .accept early =>
    match s.batch, s.free limit with
    | e :: rest, some fd => Transition.guarded (e.epollIn = true ∧ e.fd = sockfd)
        { s.join fd early with batch := rest.drop 1 }
    | _, _ => none
  | .request fuel stack =>
    match s.batch with
    | [] => none
    | e :: rest =>
      if e.epollIn = true ∧ e.fd ≠ sockfd then
        match httpRequest (process fs limit) fuel e.fd stack (s.called e.fd) with
        | .ok (_, t) => some { t with batch := rest.drop 1 }
        | .error _ => none
      else none

/-! ## Changes of the process -/

section

variable {s : System} {fd n : ℕ} {o o' : Option Opened} {f g : Session → Session}

theorem opened_natCast (s : System) (fd : ℕ) : s.opened fd = s.table fd := by
  rw [opened, if_neg (not_lt.mpr (Int.natCast_nonneg fd)), Int.toNat_natCast]

theorem modify_modify : (s.modify n f).modify n g = s.modify n (g ∘ f) := by
  simp only [modify, Function.update_self, Function.update_idem, Function.comp_apply]

theorem modify_congr (h : f (s.sessions n) = g (s.sessions n)) : s.modify n f = s.modify n g := by
  rw [modify, modify, h]

theorem modify_eq_self (h : f (s.sessions n) = s.sessions n) : s.modify n f = s := by
  rw [modify, h, Function.update_eq_self]

theorem put_put : (s.put fd o).put fd o' = s.put fd o' := by
  simp only [put, Function.update_idem]

theorem put_eq_self (h : s.table fd = o) : s.put fd o = s := by
  rw [put, ← h, Function.update_eq_self]

theorem put_modify : (s.put fd o).modify n f = (s.modify n f).put fd o := rfl

theorem sessions_modify_self : (s.modify n f).sessions n = f (s.sessions n) :=
  Function.update_self ..

theorem sessions_modify_of_ne {m : ℕ} (h : m ≠ n) : (s.modify n f).sessions m = s.sessions m :=
  Function.update_of_ne h ..

theorem table_put_self : (s.put fd o).table fd = o := Function.update_self ..

theorem table_put_of_ne {fd' : ℕ} (h : fd' ≠ fd) : (s.put fd o).table fd' = s.table fd' :=
  Function.update_of_ne h ..

theorem free_eq_some {limit : ℕ} (h : s.free limit = some fd) : s.table fd = none :=
  Descriptors.eq_none_of_free h

end

/-- The connection has been sent `output` in all. -/
def sent (s : System) (n : ℕ) (output : Bytes) : System :=
  s.modify n fun c ↦ { c with output := output }

/-- A call has read what there was and has answered the paths; the connection is closed if one of
the answers closes it. -/
def answered (s : System) (fd n : ℕ) (paths : List Bytes) : System :=
  let t := s.modify n fun c ↦ { c with
    input := []
    segments := c.segments ++ [c.input]
    output := c.output ++ paths.flatMap (response fs)
    closed := paths.any (closes fs) }
  if paths.any (closes fs) then t.put fd none else t

section

variable {fs} {s : System} {fd n : ℕ} {paths : List Bytes}

theorem sessions_answered_self : (s.answered fs fd n paths).sessions n =
    { s.sessions n with
      input := []
      segments := (s.sessions n).segments ++ [(s.sessions n).input]
      output := (s.sessions n).output ++ paths.flatMap (response fs)
      closed := paths.any (closes fs) } := by
  rw [answered]
  split_ifs <;> exact Function.update_self ..

theorem sessions_answered_of_ne {m : ℕ} (h : m ≠ n) :
    (s.answered fs fd n paths).sessions m = s.sessions m := by
  rw [answered]
  split_ifs <;> exact Function.update_of_ne h ..

theorem table_answered_of_ne {fd' : ℕ} (h : fd' ≠ fd) :
    (s.answered fs fd n paths).table fd' = s.table fd' := by
  rw [answered]
  split_ifs
  · exact Function.update_of_ne h ..
  · rfl

theorem table_answered_self : (s.answered fs fd n paths).table fd =
    if paths.any (closes fs) then none else s.table fd := by
  rw [answered]
  split_ifs
  · exact table_put_self
  · rfl

theorem accepted_answered : (s.answered fs fd n paths).accepted = s.accepted := by
  rw [answered]
  split_ifs <;> rfl

end

/-! ## One call -/

section

variable {fs limit} {s : System} {fd n spare : ℕ}

theorem process_send (hfd : s.opened fd = some (.socket n)) (text : Bytes) :
    (process fs limit).send fd text s =
      ((text.length : ℤ), s.modify n fun c ↦ { c with output := c.output ++ text }) := by
  simp only [process, hfd]

theorem sent_append (output text : Bytes) :
    (s.sent n output).modify n (fun c ↦ { c with output := c.output ++ text }) =
      s.sent n (output ++ text) := modify_modify

theorem process_send_sent (hfd : s.table fd = some (.socket n)) (text output : Bytes) :
    (process fs limit).send fd text (s.sent n output) =
      ((text.length : ℤ), s.sent n (output ++ text)) := by
  have hopened : (s.sent n output).opened fd = some (.socket n) := (opened_natCast _ fd).trans hfd
  rw [process_send hopened, sent_append]

/-- Also while a file or a directory is open. -/
theorem process_send_put (hfd : s.table fd = some (.socket n)) (hne : fd ≠ spare)
    (o : Option Opened) (text output : Bytes) :
    (process fs limit).send fd text ((s.sent n output).put spare o) =
      ((text.length : ℤ), (s.sent n (output ++ text)).put spare o) := by
  have hopened : ((s.sent n output).put spare o).opened fd = some (.socket n) := by
    rw [opened_natCast, table_put_of_ne hne]
    exact hfd
  rw [process_send hopened, ← sent_append]
  rfl

theorem ne_spare (hfd : s.table fd = some (.socket n)) (hspare : s.free limit = some spare) :
    fd ≠ spare := by
  rintro rfl
  rw [free_eq_some hspare] at hfd
  cases hfd

theorem files_of_some (fs : FileSystem) (hspare : s.free limit = some spare) :
    s.files fs limit = fs := by
  rw [files, hspare]

theorem files_of_none (fs : FileSystem) (hnone : s.free limit = none) :
    s.files fs limit = fs.unopened := by
  rw [files, hnone]

theorem files_modify (fs : FileSystem) {f : Session → Session} :
    (s.modify n f).files fs limit = s.files fs limit := rfl

/-- What closes a connection is found by `stat`, which takes no descriptor. -/
theorem closes_files (fs : FileSystem) : closes (s.files fs limit) = closes fs := by
  rw [files]
  split
  · rfl
  · exact closes_unopened fs

theorem process_openRead (name : Bytes) (output : Bytes) :
    (process fs limit).openRead name (s.sent n output) =
      match (s.files fs limit).content name, s.free limit with
      | some content, some spare => (↑spare, (s.sent n output).put spare (some (.file content)))
      | _, _ => (-1, s.sent n output) := by
  have hfree : (s.sent n output).free limit = s.free limit := rfl
  simp only [process, files, hfree]
  cases s.free limit <;> cases fs.content name <;> rfl

theorem process_opendir (name : Bytes) (output : Bytes) :
    (process fs limit).opendir name (s.sent n output) =
      match (s.files fs limit).entries name, s.free limit with
      | some entries, some spare => (some spare, (s.sent n output).put spare (some (.dir entries)))
      | _, _ => (none, s.sent n output) := by
  have hfree : (s.sent n output).free limit = s.free limit := rfl
  simp only [process, files, hfree]
  cases s.free limit <;> cases fs.entries name <;> rfl

theorem neg_one_ne_natCast (k : ℕ) : (-1 : ℤ) ≠ k := by omega

/-- **One connection of many.** The process, acting for a connection, does what the system with this
connection alone does, where the files can be opened if the process has a free descriptor. -/
def alone (fs : FileSystem) (limit : ℕ) (hfd : s.table fd = some (.socket n)) :
    Simulation (process fs limit) (kernel (s.files fs limit) fd) fd fd where
  between t w := w.closed = false ∧ t = s.sent n w.output
  file g g' t w := w.closed = false ∧
    ((∃ spare, s.free limit = some spare ∧ g = spare ∧ g' = fd + 1 ∧
        t = (s.sent n w.output).put spare (some (.file w.file))) ∨
      (g = -1 ∧ g' = -1 ∧ t = s.sent n w.output))
  dir d _ t w := w.closed = false ∧ s.free limit = some d ∧
    t = (s.sent n w.output).put d (some (.dir w.dir))
  done t w := w.closed = true ∧
    t = ((s.sent n w.output).put fd none).modify n fun c ↦ { c with closed := true }
  send text t w h := by
    obtain ⟨hopen, rfl⟩ := h
    rw [process_send_sent hfd, kernel_send]
    exact ⟨rfl, hopen, rfl⟩
  sendOfFile text g g' t w h := by
    obtain ⟨hopen, ⟨spare, hspare, rfl, rfl, rfl⟩ | ⟨rfl, rfl, rfl⟩⟩ := h
    · rw [process_send_put hfd (ne_spare hfd hspare), kernel_send]
      exact ⟨rfl, hopen, Or.inl ⟨spare, hspare, rfl, rfl, rfl⟩⟩
    · rw [process_send_sent hfd, kernel_send]
      exact ⟨rfl, hopen, Or.inr ⟨rfl, rfl, rfl⟩⟩
  sendOfDir text d d' t w h := by
    obtain ⟨hopen, hspare, rfl⟩ := h
    rw [process_send_put hfd (ne_spare hfd hspare), kernel_send]
    exact ⟨hopen, hspare, rfl⟩
  stat path t w h := by
    refine ⟨?_, h⟩
    rw [files]
    cases s.free limit <;> rfl
  openRead path t w h := by
    obtain ⟨hopen, rfl⟩ := h
    rw [process_openRead]
    cases hcontent : (s.files fs limit).content path with
    | none =>
      rw [kernel_openRead_none hcontent]
      exact ⟨hopen, Or.inr ⟨rfl, rfl, rfl⟩⟩
    | some content =>
      rw [kernel_openRead hcontent]
      cases hspare : s.free limit with
      | none =>
        rw [files_of_none fs hspare] at hcontent
        cases hcontent
      | some spare => exact ⟨hopen, Or.inl ⟨spare, rfl, rfl, rfl, rfl⟩⟩
  read size g g' t w h := by
    obtain ⟨hopen, ⟨spare, hspare, rfl, rfl, rfl⟩ | ⟨rfl, rfl, rfl⟩⟩ := h
    · simp only [process, kernel, opened_natCast, table_put_self, Int.toNat_natCast, put_put,
        if_true]
      exact ⟨trivial, hopen, Or.inl ⟨spare, hspare, rfl, trivial, rfl⟩⟩
    · have hother : (-1 : ℤ) ≠ fd + 1 := neg_one_ne_natCast (fd + 1)
      simp only [process, kernel, if_neg hother]
      exact ⟨rfl, hopen, Or.inr ⟨trivial, trivial, rfl⟩⟩
  closeFile {g g' t w} h := by
    obtain ⟨hopen, ⟨spare, hspare, rfl, rfl, rfl⟩ | ⟨rfl, rfl, rfl⟩⟩ := h
    · have hother : (fd : ℤ) + 1 ≠ fd := (lt_add_one (fd : ℤ)).ne'
      rw [kernel_close_of_ne _ fd hother]
      refine ⟨hopen, ?_⟩
      simp only [process, opened_natCast, table_put_self, Int.toNat_natCast, put_put]
      exact put_eq_self (free_eq_some hspare)
    · have hother : (-1 : ℤ) ≠ fd := neg_one_ne_natCast fd
      rw [kernel_close_of_ne _ fd hother]
      exact ⟨hopen, rfl⟩
  opendir path t w h := by
    obtain ⟨hopen, rfl⟩ := h
    rw [process_opendir]
    cases hentries : (s.files fs limit).entries path with
    | none =>
      refine Or.inl ?_
      simp only [kernel, hentries]
      exact ⟨trivial, trivial, hopen, trivial⟩
    | some entries =>
      cases hspare : s.free limit with
      | none =>
        rw [files_of_none fs hspare] at hentries
        cases hentries
      | some spare =>
        refine Or.inr ⟨spare, 0, ?_⟩
        simp only [kernel, hentries]
        exact ⟨trivial, trivial, hopen, trivial, trivial⟩
  readdir {d d' t w} h := by
    obtain ⟨hopen, hspare, rfl⟩ := h
    cases hdir : w.dir with
    | nil =>
      simp only [process, kernel, table_put_self, hdir]
      exact ⟨trivial, hopen, hspare, trivial⟩
    | cons e rest =>
      simp only [process, kernel, table_put_self, hdir, put_put]
      exact ⟨trivial, hopen, hspare, trivial⟩
  closedir {d d' t w} h := by
    obtain ⟨hopen, hspare, rfl⟩ := h
    refine ⟨hopen, ?_⟩
    simp only [process, put_put]
    exact put_eq_self (free_eq_some hspare)
  close {t w} h := by
    obtain ⟨hopen, rfl⟩ := h
    have hopened : (s.sent n w.output).opened fd = some (.socket n) :=
      (opened_natCast _ fd).trans hfd
    rw [kernel_close]
    refine ⟨rfl, ?_⟩
    simp only [process, hopened, Int.toNat_natCast]

theorem called_eq (hfd : s.table fd = some (.socket n)) :
    s.called fd = s.modify n fun c ↦ { c with segments := c.segments ++ [c.input] } := by
  simp only [called, sessionAt, hfd]

/-- What `recv` brings is what has arrived on the connection. -/
theorem process_recv (hfd : s.table fd = some (.socket n)) (peek : Bool) (input : Bytes) :
    (process fs limit).recv fd peek (s.modify n fun c ↦ { c with input := input }) =
      Prod.map id (fun input ↦ s.modify n fun c ↦ { c with input := input })
        (streamRecv (ending (s.sessions n).ended) peek input) := by
  have hopened : (s.modify n fun c ↦ { c with input := input }).opened fd = some (.socket n) :=
    (opened_natCast _ fd).trans hfd
  simp only [process, hopened, sessions_modify_self, modify_modify]
  rfl

/-- The answer to a path, in the process. -/
theorem respond_process (hfd : s.table fd = some (.socket n)) {fuel : ℕ} {pfile : Bytes} {r : ℤ}
    {t : System} (hok : respond (process fs limit) fuel fd pfile s = .ok (r, t)) :
    t = if closes fs pfile then
        ((s.sent n ((s.sessions n).output ++ response (s.files fs limit) pfile)).put fd none).modify
          n fun c ↦ { c with closed := true }
      else s.sent n ((s.sessions n).output ++ response (s.files fs limit) pfile) := by
  have hstart : (alone fs limit hfd).between s
      ⟨[], (s.sessions n).output, [], false, [], []⟩ := ⟨rfl, (modify_eq_self rfl).symm⟩
  obtain ⟨⟨r', w⟩, hw, -, hafter⟩ :=
    ((alone fs limit hfd).respond fuel pfile hstart).exists_right hok
  -- the world of the connection alone answers with enough fuel, and more fuel changes nothing
  obtain ⟨m, hm⟩ := (respond_eventually (s.files fs limit) fd pfile).exists
  obtain ⟨r'', w', hw', hanswer⟩ := hm ⟨[], (s.sessions n).output, [], false, [], []⟩
  obtain ⟨-, rfl⟩ := Prod.mk.inj (eq_of_below (fun _ _ hle ↦ respond_mono hle pfile _) hw hw')
  have hclosed : w.closed = closes fs pfile :=
    hanswer.closed.trans (congrFun (closes_files fs) pfile)
  have houtput : w.output = (s.sessions n).output ++ response (s.files fs limit) pfile :=
    hanswer.output
  rw [← houtput]
  rcases hafter with ⟨hstays, ht⟩ | ⟨hcloses, ht⟩
  · rw [if_neg (by rw [← hclosed, hstays]; exact Bool.false_ne_true)]
    exact ht
  · rw [if_pos (hclosed.symm.trans hcloses)]
    exact ht

/-- **A call in the process**, which has come to its end: it has read everything that had arrived,
and has answered the path of the first line on its own connection, with the files that it could
open. -/
theorem request_spec (hfd : s.table fd = some (.socket n)) (hopen : (s.sessions n).closed = false)
    {fuel : ℕ} {stack : Stack} {r : ℤ} {t : System}
    (hok : httpRequest (process fs limit) fuel fd stack (s.called fd) = .ok (r, t)) :
    ∃ pfile, lookup (takeLine 4095 (s.sessions n).input).1 stack.words = .ok pfile ∧
      t = s.answered (s.files fs limit) fd n pfile.toList := by
  obtain ⟨called, hcalled⟩ : ∃ u, u = s.called fd := ⟨_, rfl⟩
  rw [← hcalled] at hok
  rw [called_eq hfd] at hcalled
  have hfd' : called.table fd = some (.socket n) := by rw [hcalled]; exact hfd
  have hinput : (called.sessions n).input = (s.sessions n).input := by
    rw [hcalled, sessions_modify_self]
  have hself : called.modify n (fun c ↦ { c with input := (s.sessions n).input }) = called :=
    modify_eq_self (by rw [← hinput])
  -- with fuel for the bytes that have arrived too, the call reads all of them
  have hmore := httpRequest_mono (le_max_left fuel ((s.sessions n).input.length + 1)) stack called
    (r, t) hok
  have hfuel : (s.sessions n).input.length < max fuel ((s.sessions n).input.length + 1) :=
    lt_max_of_lt_right (Nat.lt_succ_self _)
  rw [← hself, httpRequest_eq (ends_ending _) (process_recv hfd') stack hfuel] at hmore
  obtain ⟨pfile, hlookup, hanswer⟩ := bind_eq_ok.mp hmore
  refine ⟨pfile, hlookup, ?_⟩
  subst hcalled
  cases pfile with
  | none =>
    obtain ⟨-, rfl⟩ := Prod.mk.inj (Except.ok.inj hanswer)
    rw [modify_modify, answered, Option.toList_none, List.any_nil, if_neg Bool.false_ne_true]
    refine modify_congr ?_
    simp only [Function.comp_apply, hopen, List.flatMap_nil, List.append_nil]
  | some pfile =>
    obtain rfl := respond_process (by exact hfd) hanswer
    rw [answered, closes_files, Option.toList_some, List.any_cons, List.any_nil, Bool.or_false]
    simp only [put_modify, modify_modify, sent, sessions_modify_self, files_modify,
      Function.comp_apply,
      List.flatMap_cons, List.flatMap_nil, List.append_nil]
    split_ifs with hcloses
    · refine congrArg (put · fd none) (modify_congr ?_)
      simp only [Function.comp_apply, hcloses]
    · refine modify_congr ?_
      simp only [Function.comp_apply, hopen, eq_false_of_ne_true hcloses]

end

end System

end WebServer

end CodeOnLinux
