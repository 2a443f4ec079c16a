import CodeOnLinux.Foundation.Transition
import CodeOnLinux.WebServer.Delivery
import Mathlib.Data.Finset.Card

/-!
# `Connection: close`

Each header block that `01_webserver` sends announces that the connection will be closed. The
branches for a file and for a directory close it behind the answer; the branch for a path that does
not exist returns without that.

`held` is any system with a record of what a call sends and closes, and of the descriptors that are
open. A call that has announced it closes its connection once if and only if the path it looks up
exists (`closes_once_iff`). So over a run the descriptors are given back as the requests are
answered exactly as long as no missing path is answered (`promised_throughout_iff`).

## Over a run

The server does not notice that a connection stays open. Each of them keeps a descriptor for good,
and `accept` fails when there are no more. The theorem about runs therefore counts descriptors: the
promise is that each call that has announced the closing has given one back (`Server.Promised`). It
cannot be made good later, because `http_request` is the only place where a connection is closed.
-/

namespace CodeOnLinux

namespace WebServer

open Stdio Pub Lines

variable {ω : Type}

/-! ## What a call holds -/

/-- The system during a call, with a record of what the call sends and closes. -/
structure Held (ω : Type) where
  /-- The bytes that have arrived on the connection. -/
  input : Bytes
  /-- The open descriptors. -/
  descriptors : Finset ℤ
  /-- How many directory streams are open. -/
  streams : ℕ
  /-- The texts sent so far, with the results of `send`. -/
  sends : List (Bytes × ℤ)
  /-- The descriptors passed to `close`. -/
  closes : List ℤ
  /-- The rest of the world. -/
  world : ω

/-- Behind the bytes that have arrived, the stream has ended or `recv` fails. -/
def ending (ended : Bool) : Recv := if ended then .closed else .failed

theorem ends_ending (ended : Bool) : (ending ended).Ends := by
  cases ended with
  | false => exact Recv.ends_failed
  | true => exact Recv.ends_closed

/-- The system `k` with the record. A descriptor that is in use is not given out again; where `k`
answers with one, `open` fails. -/
def held (ended : Bool) (k : Kernel ω) : Kernel (Held ω) where
  recv _ peek h :=
    Prod.map id (fun s ↦ { h with input := s }) (streamRecv (ending ended) peek h.input)
  send fd text h :=
    ((k.send fd text h.world).1,
      { h with
        sends := h.sends ++ [(text, (k.send fd text h.world).1)]
        world := (k.send fd text h.world).2 })
  stat path h := ((k.stat path h.world).1, { h with world := (k.stat path h.world).2 })
  openRead path h :=
    let (fd, w) := k.openRead path h.world
    if fd < 0 ∨ fd ∈ h.descriptors then (-1, { h with world := w })
    else (fd, { h with descriptors := insert fd h.descriptors, world := w })
  read fd n h := ((k.read fd n h.world).1, { h with world := (k.read fd n h.world).2 })
  close fd h :=
    { h with
      descriptors := if fd < 0 then h.descriptors else h.descriptors.erase fd
      closes := h.closes ++ [fd]
      world := k.close fd h.world }
  opendir path h :=
    match k.opendir path h.world with
    | (some dir, w) => (some dir, { h with streams := h.streams + 1, world := w })
    | (none, w) => (none, { h with world := w })
  readdir dir h := ((k.readdir dir h.world).1, { h with world := (k.readdir dir h.world).2 })
  closedir dir h := { h with streams := h.streams - 1, world := k.closedir dir h.world }

/-- The first five texts are a header block, which ends in the announcement and a blank line, and
`send` has taken all of them. -/
def Announced (sends : List (Bytes × ℤ)) : Prop :=
  ((sends.take 5).map Prod.fst).drop 3 = [ascii "Connection: close\r\n", ascii "\r\n"] ∧
    ∀ e ∈ sends.take 5, e.2 ≠ -1

instance decidableAnnounced (sends : List (Bytes × ℤ)) : Decidable (Announced sends) :=
  inferInstanceAs (Decidable (_ ∧ _))

theorem not_announced_nil : ¬Announced [] := by
  intro h
  exact absurd h.1 (List.cons_ne_nil _ _).symm

/-! ## What a call leaves -/

/-- `h'` has the open descriptors and streams of `h`, and `connfd` was not closed in between. -/
structure Kept (connfd : ℤ) (h h' : Held ω) : Prop where
  /-- The same descriptors are open. -/
  descriptors : h'.descriptors = h.descriptors
  /-- So are the streams. -/
  streams : h'.streams = h.streams
  /-- The connection was not closed. -/
  count : h'.closes.count connfd = h.closes.count connfd

theorem Kept.refl (connfd : ℤ) (h : Held ω) : Kept connfd h h := ⟨rfl, rfl, rfl⟩

theorem Kept.trans {connfd : ℤ} {h h₁ h₂ : Held ω} (h₁' : Kept connfd h h₁)
    (h₂' : Kept connfd h₁ h₂) : Kept connfd h h₂ where
  descriptors := h₂'.descriptors.trans h₁'.descriptors
  streams := h₂'.streams.trans h₁'.streams
  count := h₂'.count.trans h₁'.count

section

variable {ended : Bool} {k : Kernel ω} {connfd : ℤ} {fuel : ℕ} {h h' : Held ω} {r : ℤ}

theorem sendLines_kept {lines : List Bytes}
    (hok : sendLines (held ended k) connfd lines h = .ok (r, h')) : Kept connfd h h' := by
  induction lines generalizing h with
  | nil =>
    obtain ⟨-, rfl⟩ := Prod.mk.inj (Except.ok.inj hok)
    exact Kept.refl connfd _
  | cons line lines ih =>
    obtain ⟨text, -, hok⟩ := Checked.bind_eq_ok.mp hok
    have hsend : Kept connfd h ((held ended k).send connfd text h).2 := ⟨rfl, rfl, rfl⟩
    by_cases hret : ((held ended k).send connfd text h).1 = -1
    · simp only [if_pos hret] at hok
      obtain ⟨-, rfl⟩ := Prod.mk.inj (Except.ok.inj hok)
      exact hsend
    · simp only [if_neg hret] at hok
      exact hsend.trans (ih hok)

theorem sendFileLoop_kept {fd : ℤ} (hok : sendFileLoop (held ended k) connfd fd fuel h = .ok h') :
    Kept connfd h h' := by
  induction fuel generalizing h with
  | zero => cases hok
  | succ fuel ih =>
    have hread : Kept connfd h ((held ended k).read fd maxSize h).2 := ⟨rfl, rfl, rfl⟩
    rw [sendFileLoop] at hok
    rcases hbytes : (held ended k).read fd maxSize h with ⟨bytes, h₁⟩
    rw [hbytes] at hok hread
    obtain _ | ⟨_ | ⟨b, buffer⟩⟩ := bytes
    · exact Except.ok.inj hok ▸ hread
    · exact Except.ok.inj hok ▸ hread
    · have hsend : Kept connfd h₁ ((held ended k).send connfd (b :: buffer) h₁).2 := ⟨rfl, rfl, rfl⟩
      by_cases hret : ((held ended k).send connfd (b :: buffer) h₁).1 ≤ 0
      · simp only [if_pos hret] at hok
        exact Except.ok.inj hok ▸ hread.trans hsend
      · simp only [if_neg hret] at hok
        exact (hread.trans hsend).trans (ih hok)

/-- What `open` gives is given back by `close`, and it is not the connection. -/
theorem open_close_kept {name : Bytes} (hconn : connfd ∈ h.descriptors) (hfd : 0 ≤ connfd)
    (hkept : Kept connfd ((held ended k).openRead name h).2 h') :
    Kept connfd h ((held ended k).close ((held ended k).openRead name h).1 h') := by
  by_cases hfree : (k.openRead name h.world).1 < 0 ∨ (k.openRead name h.world).1 ∈ h.descriptors
  · have hopen : (held ended k).openRead name h =
        (-1, { h with world := (k.openRead name h.world).2 }) := if_pos hfree
    have hother : ¬-1 = connfd := by omega
    rw [hopen] at hkept ⊢
    refine ⟨hkept.descriptors, hkept.streams, ?_⟩
    simp only [held, List.count_append, hkept.count, List.count_singleton, beq_iff_eq,
      if_neg hother, Nat.add_zero]
  · obtain ⟨hpos, hfresh⟩ := not_or.mp hfree
    have hopen : (held ended k).openRead name h = ((k.openRead name h.world).1,
        { h with
          descriptors := insert (k.openRead name h.world).1 h.descriptors
          world := (k.openRead name h.world).2 }) := if_neg hfree
    have hother : ¬(k.openRead name h.world).1 = connfd := fun heq ↦ hfresh (heq ▸ hconn)
    rw [hopen] at hkept ⊢
    refine ⟨?_, hkept.streams, ?_⟩
    · simp only [held, if_neg hpos, hkept.descriptors]
      exact Finset.erase_insert hfresh
    · simp only [held, List.count_append, hkept.count, List.count_singleton, beq_iff_eq,
        if_neg hother, Nat.add_zero]

/-- **A file** is closed again. -/
theorem sendFile_kept {name : Bytes} (hconn : connfd ∈ h.descriptors) (hfd : 0 ≤ connfd)
    (hok : sendFile (held ended k) fuel connfd name h = .ok (r, h')) : Kept connfd h h' := by
  obtain ⟨h₁, hloop, hok⟩ := Checked.bind_eq_ok.mp hok
  obtain ⟨-, rfl⟩ := Prod.mk.inj (Except.ok.inj hok)
  exact open_close_kept hconn hfd (sendFileLoop_kept hloop)

theorem sendDirLoop_kept {dir : ℕ} (hok : sendDirLoop (held ended k) connfd dir fuel h = .ok h') :
    Kept connfd h h' := by
  induction fuel generalizing h with
  | zero => cases hok
  | succ fuel ih =>
    have hread : Kept connfd h ((held ended k).readdir dir h).2 := ⟨rfl, rfl, rfl⟩
    rw [sendDirLoop] at hok
    rcases hentry : (held ended k).readdir dir h with ⟨entry, h₁⟩
    rw [hentry] at hok hread
    obtain _ | d := entry
    · exact Except.ok.inj hok ▸ hread
    · obtain ⟨text, -, hok⟩ := Checked.bind_eq_ok.mp hok
      have hsend : Kept connfd h₁ ((held ended k).send connfd text h₁).2 := ⟨rfl, rfl, rfl⟩
      exact (hread.trans hsend).trans (ih hok)

/-- **A directory** is closed again. -/
theorem sendDir_kept {name : Bytes}
    (hok : sendDir (held ended k) fuel connfd name h = .ok (r, h')) : Kept connfd h h' := by
  rw [sendDir] at hok
  rcases hopen : k.opendir name h.world with ⟨dir, w⟩
  obtain _ | dir := dir
  · have hopen' : (held ended k).opendir name h = (none, { h with world := w }) := by
      simp only [held, hopen]
    rw [hopen'] at hok
    obtain ⟨-, rfl⟩ := Prod.mk.inj (Except.ok.inj hok)
    exact ⟨rfl, rfl, rfl⟩
  · have hopen' : (held ended k).opendir name h =
        (some dir, { h with streams := h.streams + 1, world := w }) := by
      simp only [held, hopen]
    rw [hopen'] at hok
    obtain ⟨h₁, hloop, hok⟩ := Checked.bind_eq_ok.mp hok
    obtain ⟨-, rfl⟩ := Prod.mk.inj (Except.ok.inj hok)
    have hkept := sendDirLoop_kept hloop
    exact ⟨hkept.descriptors, congrArg (· - 1) hkept.streams, hkept.count⟩

/-- `h'` is `h` with the connection closed, once. -/
structure Shut (connfd : ℤ) (h h' : Held ω) : Prop where
  /-- Its descriptor is no longer open. -/
  descriptors : h'.descriptors = h.descriptors.erase connfd
  /-- The streams are. -/
  streams : h'.streams = h.streams
  /-- It was closed once. -/
  count : h'.closes.count connfd = h.closes.count connfd + 1

theorem Kept.shut (hkept : Kept connfd h h') (hfd : 0 ≤ connfd) :
    Shut connfd h ((held ended k).close connfd h') := by
  have hpos : ¬connfd < 0 := not_lt.mpr hfd
  refine ⟨?_, hkept.streams, ?_⟩
  · simp only [held, if_neg hpos, hkept.descriptors]
  · simp only [held, List.count_append, hkept.count, List.count_singleton_self]

/-! ## The branches -/

/-- **No such path**: the connection stays open. -/
theorem respond_missing {pfile : Bytes} (hstat : (k.stat pfile h.world).1 = none)
    (hconn : connfd ∈ h.descriptors) (hfd : 0 ≤ connfd)
    (hok : respond (held ended k) fuel connfd pfile h = .ok (r, h')) : Kept connfd h h' := by
  have hstat' : (held ended k).stat pfile h =
      (none, { h with world := (k.stat pfile h.world).2 }) := by simp only [held, hstat]
  rw [respond, hstat'] at hok
  obtain ⟨⟨r₁, h₁⟩, hheader, hok⟩ := Checked.bind_eq_ok.mp hok
  obtain ⟨⟨r₂, h₂⟩, hpage, hok⟩ := Checked.bind_eq_ok.mp hok
  obtain ⟨-, rfl⟩ := Prod.mk.inj (Except.ok.inj hok)
  have hkept := sendLines_kept hheader
  have hconn' : connfd ∈ h₁.descriptors := hkept.descriptors ▸ hconn
  have hpage' := sendFile_kept hconn' hfd hpage
  exact Kept.trans ⟨hkept.descriptors, hkept.streams, hkept.count⟩ hpage'

/-- **A file or a directory**: the connection is closed behind the answer. -/
theorem respond_found {pfile : Bytes} {s : Stat} (hstat : (k.stat pfile h.world).1 = some s)
    (hkind : s.kind ≠ .other) (hconn : connfd ∈ h.descriptors) (hfd : 0 ≤ connfd)
    (hok : respond (held ended k) fuel connfd pfile h = .ok (r, h')) : Shut connfd h h' := by
  have hstat' : (held ended k).stat pfile h =
      (some s, { h with world := (k.stat pfile h.world).2 }) := by simp only [held, hstat]
  have hstart : Kept connfd h { h with world := (k.stat pfile h.world).2 } := ⟨rfl, rfl, rfl⟩
  rw [respond, hstat'] at hok
  cases hs : s.kind with
  | other => exact absurd hs hkind
  | regular =>
    simp only [hs] at hok
    obtain ⟨⟨r₁, h₁⟩, hheader, hok⟩ := Checked.bind_eq_ok.mp hok
    obtain ⟨⟨r₂, h₂⟩, hfile, hok⟩ := Checked.bind_eq_ok.mp hok
    obtain ⟨-, rfl⟩ := Prod.mk.inj (Except.ok.inj hok)
    have hkept₁ := hstart.trans (sendLines_kept hheader)
    have hkept₂ := hkept₁.trans (sendFile_kept (hkept₁.descriptors ▸ hconn) hfd hfile)
    exact hkept₂.shut hfd
  | directory =>
    simp only [hs] at hok
    obtain ⟨⟨r₁, h₁⟩, hheader, hok⟩ := Checked.bind_eq_ok.mp hok
    obtain ⟨⟨r₂, h₂⟩, hupper, hok⟩ := Checked.bind_eq_ok.mp hok
    obtain ⟨⟨r₃, h₃⟩, hdir, hok⟩ := Checked.bind_eq_ok.mp hok
    obtain ⟨⟨r₄, h₄⟩, hlower, hok⟩ := Checked.bind_eq_ok.mp hok
    obtain ⟨-, rfl⟩ := Prod.mk.inj (Except.ok.inj hok)
    have hkept₁ := hstart.trans (sendLines_kept hheader)
    have hkept₂ := hkept₁.trans (sendFile_kept (hkept₁.descriptors ▸ hconn) hfd hupper)
    have hkept₃ := hkept₂.trans (sendDir_kept hdir)
    have hkept₄ := hkept₃.trans (sendFile_kept (hkept₃.descriptors ▸ hconn) hfd hlower)
    exact hkept₄.shut hfd

/-- **Anything else** is not answered. -/
theorem respond_else {pfile : Bytes} {s : Stat} (hstat : (k.stat pfile h.world).1 = some s)
    (hkind : s.kind = .other)
    (hok : respond (held ended k) fuel connfd pfile h = .ok (r, h')) :
    Kept connfd h h' ∧ h'.sends = h.sends := by
  have hstat' : (held ended k).stat pfile h =
      (some s, { h with world := (k.stat pfile h.world).2 }) := by simp only [held, hstat]
  rw [respond, hstat'] at hok
  simp only [hkind] at hok
  obtain ⟨-, rfl⟩ := Prod.mk.inj (Except.ok.inj hok)
  exact ⟨⟨rfl, rfl, rfl⟩, rfl⟩

end

/-! ## One call -/

/-- The server between its calls. -/
structure Server (ω : Type) where
  /-- The open connections. -/
  descriptors : Finset ℤ
  /-- The open directory streams. -/
  streams : ℕ
  /-- How many connections were accepted. -/
  accepted : ℕ
  /-- How often a call has closed its connection, for each call that announced it. -/
  closings : List ℕ
  /-- The rest of the world. -/
  world : ω

def Server.start (w : ω) : Server ω := ⟨∅, 0, 0, [], w⟩

/-- A call begins, on a connection on which `segment` has arrived. -/
def Server.call (s : Server ω) (segment : Bytes) : Held ω :=
  ⟨segment, s.descriptors, s.streams, [], [], s.world⟩

/-- If the first line asks for a path, it exists. -/
def PathExists (k : Kernel ω) (stack : Stack) (segment : Bytes) (w : ω) : Prop :=
  ∀ pfile, lookup (takeLine 4095 segment).1 stack.words = .ok (some pfile) →
    (k.stat pfile w).1 ≠ none

section

variable {ended : Bool} {k : Kernel ω} {connfd : ℕ} {stack : Stack} {segment : Bytes} {fuel : ℕ}
  {s : Server ω} {h : Held ω} {r : ℤ}

/-- **What a call can do**: close its connection behind an answer, answer a path that does not
exist, or announce nothing. -/
theorem call_cases (hconn : (connfd : ℤ) ∈ s.descriptors)
    (hok : httpRequest (held ended k) fuel connfd stack (s.call segment) = .ok (r, h)) :
    (Shut connfd (s.call segment) h ∧ PathExists k stack segment s.world) ∨
    (Kept connfd (s.call segment) h ∧ ¬PathExists k stack segment s.world) ∨
    (Kept connfd (s.call segment) h ∧ ¬Announced h.sends) := by
  have hfd : (0 : ℤ) ≤ connfd := Int.natCast_nonneg connfd
  have hf : ∀ peek input, (held ended k).recv connfd peek { s.call segment with input := input } =
      Prod.map id (fun input ↦ { s.call segment with input := input })
        (streamRecv (ending ended) peek input) := fun _ _ ↦ rfl
  obtain ⟨rest, pfile, hlookup, hanswer⟩ :=
    httpRequest_eq_ok (f := fun input ↦ { s.call segment with input := input })
      (ends_ending ended) hf hok
  cases pfile with
  | none =>
    subst hanswer
    exact Or.inr (Or.inr ⟨⟨rfl, rfl, rfl⟩, not_announced_nil⟩)
  | some pfile =>
    have hexists : PathExists k stack segment s.world ↔ (k.stat pfile s.world).1 ≠ none := by
      constructor
      · intro hpath
        exact hpath pfile hlookup
      · intro hstat pfile' hlookup'
        obtain rfl := Option.some_inj.mp (Except.ok.inj (hlookup.symm.trans hlookup'))
        exact hstat
    cases hstat : (k.stat pfile s.world).1 with
    | none =>
      have hkept := respond_missing hstat hconn hfd hanswer
      have hmissing : ¬PathExists k stack segment s.world := by
        rw [hexists, not_not]
        exact hstat
      exact Or.inr (Or.inl ⟨⟨hkept.descriptors, hkept.streams, hkept.count⟩, hmissing⟩)
    | some st =>
      by_cases hkind : st.kind = .other
      · obtain ⟨hkept, hsends⟩ := respond_else hstat hkind hanswer
        refine Or.inr (Or.inr ⟨⟨hkept.descriptors, hkept.streams, hkept.count⟩, ?_⟩)
        rw [hsends]
        exact not_announced_nil
      · have hshut := respond_found hstat hkind hconn hfd hanswer
        have hfound : PathExists k stack segment s.world := by
          rw [hexists, hstat]
          exact Option.some_ne_none st
        exact Or.inl ⟨⟨hshut.descriptors, hshut.streams, hshut.count⟩, hfound⟩

/-- **A call that has announced the closing** closes its connection once if and only if its path
exists. -/
theorem closes_once_iff (hconn : (connfd : ℤ) ∈ s.descriptors)
    (hok : httpRequest (held ended k) fuel connfd stack (s.call segment) = .ok (r, h))
    (hannounced : Announced h.sends) :
    h.closes.count (connfd : ℤ) = 1 ↔ PathExists k stack segment s.world := by
  have hnone : (s.call segment).closes.count (connfd : ℤ) = 0 := rfl
  rcases call_cases hconn hok with ⟨hshut, hpath⟩ | ⟨hkept, hmissing⟩ | ⟨-, hsilent⟩
  · refine iff_of_true ?_ hpath
    rw [hshut.count, hnone]
  · refine iff_of_false ?_ hmissing
    rw [hkept.count, hnone]
    exact Nat.zero_ne_one
  · exact absurd hannounced hsilent

end

/-! ## Runs -/

/-- What happens to the server: a connection is accepted, the world changes by itself, or a segment
arrives on a connection, perhaps with the end of the stream behind it, and `http_request` is
called. -/
inductive Label (ω : Type)
  | accept (fd : ℕ)
  | change (w : ω)
  | request (connfd : ℕ) (segment : Bytes) (ended : Bool) (stack : Stack) (fuel : ℕ)

/-- The server after a call. -/
def Server.returned (s : Server ω) (connfd : ℕ) (h : Held ω) : Server ω where
  descriptors := h.descriptors
  streams := h.streams
  accepted := s.accepted
  closings :=
    if Announced h.sends then s.closings ++ [h.closes.count (connfd : ℤ)] else s.closings
  world := h.world

/-- A call that leaves the defined behaviour or does not return is no step. -/
def step (k : Kernel ω) (s : Server ω) : Label ω → Option (Server ω)
  | .accept fd =>
    Transition.guarded ((fd : ℤ) ∉ s.descriptors)
      { s with descriptors := insert (fd : ℤ) s.descriptors, accepted := s.accepted + 1 }
  | .change w => some { s with world := w }
  | .request connfd segment ended stack fuel =>
    if (connfd : ℤ) ∈ s.descriptors then
      match httpRequest (held ended k) fuel connfd stack (s.call segment) with
      | .ok (_, h) => some (s.returned connfd h)
      | .error _ => none
    else none

/-- Each call that announced it has closed its connection once, and each of them has given a
descriptor back. -/
def Server.Promised (s : Server ω) : Prop :=
  (∀ n ∈ s.closings, n = 1) ∧
    s.descriptors.card + s.streams + s.closings.length ≤ s.accepted

/-- A call that announces the closing has found its path. -/
def Found (k : Kernel ω) (s : Server ω) : Label ω → Prop
  | .request connfd segment ended stack fuel => ∀ r h,
    httpRequest (held ended k) fuel connfd stack (s.call segment) = .ok (r, h) →
      Announced h.sends → PathExists k stack segment s.world
  | _ => True

/-- A request whose path exists. -/
def Existing (k : Kernel ω) (s : Server ω) : Label ω → Prop
  | .request _ segment _ stack _ => PathExists k stack segment s.world
  | _ => True

theorem Existing.found {k : Kernel ω} {s : Server ω} {a : Label ω} (h : Existing k s a) :
    Found k s a := by
  cases a with
  | accept fd => trivial
  | change w => trivial
  | request connfd segment ended stack fuel =>
    intro r t hcall hann
    exact h

theorem step_request_eq_some {k : Kernel ω} {s t : Server ω} {connfd : ℕ} {segment : Bytes}
    {ended : Bool} {stack : Stack} {fuel : ℕ}
    (hstep : step k s (.request connfd segment ended stack fuel) = some t) :
    (connfd : ℤ) ∈ s.descriptors ∧ ∃ r h,
      httpRequest (held ended k) fuel connfd stack (s.call segment) = .ok (r, h) ∧
      t = s.returned connfd h := by
  rw [step] at hstep
  obtain ⟨hconn, hstep⟩ := Option.ite_none_right_eq_some.mp hstep
  rcases hcall : httpRequest (held ended k) fuel connfd stack (s.call segment) with e | ⟨r, h⟩
  · rw [hcall] at hstep
    cases hstep
  · rw [hcall] at hstep
    exact ⟨hconn, r, h, rfl, (Option.some_inj.mp hstep).symm⟩

theorem Server.Promised.returned {s : Server ω} {connfd : ℕ} {segment : Bytes} {h : Held ω}
    (hs : s.Promised) (hconn : (connfd : ℤ) ∈ s.descriptors)
    (hcall : Shut connfd (s.call segment) h ∨
      Kept connfd (s.call segment) h ∧ ¬Announced h.sends) : (s.returned connfd h).Promised := by
  obtain ⟨hone, hcard⟩ := hs
  rcases hcall with hshut | ⟨hkept, hsilent⟩
  · have hcount : h.closes.count (connfd : ℤ) = 1 := hshut.count
    have hfreed : h.descriptors.card + 1 = s.descriptors.card := by
      rw [hshut.descriptors]
      exact Finset.card_erase_add_one hconn
    have hstreams : h.streams = s.streams := hshut.streams
    by_cases hann : Announced h.sends
    · constructor
      · intro n hn
        simp only [Server.returned, if_pos hann, List.mem_append, List.mem_singleton] at hn
        rcases hn with hn | rfl
        · exact hone n hn
        · exact hcount
      · simp only [Server.returned, if_pos hann, List.length_append, List.length_singleton]
        omega
    · constructor
      · simp only [Server.returned, if_neg hann]
        exact hone
      · simp only [Server.returned, if_neg hann]
        omega
  · have hdescriptors : h.descriptors = s.descriptors := hkept.descriptors
    have hstreams : h.streams = s.streams := hkept.streams
    constructor
    · simp only [Server.returned, if_neg hsilent]
      exact hone
    · simp only [Server.returned, if_neg hsilent, hdescriptors, hstreams]
      exact hcard

/-- One step keeps the promise exactly if it finds what it answers. -/
theorem step_promised {k : Kernel ω} {s t : Server ω} {a : Label ω} (hs : s.Promised)
    (hstep : step k s a = some t) : (Found k s a → t.Promised) ∧ (t.Promised → Found k s a) := by
  cases a with
  | accept fd =>
    obtain ⟨hfresh, rfl⟩ := Transition.guarded_eq_some.mp hstep
    refine ⟨fun _ ↦ ⟨hs.1, ?_⟩, fun _ ↦ trivial⟩
    show (insert (fd : ℤ) s.descriptors).card + s.streams + s.closings.length ≤ s.accepted + 1
    have hcard := hs.2
    rw [Finset.card_insert_of_notMem hfresh]
    omega
  | change w =>
    obtain rfl := Option.some_inj.mp hstep
    exact ⟨fun _ ↦ hs, fun _ ↦ trivial⟩
  | request connfd segment ended stack fuel =>
    obtain ⟨hconn, r, h, hcall, rfl⟩ := step_request_eq_some hstep
    constructor
    · intro hfound
      rcases call_cases hconn hcall with ⟨hshut, -⟩ | ⟨hkept, hmissing⟩ | hsilent
      · exact hs.returned hconn (Or.inl hshut)
      · have hsilent : ¬Announced h.sends := fun hann ↦ hmissing (hfound r h hcall hann)
        exact hs.returned hconn (Or.inr ⟨hkept, hsilent⟩)
      · exact hs.returned hconn (Or.inr hsilent)
    · intro ht r' h' hcall' hann
      obtain ⟨-, rfl⟩ := Prod.mk.inj (Except.ok.inj (hcall.symm.trans hcall'))
      refine (closes_once_iff hconn hcall hann).mp (ht.1 _ ?_)
      simp only [Server.returned, if_pos hann, List.mem_append, List.mem_singleton, or_true]

/-- **The promise over a run**, exactly: it is kept in every state if and only if every call that
makes it finds its path. -/
theorem promised_throughout_iff {k : Kernel ω} {w : ω} {labels : List (Label ω)} {s : Server ω}
    (hrun : Transition.run (step k) (Server.start w) labels = some s) :
    (∀ done t, done <+: labels → Transition.run (step k) (Server.start w) done = some t →
      t.Promised) ↔ Transition.Along (step k) (Found k) (Server.start w) labels := by
  have hstart : (Server.start w).Promised := by
    constructor
    · intro n hn
      exact absurd hn List.not_mem_nil
    · exact le_refl 0
  exact Transition.throughout_iff_along (fun _ hs ↦ hs)
    (fun _ _ _ hs hstep ↦ step_promised hs hstep) hstart hrun

/-- **`Connection: close`**, exactly, on every system `k`: a call that has announced it keeps to it
if and only if its path exists, and over a run the descriptors are given back if and only if this is
so of each such call. So they are if all paths exist. -/
theorem promise_kept_iff (k : Kernel ω) :
    (∀ (s : Server ω) (connfd : ℕ) segment ended stack fuel r h, (connfd : ℤ) ∈ s.descriptors →
      httpRequest (held ended k) fuel connfd stack (s.call segment) = .ok (r, h) →
      Announced h.sends →
      (h.closes.count (connfd : ℤ) = 1 ↔ PathExists k stack segment s.world)) ∧
    (∀ w labels s, Transition.run (step k) (Server.start w) labels = some s →
      ((∀ done t, done <+: labels → Transition.run (step k) (Server.start w) done = some t →
        t.Promised) ↔ Transition.Along (step k) (Found k) (Server.start w) labels)) ∧
    ∀ w labels s, Transition.run (step k) (Server.start w) labels = some s →
      Transition.Along (step k) (Existing k) (Server.start w) labels → s.Promised := by
  refine ⟨?_, ?_, ?_⟩
  · intro s connfd segment ended stack fuel r h hconn hok hannounced
    exact closes_once_iff hconn hok hannounced
  · intro w labels s hrun
    exact promised_throughout_iff hrun
  · intro w labels s hrun hexisting
    have hfound := hexisting.mono fun _ _ ↦ Existing.found
    exact (promised_throughout_iff hrun).mpr hfound labels s (List.prefix_refl labels) hrun

/-! ## On a site with one file -/

/-- A connection has been accepted. -/
def connected : Server World := ⟨{5}, 0, 1, [], World.start⟩

/-- A segment arrives on it. -/
def siteCall (segment : Bytes) : Checked (ℤ × Held World) :=
  httpRequest (held false (kernel site 5)) 64 5 .ones (connected.call segment)

def siteRun (segment : Bytes) : List (Label World) :=
  [.accept 5, .request 5 segment false .ones 64]

/-- There is nothing at the path. -/
def missingRequest : Bytes := ascii "GET /a HTTP/1.1\r\n\r\n"

theorem siteCall_eq_ok {segment : Bytes} {closes : List ℤ}
    (hcall : (siteCall segment).map (fun p ↦ (decide (Announced p.2.sends), p.2.closes)) =
      .ok (true, closes)) :
    ∃ r h, siteCall segment = .ok (r, h) ∧ Announced h.sends ∧ h.closes = closes := by
  rcases heq : siteCall segment with e | ⟨r, h⟩
  · rw [heq] at hcall
    cases hcall
  · rw [heq] at hcall
    obtain ⟨hann, hcloses⟩ := Prod.mk.inj (Except.ok.inj hcall)
    exact ⟨r, h, rfl, of_decide_eq_true hann, hcloses⟩

theorem run_siteRun {segment : Bytes} {r : ℤ} {h : Held World}
    (hcall : siteCall segment = .ok (r, h)) :
    Transition.run (step (kernel site 5)) (Server.start World.start) (siteRun segment) =
      some (connected.returned 5 h) := by
  have haccept : step (kernel site 5) (Server.start World.start) (.accept 5) = some connected := rfl
  have hrequest : step (kernel site 5) connected (.request 5 segment false .ones 64) =
      some (connected.returned 5 h) := by
    have hconn : ((5 : ℕ) : ℤ) ∈ connected.descriptors := Finset.mem_singleton_self 5
    rw [siteCall] at hcall
    rw [step, if_pos hconn]
    simp only [Nat.cast_ofNat, hcall]
  exact Transition.run_cons_of haccept (Transition.run_cons_of hrequest (Transition.run_nil _))

theorem siteCall_index : (siteCall indexRequest).map
    (fun p ↦ (decide (Announced p.2.sends), p.2.closes)) = .ok (true, [6, 5]) := by
  decide +kernel

theorem promise_kept_index :
    (∃ r h, siteCall indexRequest = .ok (r, h) ∧
      (h.closes.count (5 : ℤ) = 1 ↔
        PathExists (kernel site 5) .ones indexRequest World.start)) ∧
    ((∀ done t, done <+: siteRun indexRequest →
      Transition.run (step (kernel site 5)) (Server.start World.start) done = some t →
        t.Promised) ↔ Transition.Along (step (kernel site 5)) (Found (kernel site 5))
          (Server.start World.start) (siteRun indexRequest)) ∧
    ∃ r h, siteCall indexRequest = .ok (r, h) ∧ (connected.returned 5 h).Promised := by
  obtain ⟨r, h, hcall, hann, hcloses⟩ := siteCall_eq_ok siteCall_index
  have hconn : ((5 : ℕ) : ℤ) ∈ connected.descriptors := Finset.mem_singleton_self 5
  obtain ⟨hcalls, hruns, hexisting⟩ := promise_kept_iff (kernel site 5)
  have hcount : h.closes.count ((5 : ℕ) : ℤ) = 1 := by
    rw [hcloses]
    decide
  have honce := hcalls connected 5 indexRequest false .ones 64 r h hconn hcall hann
  refine ⟨⟨r, h, hcall, honce⟩, hruns _ _ _ (run_siteRun hcall), r, h, hcall, ?_⟩
  refine hexisting _ _ _ (run_siteRun hcall) ⟨trivial, fun t ht ↦ ⟨?_, fun _ _ ↦ trivial⟩⟩
  obtain ⟨-, rfl⟩ := Transition.guarded_eq_some.mp ht
  exact honce.mp hcount

/-- A path that does not exist is answered, with the announcement, and only the page for it is
closed. -/
theorem not_promise_kept :
    (¬∀ (k : Kernel World) (s : Server World) (connfd : ℕ) segment ended stack fuel r h,
      (connfd : ℤ) ∈ s.descriptors →
      httpRequest (held ended k) fuel connfd stack (s.call segment) = .ok (r, h) →
      Announced h.sends → h.closes.count (connfd : ℤ) = 1) ∧
    ¬∀ (k : Kernel World) w labels s,
      Transition.run (step k) (Server.start w) labels = some s → s.Promised := by
  have hmissing : (siteCall missingRequest).map
      (fun p ↦ (decide (Announced p.2.sends), p.2.closes)) = .ok (true, [-1]) := by
    decide +kernel
  obtain ⟨r, h, hcall, hann, hcloses⟩ := siteCall_eq_ok hmissing
  have hconn : ((5 : ℕ) : ℤ) ∈ connected.descriptors := Finset.mem_singleton_self 5
  have hopen : ¬h.closes.count ((5 : ℕ) : ℤ) = 1 := by
    rw [hcloses]
    decide
  constructor
  · intro hkept
    exact hopen (hkept (kernel site 5) connected 5 missingRequest false .ones 64 r h hconn hcall
      hann)
  · intro hkept
    have hpromised := hkept (kernel site 5) _ _ _ (run_siteRun hcall)
    refine hopen (hpromised.1 _ ?_)
    simp only [Server.returned, if_pos hann, List.mem_append, List.mem_singleton, or_true]

end WebServer

end CodeOnLinux
