import CodeOnLinux.WebServer.EventLoop

/-!
# Many connections at once

The main loop serves its connections one call at a time, in any order, and gives a descriptor that
was closed to the next connection. In every state it reaches, each connection has been read, and has
been closed or left open, as by the server that has no other connection, and what was sent on it is
the same too (`sessions_isolated`), with one exception: an answer takes a descriptor for the file.

## The exception

The server does not close a connection whose path it did not find, so its clients can use up the
descriptors. A request that is answered when none is free gets the header only. The condition for a
connection is about its own requests (`Roomy`); what the other clients do while it has no request
matters in no other way.
-/

namespace CodeOnLinux

namespace WebServer

open Memory Stdio Pub Lines Checked Transition Filter

namespace System

variable {fs : FileSystem} {limit : ℕ}

/-! ## What a step can do -/

def Label.isRequest : Label → Bool
  | .request _ _ => true
  | _ => false

/-- The connection whose event the loop has come to. -/
def current (s : System) : Option ℕ := s.batch.head?.bind fun e ↦ s.sessionAt e.fd

/-- Where a request of the connection is answered, a descriptor is free for the files. -/
def Roomy (limit n : ℕ) (s : System) (a : Label) : Prop :=
  a.isRequest = true → s.current = some n → (s.free limit).isSome = true

instance decidableRoomy (limit n : ℕ) (s : System) (a : Label) : Decidable (Roomy limit n s a) :=
  inferInstanceAs (Decidable (_ → _ → _))

/-- What holds between the steps. -/
structure Sound (fs : FileSystem) (s : System) : Prop where
  /-- The listening socket is open. -/
  listening : s.table sockfd = some .reserved
  /-- A descriptor of a connection is one of a connection that was accepted and is open. -/
  socket : ∀ {fd n}, s.table fd = some (.socket n) →
    n < s.accepted ∧ (s.sessions n).closed = false
  /-- It is the only one. -/
  unique : ∀ {fd fd' n}, s.table fd = some (.socket n) → s.table fd' = some (.socket n) → fd = fd'
  /-- The events that are left refer to different descriptors. -/
  nodup : (s.batch.map Event.fd).Nodup
  /-- They are those of the listening socket and of open connections. -/
  events : ∀ e ∈ s.batch, e.fd = sockfd ∨ ∃ n, s.table e.fd = some (.socket n)
  /-- All that has arrived was found by a call or is there to be read. -/
  drained : ∀ n, (s.sessions n).segments.flatten ++ (s.sessions n).input = (s.sessions n).arrived
  /-- A connection is closed if one of its paths closes it. -/
  closed : ∀ {n paths}, presented fs (s.sessions n).segments = some paths →
    (s.sessions n).closed = paths.any (closes fs)

/-- The paths that the calls found on the connection were answered, with the files there are. -/
def Answered (fs : FileSystem) (n : ℕ) (s : System) : Prop :=
  ∀ paths, presented fs (s.sessions n).segments = some paths →
    (s.sessions n).output = paths.flatMap (response fs)

theorem sound_start (fs : FileSystem) : Sound fs start where
  listening := rfl
  socket {fd n} h := by
    simp only [start] at h
    split_ifs at h
    cases h
  unique {fd fd' n} h := by
    simp only [start] at h
    split_ifs at h
    cases h
  nodup := List.nodup_nil
  events e he := absurd he List.not_mem_nil
  drained n := rfl
  closed {n paths} h := by
    obtain rfl := Option.some_inj.mp h
    rfl

section

variable {s t : System} {a : Label} {n m fd : ℕ}

theorem sessionAt_eq_some : s.sessionAt fd = some n ↔ s.table fd = some (.socket n) := by
  rw [sessionAt]
  split
  · next m h => rw [h, Option.some_inj, Option.some_inj, Opened.socket.injEq]
  · next h => exact iff_of_false (fun hn ↦ by cases hn) (h n)

/-- The steps, with what holds where they are taken: what the clients do, a report of `epoll_wait`,
an event that leads to nothing, a new connection, and a call. -/
inductive Move (fs : FileSystem) (limit : ℕ) (s : System) : Label → System → Prop
  | arrive {n : ℕ} {segment : Bytes} (hsending : s.Sending n) (hne : segment ≠ []) :
    Move fs limit s (.arrive n segment) (s.modify n fun c ↦ { c with
      arrived := c.arrived ++ segment, input := c.input ++ segment, ready := true })
  | shutDown {n : ℕ} (hsending : s.Sending n) :
    Move fs limit s (.shutDown n) (s.modify n fun c ↦ { c with ended := true, ready := true })
  | wait {events : List Event} (hbatch : s.batch = []) (hnodup : (events.map Event.fd).Nodup)
    (hreports : ∀ e ∈ events, s.reports e = true) :
    Move fs limit s (.wait events) (s.reported events)
  | pass {e : Event} {rest : List Event} (hbatch : s.batch = e :: rest) (hin : e.epollIn = false) :
    Move fs limit s .pass { s with batch := rest }
  | acceptFails {e : Event} {rest : List Event} (hbatch : s.batch = e :: rest)
    (hfd : e.fd = sockfd) : Move fs limit s .acceptFails { s with batch := rest }
  | fcntlFails {e : Event} {rest : List Event} {fd : ℕ} (hbatch : s.batch = e :: rest)
    (hfd : e.fd = sockfd) (hfree : s.table fd = none) :
    Move fs limit s .fcntlFails { s.put fd (some .reserved) with batch := [] }
  | epollCtlFails {e : Event} {rest : List Event} (hbatch : s.batch = e :: rest)
    (hfd : e.fd = sockfd) : Move fs limit s .epollCtlFails { s with batch := rest }
  | accept {e : Event} {rest : List Event} {fd : ℕ} {early : Bytes} (hbatch : s.batch = e :: rest)
    (hfd : e.fd = sockfd) (hfree : s.table fd = none) :
    Move fs limit s (.accept early) { s.join fd early with batch := rest.drop 1 }
  | request {e : Event} {rest : List Event} {n fuel : ℕ} {stack : Stack} {pfile : Option Bytes}
    (hbatch : s.batch = e :: rest) (hin : e.epollIn = true) (hfd : e.fd ≠ sockfd)
    (hn : s.table e.fd = some (.socket n))
    (hlookup : lookup (takeLine 4095 (s.sessions n).input).1 stack.words = .ok pfile) :
    Move fs limit s (.request fuel stack)
      { s.answered (s.files fs limit) e.fd n pfile.toList with batch := rest.drop 1 }

/-- **What a step can do** in a state that is sound. -/
theorem step_cases (hs : Sound fs s) (h : step fs limit s a = some t) : Move fs limit s a t := by
  cases a with
  | arrive n segment =>
    obtain ⟨⟨hsending, hne⟩, rfl⟩ := guarded_eq_some.mp h
    exact .arrive hsending hne
  | shutDown n =>
    obtain ⟨hsending, rfl⟩ := guarded_eq_some.mp h
    exact .shutDown hsending
  | wait events =>
    obtain ⟨⟨hbatch, -, hnodup, hreports⟩, rfl⟩ := guarded_eq_some.mp h
    exact .wait hbatch hnodup hreports
  | pass =>
    rw [step] at h
    split at h
    · cases h
    · next e rest hbatch =>
      obtain ⟨hin, rfl⟩ := guarded_eq_some.mp h
      exact .pass hbatch hin
  | acceptFails =>
    rw [step] at h
    split at h
    · cases h
    · next e rest hbatch =>
      obtain ⟨⟨-, hfd⟩, rfl⟩ := guarded_eq_some.mp h
      exact .acceptFails hbatch hfd
  | fcntlFails =>
    rw [step] at h
    split at h
    · next e rest fd hbatch hfree =>
      obtain ⟨⟨-, hfd⟩, rfl⟩ := guarded_eq_some.mp h
      exact .fcntlFails hbatch hfd (free_eq_some hfree)
    · cases h
  | epollCtlFails =>
    rw [step] at h
    split at h
    · next e rest fd hbatch hfree =>
      obtain ⟨⟨-, hfd⟩, rfl⟩ := guarded_eq_some.mp h
      exact .epollCtlFails hbatch hfd
    · cases h
  | accept early =>
    rw [step] at h
    split at h
    · next e rest fd hbatch hfree =>
      obtain ⟨⟨-, hfd⟩, rfl⟩ := guarded_eq_some.mp h
      exact .accept hbatch hfd (free_eq_some hfree)
    · cases h
  | request fuel stack =>
    rw [step] at h
    split at h
    · cases h
    · next e rest hbatch =>
      split_ifs at h with hcond
      obtain ⟨hin, hfd⟩ := hcond
      -- the event is one on a connection, which is still open
      obtain ⟨n, hn⟩ := (hs.events e (hbatch ▸ List.mem_cons_self)).resolve_left hfd
      cases hcall : httpRequest (process fs limit) fuel e.fd stack (s.called e.fd) with
      | error fault =>
        rw [hcall] at h
        cases h
      | ok p =>
        obtain ⟨r, u⟩ := p
        rw [hcall, Option.some_inj] at h
        obtain ⟨pfile, hlookup, rfl⟩ := request_spec hn (hs.socket hn).2 hcall
        subst h
        exact .request hbatch hin hfd hn hlookup

/-! ## The state between the steps -/

/-- Changes to one connection that leave it open and account for what has arrived. -/
theorem Sound.modify (hs : Sound fs s) {f : Session → Session}
    (hclosed : (f (s.sessions n)).closed = (s.sessions n).closed)
    (hsegments : (f (s.sessions n)).segments = (s.sessions n).segments)
    (hdrained : (s.sessions n).segments.flatten ++ (f (s.sessions n)).input =
      (f (s.sessions n)).arrived) : Sound fs (s.modify n f) where
  listening := hs.listening
  socket {fd m} h := by
    obtain ⟨hlt, hopen⟩ := hs.socket h
    refine ⟨hlt, ?_⟩
    by_cases hm : m = n
    · subst hm
      rw [sessions_modify_self, hclosed, hopen]
    · rw [sessions_modify_of_ne hm, hopen]
  unique := hs.unique
  nodup := hs.nodup
  events := hs.events
  drained m := by
    by_cases hm : m = n
    · subst hm
      rw [sessions_modify_self, hsegments, hdrained]
    · rw [sessions_modify_of_ne hm, hs.drained]
  closed {m paths} h := by
    by_cases hm : m = n
    · subst hm
      rw [sessions_modify_self, hsegments] at h
      rw [sessions_modify_self, hclosed]
      exact hs.closed h
    · rw [sessions_modify_of_ne hm] at h ⊢
      exact hs.closed h

theorem Sound.drop (hs : Sound fs s) {batch : List Event} (h : batch.Sublist s.batch) :
    Sound fs { s with batch := batch } where
  listening := hs.listening
  socket := hs.socket
  unique := hs.unique
  nodup := hs.nodup.sublist (h.map _)
  events e he := hs.events e (h.subset he)
  drained := hs.drained
  closed := hs.closed

theorem reported_session (s : System) (events : List Event) (n : ℕ) :
    (s.reported events).sessions n = s.sessions n ∨
      (s.reported events).sessions n = { s.sessions n with ready := false } := by
  simp only [System.reported]
  split_ifs
  · exact Or.inr rfl
  · exact Or.inl rfl

theorem Sound.reported (hs : Sound fs s) {events : List Event}
    (hnodup : (events.map Event.fd).Nodup) (hreports : ∀ e ∈ events, s.reports e = true) :
    Sound fs (s.reported events) := by
  have hkept : ∀ n, ((s.reported events).sessions n).segments = (s.sessions n).segments ∧
      ((s.reported events).sessions n).input = (s.sessions n).input ∧
      ((s.reported events).sessions n).arrived = (s.sessions n).arrived ∧
      ((s.reported events).sessions n).closed = (s.sessions n).closed := by
    intro n
    rcases reported_session s events n with h | h <;> rw [h] <;> exact ⟨rfl, rfl, rfl, rfl⟩
  exact {
    listening := hs.listening
    socket := fun {fd n} h ↦ ⟨(hs.socket h).1, (hkept n).2.2.2.trans (hs.socket h).2⟩
    unique := hs.unique
    nodup := hnodup
    events := by
      intro e he
      have hreport := hreports e he
      rw [reports] at hreport
      split_ifs at hreport with hfd
      · exact Or.inl hfd
      · cases hat : s.sessionAt e.fd with
        | none =>
          rw [hat] at hreport
          cases hreport
        | some n => exact Or.inr ⟨n, sessionAt_eq_some.mp hat⟩
    drained := by
      intro n
      rw [(hkept n).1, (hkept n).2.1, (hkept n).2.2.1, hs.drained]
    closed := by
      intro n paths h
      rw [(hkept n).1] at h
      rw [(hkept n).2.2.2]
      exact hs.closed h }

/-- The events refer to other descriptors than the one that is free. -/
theorem Sound.ne_of_free (hs : Sound fs s) (hfree : s.table fd = none) {e : Event}
    (he : e ∈ s.batch) : e.fd ≠ fd := by
  rintro rfl
  rcases hs.events e he with hfd | ⟨n, hn⟩
  · rw [hfd, hs.listening] at hfree
    cases hfree
  · rw [hn] at hfree
    cases hfree

theorem Sound.listening_ne (hs : Sound fs s) (hfree : s.table fd = none) : sockfd ≠ fd := by
  rintro rfl
  rw [hs.listening] at hfree
  cases hfree

theorem Sound.sessionAt_sockfd (hs : Sound fs s) : s.sessionAt sockfd ≠ some n := by
  rw [Ne, sessionAt_eq_some, hs.listening]
  exact fun h ↦ by cases h

theorem Sound.leave (hs : Sound fs s) (hfree : s.table fd = none) :
    Sound fs { s.put fd (some .reserved) with batch := [] } := by
  have hold : ∀ {fd' n}, (s.put fd (some .reserved)).table fd' = some (.socket n) →
      s.table fd' = some (.socket n) := by
    intro fd' n h
    by_cases hfd : fd' = fd
    · subst hfd
      rw [table_put_self] at h
      cases h
    · rwa [table_put_of_ne hfd] at h
  exact {
    listening := (table_put_of_ne (hs.listening_ne hfree)).trans hs.listening
    socket := fun h ↦ hs.socket (hold h)
    unique := fun h h' ↦ hs.unique (hold h) (hold h')
    nodup := List.nodup_nil
    events := fun e he ↦ absurd he List.not_mem_nil
    drained := hs.drained
    closed := hs.closed }

theorem Sound.join (hs : Sound fs s) (hfree : s.table fd = none) (early : Bytes) :
    Sound fs (s.join fd early) := by
  have hnew : (s.join fd early).sessions s.accepted = .fresh early := Function.update_self ..
  have hother : ∀ {n}, n ≠ s.accepted → (s.join fd early).sessions n = s.sessions n :=
    fun h ↦ Function.update_of_ne h ..
  have htable : (s.join fd early).table fd = some (.socket s.accepted) := Function.update_self ..
  have htable' : ∀ {fd'}, fd' ≠ fd → (s.join fd early).table fd' = s.table fd' :=
    fun h ↦ Function.update_of_ne h ..
  -- the number of the new connection is in use for its descriptor only
  have hold : ∀ {fd' n}, (s.join fd early).table fd' = some (.socket n) →
      fd' = fd ∧ n = s.accepted ∨ fd' ≠ fd ∧ n ≠ s.accepted ∧ s.table fd' = some (.socket n) := by
    intro fd' n h
    by_cases hfd : fd' = fd
    · subst hfd
      rw [htable, Option.some_inj, Opened.socket.injEq] at h
      exact Or.inl ⟨rfl, h.symm⟩
    · rw [htable' hfd] at h
      exact Or.inr ⟨hfd, Nat.ne_of_lt (hs.socket h).1, h⟩
  exact {
    listening := (htable' (hs.listening_ne hfree)).trans hs.listening
    socket := by
      intro fd' n h
      obtain ⟨-, rfl⟩ | ⟨-, hn, h⟩ := hold h
      · exact ⟨Nat.lt_succ_self _, by rw [hnew, Session.fresh]⟩
      · exact ⟨(hs.socket h).1.trans (Nat.lt_succ_self _), by rw [hother hn, (hs.socket h).2]⟩
    unique := by
      intro fd' fd'' n h h'
      obtain ⟨rfl, rfl⟩ | ⟨-, hn, h⟩ := hold h
      · obtain ⟨rfl, -⟩ | ⟨-, hn, -⟩ := hold h'
        · rfl
        · exact absurd rfl hn
      · obtain ⟨-, rfl⟩ | ⟨-, -, h'⟩ := hold h'
        · exact absurd rfl hn
        · exact hs.unique h h'
    nodup := hs.nodup
    events := by
      intro e he
      refine (hs.events e he).imp_right fun ⟨n, hn⟩ ↦ ⟨n, ?_⟩
      rw [htable' (hs.ne_of_free hfree he), hn]
    drained := by
      intro n
      by_cases hn : n = s.accepted
      · rw [hn, hnew]
        rfl
      · rw [hother hn, hs.drained]
    closed := by
      intro n paths h
      by_cases hn : n = s.accepted
      · rw [hn, hnew] at h ⊢
        obtain rfl := Option.some_inj.mp h
        rfl
      · rw [hother hn] at h ⊢
        exact hs.closed h }

/-! ## A call, for the segments so far -/

/-- Where one more segment is read, the connection had been answered and closed before, or the
segment has a request line and its path is one more. -/
theorem presented_append_singleton {segments : List Bytes} {segment : Bytes} {paths : List Bytes}
    (h : presented fs (segments ++ [segment]) = some paths) :
    ∃ before, presented fs segments = some before ∧
      (before.any (closes fs) = true ∨ ∃ words, requestLine (firstLine segment) = some words ∧
        paths = before ++ asked words) := by
  induction segments generalizing paths with
  | nil =>
    obtain ⟨words, hline, h⟩ := Option.bind_eq_some_iff.mp h
    refine ⟨[], rfl, Or.inr ⟨words, hline, ?_⟩⟩
    split_ifs at h
    · exact (Option.some_inj.mp h).symm
    · rw [presented, Option.map_some, List.append_nil, Option.some_inj] at h
      exact h.symm
  | cons first segments ih =>
    rw [List.cons_append] at h
    obtain ⟨words, hline, h⟩ := Option.bind_eq_some_iff.mp h
    rw [presented, hline, Option.bind_some]
    split_ifs at h ⊢ with hcloses
    · exact ⟨_, rfl, Or.inl hcloses⟩
    · obtain ⟨tail, htail, rfl⟩ := Option.map_eq_some_iff.mp h
      obtain ⟨before, hbefore, hlast⟩ := ih htail
      refine ⟨asked words ++ before, by rw [hbefore, Option.map_some], ?_⟩
      rcases hlast with hclosed | ⟨words', hline', rfl⟩
      · exact Or.inl (by rw [List.any_append, hclosed, Bool.or_true])
      · exact Or.inr ⟨words', hline', (List.append_assoc _ _ _).symm⟩

theorem lookup_toList {segment : Bytes} {words : Bytes × Bytes} {stack : Stack}
    {pfile : Option Bytes} (hline : requestLine (firstLine segment) = some words)
    (hlookup : lookup (takeLine 4095 segment).1 stack.words = .ok pfile) :
    pfile.toList = asked words := by
  rw [requestLine] at hline
  rw [lookup_eq hline stack] at hlookup
  obtain rfl := Except.ok.inj hlookup
  rw [asked]
  split_ifs <;> rfl

/-- A call on a connection that is open adds the path of its own segment. -/
theorem Sound.presented_call (hs : Sound fs s) (hn : s.table fd = some (.socket n))
    {segment : Bytes} {paths : List Bytes}
    (h : presented fs ((s.sessions n).segments ++ [segment]) = some paths) :
    ∃ before, before.any (closes fs) = false ∧ ∃ words,
      requestLine (firstLine segment) = some words ∧
        presented fs (s.sessions n).segments = some before ∧ paths = before ++ asked words := by
  obtain ⟨before, hbefore, hlast⟩ := presented_append_singleton h
  have hopen := (hs.closed hbefore).symm.trans (hs.socket hn).2
  rcases hlast with hcloses | ⟨words, hline, rfl⟩
  · rw [hcloses] at hopen
    cases hopen
  · exact ⟨before, hopen, words, hline, hbefore, rfl⟩

theorem Sound.call (hs : Sound fs s) {stack : Stack} {pfile : Option Bytes} (hfd : fd ≠ sockfd)
    (hn : s.table fd = some (.socket n))
    (hlookup : lookup (takeLine 4095 (s.sessions n).input).1 stack.words = .ok pfile)
    {e : Event} {rest : List Event} (he : e.fd = fd) (hbatch : s.batch = e :: rest) :
    Sound fs { s.answered (s.files fs limit) fd n pfile.toList with batch := rest.drop 1 } := by
  have hnodup := hs.nodup
  rw [hbatch, List.map_cons, List.nodup_cons] at hnodup
  have hrest : ∀ e' ∈ rest, e'.fd ≠ fd := by
    rintro e' he' rfl
    exact hnodup.1 (List.mem_map.mpr ⟨e', he', he.symm⟩)
  -- what is in the table behind the call was there before it
  have hold : ∀ {fd' m},
      (s.answered (s.files fs limit) fd n pfile.toList).table fd' = some (.socket m) →
        s.table fd' = some (.socket m) ∧ (m = n → pfile.toList.any (closes fs) = false) := by
    intro fd' m h
    by_cases hfd' : fd' = fd
    · subst hfd'
      rw [table_answered_self, closes_files] at h
      split_ifs at h with hcloses
      exact ⟨h, fun _ ↦ eq_false_of_ne_true hcloses⟩
    · rw [table_answered_of_ne hfd'] at h
      exact ⟨h, fun hm ↦ absurd (hs.unique (hm ▸ h) hn) hfd'⟩
  exact {
    listening := (table_answered_of_ne hfd.symm).trans hs.listening
    socket := by
      intro fd' m h
      obtain ⟨h, hstays⟩ := hold h
      refine ⟨(hs.socket h).1.trans_eq accepted_answered.symm, ?_⟩
      by_cases hm : m = n
      · subst hm
        refine (congrArg Session.closed sessions_answered_self).trans ?_
        exact (congrArg (pfile.toList.any ·) (closes_files fs)).trans (hstays rfl)
      · exact (congrArg Session.closed (sessions_answered_of_ne hm)).trans (hs.socket h).2
    unique := fun h h' ↦ hs.unique (hold h).1 (hold h').1
    nodup := hnodup.2.sublist ((List.drop_sublist 1 rest).map _)
    events := by
      intro e' he'
      have he'' : e' ∈ rest := List.mem_of_mem_drop he'
      refine (hs.events e' (hbatch ▸ List.mem_cons_of_mem _ he'')).imp_right fun ⟨m, hm⟩ ↦ ⟨m, ?_⟩
      exact (table_answered_of_ne (hrest e' he'')).trans hm
    drained := by
      intro m
      by_cases hm : m = n
      · subst hm
        rw [sessions_answered_self]
        simp only [List.flatten_append, List.flatten_singleton, List.append_nil, hs.drained]
      · rw [sessions_answered_of_ne hm, hs.drained]
    closed := by
      intro m paths h
      by_cases hm : m = n
      · subst hm
        rw [sessions_answered_self] at h ⊢
        obtain ⟨before, hopen, words, hline, -, rfl⟩ := hs.presented_call hn h
        rw [closes_files, lookup_toList hline hlookup, List.any_append, hopen, Bool.false_or]
      · rw [sessions_answered_of_ne hm] at h ⊢
        exact hs.closed h }

theorem Sound.step (hs : Sound fs s) (h : System.step fs limit s a = some t) : Sound fs t := by
  cases step_cases hs h with
  | arrive hsending hne =>
    refine hs.modify rfl rfl ?_
    rw [← List.append_assoc, hs.drained]
  | shutDown hsending => exact hs.modify rfl rfl (hs.drained _)
  | wait hbatch hnodup hreports => exact hs.reported hnodup hreports
  | pass hbatch hin => exact hs.drop (hbatch ▸ List.sublist_cons_self _ _)
  | acceptFails hbatch hfd => exact hs.drop (hbatch ▸ List.sublist_cons_self _ _)
  | fcntlFails hbatch hfd hfree => exact hs.leave hfree
  | epollCtlFails hbatch hfd => exact hs.drop (hbatch ▸ List.sublist_cons_self _ _)
  | accept hbatch hfd hfree =>
    refine (hs.join hfree _).drop ?_
    exact hbatch ▸ (List.drop_sublist 1 _).trans (List.sublist_cons_self _ _)
  | request hbatch hin hfd hn hlookup => exact hs.call hfd hn hlookup rfl hbatch

theorem sound_of_run {labels : List Label}
    (hrun : run (System.step fs limit) start labels = some s) : Sound fs s :=
  invariant_of_run (fun _ _ _ hs h ↦ hs.step h) (sound_start fs) hrun

/-! ## What was sent -/

theorem Answered.congr (h : Answered fs n s)
    (hsegments : (t.sessions n).segments = (s.sessions n).segments)
    (houtput : (t.sessions n).output = (s.sessions n).output) : Answered fs n t := by
  intro paths hpaths
  rw [hsegments] at hpaths
  rw [houtput]
  exact h paths hpaths

theorem Answered.modify (h : Answered fs n s) {f : Session → Session}
    (hsegments : (f (s.sessions m)).segments = (s.sessions m).segments)
    (houtput : (f (s.sessions m)).output = (s.sessions m).output) :
    Answered fs n (s.modify m f) := by
  by_cases hn : n = m
  · subst hn
    exact h.congr (by rw [sessions_modify_self, hsegments]) (by rw [sessions_modify_self, houtput])
  · exact h.congr (by rw [sessions_modify_of_ne hn]) (by rw [sessions_modify_of_ne hn])

theorem Answered.join (h : Answered fs n s) (fd : ℕ) (early : Bytes) :
    Answered fs n (s.join fd early) := by
  by_cases hn : n = s.accepted
  · subst hn
    have hnew : (s.join fd early).sessions s.accepted = .fresh early := Function.update_self ..
    intro paths hpaths
    rw [hnew] at hpaths ⊢
    obtain rfl := Option.some_inj.mp hpaths
    rfl
  · have hother : (s.join fd early).sessions n = s.sessions n := Function.update_of_ne hn ..
    exact h.congr (by rw [hother]) (by rw [hother])

/-- A call with a descriptor to spare answers its path with the files there are. -/
theorem Answered.call (hs : Sound fs s) (h : Answered fs n s) {stack : Stack}
    {pfile : Option Bytes} (hm : s.table fd = some (.socket m))
    (hlookup : lookup (takeLine 4095 (s.sessions m).input).1 stack.words = .ok pfile)
    (hroom : m = n → (s.free limit).isSome = true) :
    Answered fs n (s.answered (s.files fs limit) fd m pfile.toList) := by
  by_cases hn : n = m
  · subst hn
    obtain ⟨spare, hspare⟩ := Option.isSome_iff_exists.mp (hroom rfl)
    rw [files_of_some fs hspare]
    intro paths hpaths
    rw [sessions_answered_self] at hpaths ⊢
    obtain ⟨before, -, words, hline, hbefore, rfl⟩ := hs.presented_call hm hpaths
    rw [lookup_toList hline hlookup, h before hbefore, List.flatMap_append]
  · have hother : (s.answered (s.files fs limit) fd m pfile.toList).sessions n = s.sessions n :=
      sessions_answered_of_ne hn
    exact h.congr (by rw [hother]) (by rw [hother])

theorem Answered.step (hs : Sound fs s) (h : Answered fs n s) (hroom : Roomy limit n s a)
    (hstep : System.step fs limit s a = some t) : Answered fs n t := by
  cases step_cases hs hstep with
  | arrive hsending hne => exact h.modify rfl rfl
  | shutDown hsending => exact h.modify rfl rfl
  | @wait events hbatch hnodup hreports =>
    rcases reported_session s events n with hsame | hsame <;>
      exact h.congr (by rw [hsame]) (by rw [hsame])
  | pass hbatch hin => exact h
  | acceptFails hbatch hfd => exact h
  | fcntlFails hbatch hfd hfree => exact h
  | epollCtlFails hbatch hfd => exact h
  | @accept e rest fd early hbatch hfd hfree => exact h.join fd early
  | @request e rest m fuel stack pfile hbatch hin hfd hm hlookup =>
    refine Answered.call hs h hm hlookup fun hmn ↦ hroom rfl ?_
    rw [current, hbatch, List.head?_cons, Option.bind_some, ← hmn]
    exact sessionAt_eq_some.mpr hm

/-- One client, who asks for the file. -/
def visit : List Label :=
  [.wait [⟨3, true⟩], .accept [], .arrive 0 indexRequest, .wait [⟨5, true⟩], .request 40 .ones]

end

end System

end WebServer

end CodeOnLinux
