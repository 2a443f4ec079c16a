import CodeOnLinux.WebServer.Sessions

/-!
# Events that the main loop leaves out

The loop does not serve each connection that becomes readable. Bytes are stranded on a connection,
so that no call will read them until the client sends more, if and only if the event that reported
them was left out (`stranded_iff`): behind an event that was served, because of the `i++` in the
`printf`, or behind a `fcntl` that failed, where the loop breaks off. Two clients whose requests are
reported together are enough (`second_request_stranded`).
-/

namespace CodeOnLinux

namespace WebServer

open Memory Stdio Pub Lines Checked Transition

namespace System

variable {fs : FileSystem} {limit : ℕ} {s t : System} {a : Label} {n m fd : ℕ}

/-! ## Stranded bytes -/

/-- Bytes have arrived that no call has read, and nothing is left that would lead to one. -/
structure Stranded (s : System) (n : ℕ) : Prop where
  /-- The connection was accepted. -/
  accepted : n < s.accepted
  /-- Something has arrived on it that no call has read. -/
  unread : (s.sessions n).input ≠ []
  /-- It did not become readable since it was last reported. -/
  noEdge : (s.sessions n).ready = false
  /-- No event is left that would lead to a call. -/
  noEvent : ∀ e ∈ s.batch, s.sessionAt e.fd = some n → e.epollIn = false

/-- The step goes past the event for the connection without looking at it: behind an event that was
served, or by leaving the loop. -/
def Skips (n : ℕ) (s : System) : Label → Prop
  | .accept _ | .request _ _ =>
    ∃ e₁ e₂ rest, s.batch = e₁ :: e₂ :: rest ∧ e₂.epollIn = true ∧ s.sessionAt e₂.fd = some n
  | .fcntlFails => ∃ e ∈ s.batch.tail, e.epollIn = true ∧ s.sessionAt e.fd = some n
  | _ => False

/-- It is skipped with bytes to be read, and nothing has arrived since it was reported. -/
def Loses (n : ℕ) (s : System) (a : Label) : Prop :=
  Skips n s a ∧ (s.sessions n).input ≠ [] ∧ (s.sessions n).ready = false

/-- The client does nothing. -/
def Label.Silent (n : ℕ) : Label → Prop
  | .arrive m _ => m ≠ n
  | .shutDown m => m ≠ n
  | _ => True

theorem sessionAt_congr (h : t.table fd = s.table fd) : t.sessionAt fd = s.sessionAt fd := by
  rw [sessionAt, sessionAt, h]

/-- A step that leaves the connection alone, and of the events takes only some that say nothing
about it. -/
theorem stranded_congr (hsession : t.sessions n = s.sessions n)
    (haccepted : t.accepted = s.accepted)
    (hevents : (∀ e ∈ t.batch, t.sessionAt e.fd = some n → e.epollIn = false) ↔
      ∀ e ∈ s.batch, s.sessionAt e.fd = some n → e.epollIn = false) :
    Stranded t n ↔ Stranded s n := by
  constructor
  · intro h
    exact ⟨haccepted ▸ h.accepted, hsession ▸ h.unread, hsession ▸ h.noEdge, hevents.mp h.noEvent⟩
  · intro h
    exact ⟨haccepted ▸ h.accepted, hsession ▸ h.unread, hsession ▸ h.noEdge, hevents.mpr h.noEvent⟩

/-- An event that was served, for another connection: the next one is lost. -/
theorem stranded_served (hs : Sound fs s) {e : Event} {rest : List Event}
    (hbatch : s.batch = e :: rest) (hhead : s.sessionAt e.fd ≠ some n)
    (hsession : t.sessions n = s.sessions n) (haccepted : n < t.accepted ↔ n < s.accepted)
    (hat : ∀ e ∈ rest, t.sessionAt e.fd = s.sessionAt e.fd) (ht : t.batch = rest.drop 1) :
    Stranded t n ↔ (∃ e₁ e₂ rest, s.batch = e₁ :: e₂ :: rest ∧ e₂.epollIn = true ∧
        s.sessionAt e₂.fd = some n) ∧ (s.sessions n).input ≠ [] ∧ (s.sessions n).ready = false ∨
      Stranded s n := by
  constructor
  · intro h
    have hunread := hsession ▸ h.unread
    have hready := hsession ▸ h.noEdge
    rw [or_iff_not_imp_left]
    intro hnot
    refine ⟨haccepted.mp h.accepted, hunread, hready, ?_⟩
    rw [hbatch]
    refine List.forall_mem_cons.mpr ⟨fun hn ↦ absurd hn hhead, fun e' he' hn ↦ ?_⟩
    cases rest with
    | nil => exact absurd he' List.not_mem_nil
    | cons e₂ rest =>
      rcases List.mem_cons.mp he' with rfl | htail
      · exact eq_false_of_ne_true fun hin ↦ hnot ⟨⟨e, e', rest, hbatch, hin, hn⟩, hunread, hready⟩
      · exact h.noEvent e' (by rwa [ht]) ((hat e' he').trans hn)
  · rintro (⟨⟨e₁, e₂, rest', hbatch', -, hn⟩, hunread, hready⟩ | h)
    · obtain ⟨rfl, rfl⟩ := List.cons.inj (hbatch.symm.trans hbatch')
      have htable := sessionAt_eq_some.mp hn
      refine ⟨haccepted.mpr (hs.socket htable).1, hsession ▸ hunread, hsession ▸ hready, ?_⟩
      -- no other event is for the same descriptor
      intro e' he' hn'
      rw [ht, List.drop_one, List.tail_cons] at he'
      rw [hat e' (List.mem_cons_of_mem _ he')] at hn'
      have hnodup := hs.nodup
      rw [hbatch, List.map_cons, List.nodup_cons, List.map_cons, List.nodup_cons] at hnodup
      have hsame : e'.fd = e₂.fd := hs.unique (sessionAt_eq_some.mp hn') htable
      exact absurd (hsame ▸ List.mem_map_of_mem he') hnodup.2.1
    · refine ⟨haccepted.mpr h.accepted, hsession ▸ h.unread, hsession ▸ h.noEdge, ?_⟩
      intro e' he' hn'
      rw [ht] at he'
      have hmem : e' ∈ rest := List.mem_of_mem_drop he'
      exact h.noEvent e' (hbatch ▸ List.mem_cons_of_mem _ hmem) ((hat e' hmem).symm.trans hn')

theorem stranded_reported (hs : Sound fs s) {events : List Event} (hbatch : s.batch = [])
    (hreports : ∀ e ∈ events, s.reports e = true) :
    Stranded (s.reported events) n ↔ Stranded s n := by
  have hsame : ∀ e ∈ events, s.sessionAt e.fd = some n → e.epollIn = (s.sessions n).ready := by
    intro e he hn
    have hreport := hreports e he
    rw [reports, hn] at hreport
    split_ifs at hreport with hfd
    · exact absurd hn (hfd ▸ hs.sessionAt_sockfd)
    · exact eq_of_beq hreport
  have hinput : ((s.reported events).sessions n).input = (s.sessions n).input := by
    simp only [reported]
    split_ifs <;> rfl
  constructor
  · intro h
    refine ⟨h.accepted, hinput ▸ h.unread, ?_, by rw [hbatch]; simp⟩
    by_cases hany : (events.any fun e ↦ s.sessionAt e.fd == some n) = true
    · obtain ⟨e, he, hn⟩ := List.any_eq_true.mp hany
      rw [← hsame e he (eq_of_beq hn)]
      exact h.noEvent e he (eq_of_beq hn)
    · have hready := h.noEdge
      simp only [reported, if_neg hany] at hready
      exact hready
  · intro h
    refine ⟨h.accepted, hinput ▸ h.unread, ?_, fun e he hn ↦ (hsame e he hn).trans h.noEdge⟩
    simp only [reported]
    split_ifs
    · rfl
    · exact h.noEdge

/-- An event that leads to nothing was not one for this connection. -/
theorem stranded_left {e : Event} {rest : List Event} (hbatch : s.batch = e :: rest)
    (hhead : s.sessionAt e.fd = some n → e.epollIn = false) :
    Stranded { s with batch := rest } n ↔ Stranded s n := by
  refine stranded_congr rfl rfl ?_
  rw [hbatch, List.forall_mem_cons]
  exact ⟨fun h ↦ ⟨hhead, h⟩, fun h ↦ h.2⟩

theorem stranded_left_loop (hs : Sound fs s) {e : Event} {rest : List Event}
    (hbatch : s.batch = e :: rest) (hfd : e.fd = sockfd) :
    Stranded { s.put fd (some .reserved) with batch := [] } n ↔
      Loses n s .fcntlFails ∨ Stranded s n := by
  constructor
  · intro h
    rw [or_iff_not_imp_left]
    intro hnot
    refine ⟨h.accepted, h.unread, h.noEdge, ?_⟩
    rw [hbatch]
    refine List.forall_mem_cons.mpr ⟨fun hn ↦ absurd hn (hfd ▸ hs.sessionAt_sockfd), ?_⟩
    refine fun e' he' hn ↦ eq_false_of_ne_true fun hin ↦
      hnot ⟨⟨e', ?_, hin, hn⟩, h.unread, h.noEdge⟩
    rwa [hbatch]
  · rintro (⟨⟨e', -, -, hn⟩, hunread, hready⟩ | h)
    · exact ⟨(hs.socket (sessionAt_eq_some.mp hn)).1, hunread, hready,
        fun e he ↦ absurd he List.not_mem_nil⟩
    · exact ⟨h.accepted, h.unread, h.noEdge, fun e he ↦ absurd he List.not_mem_nil⟩

/-- A step that skips nothing, while the client does nothing. -/
theorem stranded_kept (h : Stranded t n ↔ Stranded s n) (hskips : ¬Skips n s a)
    (hsilent : Label.Silent n a) :
    Stranded t n ↔ Loses n s a ∨ Stranded s n ∧ Label.Silent n a := by
  rw [h, or_iff_right fun h ↦ hskips h.1, and_iff_left hsilent]

/-- **One step**: a connection is stranded behind it if the step loses its event, or if it was
stranded before and its client did nothing. -/
theorem stranded_step (hs : Sound fs s) (h : System.step fs limit s a = some t) (n : ℕ) :
    Stranded t n ↔ Loses n s a ∨ Stranded s n ∧ Label.Silent n a := by
  cases step_cases hs h with
  | @arrive m segment hsending hne =>
    by_cases hm : n = m
    · subst hm
      refine iff_of_false (fun h ↦ ?_) (not_or.mpr ⟨fun h ↦ h.1, fun h ↦ h.2 rfl⟩)
      have hready := h.noEdge
      rw [sessions_modify_self] at hready
      cases hready
    · exact stranded_kept (stranded_congr (sessions_modify_of_ne hm) rfl Iff.rfl) id (Ne.symm hm)
  | @shutDown m hsending =>
    by_cases hm : n = m
    · subst hm
      refine iff_of_false (fun h ↦ ?_) (not_or.mpr ⟨fun h ↦ h.1, fun h ↦ h.2 rfl⟩)
      have hready := h.noEdge
      rw [sessions_modify_self] at hready
      cases hready
    · exact stranded_kept (stranded_congr (sessions_modify_of_ne hm) rfl Iff.rfl) id (Ne.symm hm)
  | wait hbatch hnodup hreports =>
    exact stranded_kept (stranded_reported hs hbatch hreports) id trivial
  | pass hbatch hin =>
    exact stranded_kept (stranded_left hbatch fun _ ↦ hin) id trivial
  | acceptFails hbatch hfd =>
    have hhead := hs.sessionAt_sockfd (n := n)
    exact stranded_kept (stranded_left hbatch fun hn ↦ absurd (hfd ▸ hn) hhead) id trivial
  | epollCtlFails hbatch hfd =>
    have hhead := hs.sessionAt_sockfd (n := n)
    exact stranded_kept (stranded_left hbatch fun hn ↦ absurd (hfd ▸ hn) hhead) id trivial
  | fcntlFails hbatch hfd hfree =>
    rw [and_iff_left (show Label.Silent n .fcntlFails from trivial)]
    exact stranded_left_loop hs hbatch hfd
  | @accept e rest fd early hbatch hfd hfree =>
    rw [and_iff_left (show Label.Silent n (.accept early) from trivial)]
    by_cases hn : n = s.accepted
    · -- a new connection is reported if something has arrived on it
      subst hn
      have hnot : ∀ {fd}, s.sessionAt fd ≠ some s.accepted := fun hat ↦
        Nat.lt_irrefl _ (hs.socket (sessionAt_eq_some.mp hat)).1
      refine iff_of_false (fun h ↦ ?_) ?_
      · have hunread := h.unread
        have hready := h.noEdge
        simp only [join, Function.update_self, Session.fresh] at hunread hready
        exact of_decide_eq_false hready hunread
      · rintro (⟨⟨e₁, e₂, rest', -, -, hat⟩, -⟩ | h)
        · exact hnot hat
        · exact Nat.lt_irrefl _ h.accepted
    · refine stranded_served hs hbatch (hfd ▸ hs.sessionAt_sockfd) (Function.update_of_ne hn ..) ?_
        (fun e' he' ↦ sessionAt_congr ?_) rfl
      · simp only [join]
        omega
      · exact Function.update_of_ne (hs.ne_of_free hfree (hbatch ▸ List.mem_cons_of_mem _ he')) ..
  | @request e rest m fuel stack pfile hbatch hin hfd hm hlookup =>
    rw [and_iff_left (show Label.Silent n (.request fuel stack) from trivial)]
    have hnodup := hs.nodup
    rw [hbatch, List.map_cons, List.nodup_cons] at hnodup
    have hrest : ∀ e' ∈ rest, e'.fd ≠ e.fd := fun e' he' heq ↦
      hnodup.1 (heq ▸ List.mem_map_of_mem he')
    by_cases hn : n = m
    · -- the call has read what there was
      subst hn
      refine iff_of_false (fun h ↦ h.unread ?_) ?_
      · exact congrArg Session.input sessions_answered_self
      · rintro (⟨⟨e₁, e₂, rest', hbatch', -, hat⟩, -⟩ | h)
        · obtain ⟨rfl, rfl⟩ := List.cons.inj (hbatch.symm.trans hbatch')
          exact hrest e₂ List.mem_cons_self (hs.unique (sessionAt_eq_some.mp hat) hm)
        · have hfalse := h.noEvent e (hbatch ▸ List.mem_cons_self) (sessionAt_eq_some.mpr hm)
          rw [hin] at hfalse
          cases hfalse
    · have haccepted : n < (s.answered (s.files fs limit) e.fd m pfile.toList).accepted ↔
          n < s.accepted := by
        rw [accepted_answered]
      refine stranded_served hs hbatch ?_ (sessions_answered_of_ne hn) haccepted
        (fun e' he' ↦ sessionAt_congr (table_answered_of_ne (hrest e' he'))) rfl
      rw [sessionAt_eq_some.mpr hm, Ne, Option.some_inj]
      exact fun h ↦ hn h.symm

/-- **Stranded bytes**, exactly: after a run nothing is left that would lead to a call for what has
arrived on a connection if and only if some step went past its event, with these bytes there to be
read, and its client has done nothing since. -/
theorem stranded_iff {labels : List Label}
    (hrun : run (System.step fs limit) start labels = some s) (n : ℕ) :
    Stranded s n ↔ ∃ done a rest u v, labels = done ++ a :: rest ∧
      run (System.step fs limit) start done = some u ∧ Loses n u a ∧
      System.step fs limit u a = some v ∧
      Along (System.step fs limit) (fun _ ↦ Label.Silent n) v rest := by
  rw [holds_iff_since (C := fun _ _ ↦ True) (fun _ _ _ hs _ h ↦ Sound.step hs h)
    (fun _ _ _ hs _ h ↦ stranded_step hs h n) (sound_start fs) (along_true start labels) hrun]
  exact or_iff_right fun h ↦ Nat.not_lt_zero n h.1.accepted

/-- Two clients, whose requests have both arrived when the loop waits. -/
def bothReady : List Label :=
  [.wait [⟨3, true⟩], .accept indexRequest, .wait [⟨3, true⟩], .accept indexRequest,
    .wait [⟨5, true⟩, ⟨6, true⟩]]

/-- The second of them is not answered, and nothing but more bytes from him can change that. -/
theorem second_request_stranded : ∃ s,
    run (System.step site 8) start (bothReady ++ [.request 40 .ones]) = some s ∧ s.Stranded 1 := by
  have hbefore : (run (System.step site 8) start bothReady).map (fun u ↦
      (u.batch, u.sessionAt 6, (u.sessions 1).input, (u.sessions 1).ready)) =
        some ([⟨5, true⟩, ⟨6, true⟩], some 1, indexRequest, false) := by decide +kernel
  obtain ⟨u, hu, hfacts⟩ := Option.map_eq_some_iff.mp hbefore
  obtain ⟨hbatch, hat, hinput, hready⟩ : _ ∧ _ ∧ _ ∧ _ := by
    simpa only [Prod.mk.injEq] using hfacts
  have hafter :
      (run (System.step site 8) start (bothReady ++ [.request 40 .ones])).isSome = true := by
    decide +kernel
  obtain ⟨s, hs⟩ := Option.isSome_iff_exists.mp hafter
  obtain ⟨u', hu', hlast⟩ := run_append_eq_some.mp hs
  obtain rfl := Option.some_inj.mp (hu.symm.trans hu')
  obtain ⟨v, hv, -⟩ := run_cons_eq_some.mp hlast
  refine ⟨s, hs, (stranded_iff hs 1).mpr ?_⟩
  refine ⟨bothReady, _, [], u, v, rfl, hu, ⟨⟨_, _, _, hbatch, rfl, hat⟩, ?_, hready⟩, hv, trivial⟩
  rw [hinput]
  exact List.cons_ne_nil _ _

end System

end WebServer

end CodeOnLinux
