import CodeOnLinux.ThreadServer.Server

/-!
# Isolation of the sessions

While `main` is in its loop the sessions are isolated: an entry that a thread points to lies below
`i` and is not written again, and a descriptor is closed by the thread that it belongs to
(`Separate`). What goes wrong is the way out.

## The way out

`main` leaves its loop when `accept` fails or when the table is full, and then calls
`close(peerfd)`. After a failed `accept` there is nothing in `peerfd`, so the call does nothing. But
when the table is full the descriptor of the last client is still there, and the call takes it from
the thread. So the sessions are isolated in a run exactly if the thread of the `MAX`-th client,
where there is one, has ended before `main` comes to that call (`sessions_isolated_iff`). With 128
clients who stay this is what happens (`sessions_not_isolated`).

## The entry that is being filled

`main` writes an entry in four steps, and creates the thread in a fifth. Other threads run in
between, but none of them has this entry, and none has the descriptor: it belongs to nobody but
`main` (`Pending`). `AtPc` says for each step of `main` what it relies on there. When the thread is
created it takes the entry as it is, and `main` goes on to the next one (`Separate.spawn`).

## Descriptors that come again

A descriptor that was closed may be given to the next client. The table says whom a descriptor
belongs to at the moment, and `closedBy` who has closed the connection of a client, not which
number was closed. So a thread that closes its own descriptor is told apart from one that closes a
number which has become another client's (`table_iff`).
-/

namespace CodeOnLinux

namespace ThreadServer

open Transition

/-- The entry of each session is its own, and so is its descriptor. -/
structure Isolated (s : State) : Prop where
  /-- The entry lies in `sock_info`. -/
  slot_lt : ∀ c se, s.sessions c = some se → se.slot < max
  /-- It is what it was when the thread was created. -/
  sockInfo_eq : ∀ c se, s.sessions c = some se → s.sockInfo se.slot = se.info
  /-- Nobody but this thread has closed the client's descriptor. -/
  closedBy : ∀ c se, s.sessions c = some se → ∀ who ∈ s.closedBy c, who = .session c

/-- When `main` comes to `close(peerfd)` with a full table, the thread of the last client has
ended. -/
def Harmless (s : State) : Label → Prop
  | .proceed => s.pc = .closingPeerfd → s.i = max →
      ∀ se ∈ s.sessions s.newest, se.phase = .ended
  | _ => True

instance (s : State) (a : Label) : Decidable (Harmless s a) := by
  cases a <;> unfold Harmless <;> infer_instance

/-! ## What the sessions rely on -/

/-- Sessions use entries that `main` is done with, and a client with a session is open under the
descriptor in its entry until the thread ends. -/
structure Separate (s : State) : Prop where
  /-- The sessions have their entries and descriptors. -/
  isolated : Isolated s
  /-- Nothing was done for those who are not accepted. -/
  unused : ∀ c, s.accepted ≤ c → s.sessions c = none ∧ s.closedBy c = []
  /-- Descriptors are those of accepted clients. -/
  table_lt : ∀ fd c, s.table fd = some (.client c) → c < s.accepted
  /-- A session uses an entry that `main` is done with. -/
  slot_lt_i : ∀ c se, s.sessions c = some se → se.slot < s.i
  /-- The descriptor in it is positive. -/
  sockFd_pos : ∀ c se, s.sessions c = some se → 0 < se.info.sockFd
  /-- The client is open under this descriptor until the thread ends. -/
  table_iff : ∀ c se, s.sessions c = some se → ∀ fd,
    s.table fd = some (.client c) ↔ fd = se.info.sockFd ∧ se.phase ≠ .ended

theorem Separate.of_eq {s t : State} (h : Separate s) (hinfo : t.sockInfo = s.sockInfo)
    (htable : t.table = s.table) (hsessions : t.sessions = s.sessions)
    (hclosed : t.closedBy = s.closedBy) (haccepted : t.accepted = s.accepted) (hi : t.i = s.i) :
    Separate t := by
  obtain ⟨⟨hlt, heq, hby⟩, hunused, htab, hslot, hpos, hiff⟩ := h
  refine ⟨⟨?_, ?_, ?_⟩, ?_, ?_, ?_, ?_, ?_⟩ <;> simpa only [hinfo, htable, hsessions, hclosed,
    haccepted, hi]

/-- A client that has not come yet is not one with a session. -/
theorem Separate.ne_of_le {s : State} (h : Separate s) {c d : ℕ} {se : Session}
    (hse : s.sessions c = some se) (hd : s.accepted ≤ d) : d ≠ c := by
  rintro rfl
  rw [(h.unused d hd).1] at hse
  cases hse

/-- A session after a change of phase is the one that has changed, or as it was before. -/
theorem setPhase_cases {s : State} {c d : ℕ} {se se' : Session} {phase : Phase}
    (h : (s.setPhase c se phase).sessions d = some se') :
    d = c ∧ se' = { se with phase := phase } ∨ d ≠ c ∧ s.sessions d = some se' := by
  by_cases hd : d = c
  · subst hd
    rw [s.setPhase_sessions_self, Option.some_inj] at h
    exact Or.inl ⟨rfl, h.symm⟩
  · rw [s.setPhase_sessions_of_ne se phase hd] at h
    exact Or.inr ⟨hd, h⟩

theorem Separate.connect {s : State} (h : Separate s) {fd : ℤ} (hnew : s.table fd = none) :
    Separate (s.connect fd) := by
  refine ⟨⟨h.isolated.slot_lt, h.isolated.sockInfo_eq, h.isolated.closedBy⟩,
    fun c hc ↦ h.unused c (Nat.le_of_succ_le hc), fun fd' c hc ↦ ?_, h.slot_lt_i, h.sockFd_pos,
    fun c se hse fd' ↦ ?_⟩
  · by_cases hfd : fd' = fd
    · subst hfd
      rw [s.connect_table_self, Option.some_inj] at hc
      exact File.client.inj hc ▸ Nat.lt_succ_self _
    · rw [s.connect_table_of_ne hfd] at hc
      exact Nat.lt_succ_of_lt (h.table_lt fd' c hc)
  · by_cases hfd : fd' = fd
    · -- the new client has no session, and no session has had this descriptor open
      subst hfd
      have hne : s.accepted ≠ c := h.ne_of_le hse (le_refl _)
      have hno := (h.table_iff c se hse fd').not.mp (by rw [hnew]; simp)
      rw [s.connect_table_self, Option.some_inj, File.client.injEq]
      exact iff_of_false hne hno
    · rw [s.connect_table_of_ne hfd]
      exact h.table_iff c se hse fd'

/-- `main` fills the entry at `i`, behind those in use. -/
theorem Separate.setInfo {s : State} (h : Separate s) (info : SockInfo) :
    Separate (s.setInfo info) := by
  refine ⟨⟨h.isolated.slot_lt, fun c se hse ↦ ?_, h.isolated.closedBy⟩, h.unused, h.table_lt,
    h.slot_lt_i, h.sockFd_pos, h.table_iff⟩
  rw [s.setInfo_sockInfo_of_ne info (Nat.ne_of_lt (h.slot_lt_i c se hse))]
  exact h.isolated.sockInfo_eq c se hse

/-- `main` closes a descriptor that no session has open. -/
theorem Separate.close {s : State} (h : Separate s) {fd : ℤ}
    (hfd : ∀ c se, s.sessions c = some se → s.table fd ≠ some (.client c)) :
    Separate (s.close .main fd) := by
  refine ⟨⟨h.isolated.slot_lt, h.isolated.sockInfo_eq, fun c se hse ↦ ?_⟩, fun c hc ↦ ?_,
    fun fd' c hc ↦ ?_, h.slot_lt_i, h.sockFd_pos, fun c se hse fd' ↦ ?_⟩
  · rw [State.close_closedBy_of_ne (hfd c se hse)]
    exact h.isolated.closedBy c se hse
  · rw [State.close_closedBy_of_ne fun htable ↦ absurd (h.table_lt fd c htable) (not_lt.mpr hc)]
    exact h.unused c hc
  · exact h.table_lt fd' c ((s.close_table_eq .main fd fd' _).mp hc).2
  · rw [State.close_table_eq, h.table_iff c se hse fd', and_iff_right_iff_imp]
    rintro ⟨rfl, hphase⟩ rfl
    exact hfd c se hse ((h.table_iff c se hse _).mpr ⟨rfl, hphase⟩)

/-- The session of a client may step without touching anything but its own phase. -/
theorem Separate.setPhase {s : State} (h : Separate s) {c : ℕ} {se : Session}
    (hse : s.sessions c = some se) {phase : Phase} (hphase : phase = .ended ↔ se.phase = .ended) :
    Separate (s.setPhase c se phase) := by
  have hof : ∀ c' se', (s.setPhase c se phase).sessions c' = some se' →
      ∃ se₀, s.sessions c' = some se₀ ∧ se'.slot = se₀.slot ∧ se'.info = se₀.info ∧
        (se'.phase = .ended ↔ se₀.phase = .ended) := by
    intro c' se' hse'
    obtain ⟨rfl, rfl⟩ | ⟨-, hse'⟩ := setPhase_cases hse'
    · exact ⟨se, hse, rfl, rfl, hphase⟩
    · exact ⟨se', hse', rfl, rfl, Iff.rfl⟩
  refine ⟨⟨fun c' se' hse' ↦ ?_, fun c' se' hse' ↦ ?_, fun c' se' hse' ↦ ?_⟩, fun c' hc' ↦ ?_,
    h.table_lt, fun c' se' hse' ↦ ?_, fun c' se' hse' ↦ ?_, fun c' se' hse' ↦ ?_⟩
  · obtain ⟨se₀, hse₀, hslot, -⟩ := hof c' se' hse'
    exact hslot ▸ h.isolated.slot_lt c' se₀ hse₀
  · obtain ⟨se₀, hse₀, hslot, hinfo, -⟩ := hof c' se' hse'
    rw [hslot, hinfo]
    exact h.isolated.sockInfo_eq c' se₀ hse₀
  · obtain ⟨se₀, hse₀, -⟩ := hof c' se' hse'
    exact h.isolated.closedBy c' se₀ hse₀
  · rw [s.setPhase_sessions_of_ne se phase (h.ne_of_le hse hc')]
    exact h.unused c' hc'
  · obtain ⟨se₀, hse₀, hslot, -⟩ := hof c' se' hse'
    exact hslot ▸ h.slot_lt_i c' se₀ hse₀
  · obtain ⟨se₀, hse₀, -, hinfo, -⟩ := hof c' se' hse'
    exact hinfo ▸ h.sockFd_pos c' se₀ hse₀
  · obtain ⟨se₀, hse₀, -, hinfo, hended⟩ := hof c' se' hse'
    intro fd
    rw [hinfo, hended.ne]
    exact h.table_iff c' se₀ hse₀ fd

theorem Separate.sockFd_eq {s : State} (h : Separate s) {c : ℕ} {se : Session}
    (hse : s.sessions c = some se) : s.sockFd se = se.info.sockFd := by
  rw [State.sockFd, h.isolated.sockInfo_eq c se hse]

/-- A thread that has not ended finds its own client under the descriptor in its entry. -/
theorem Separate.table_sockFd {s : State} (h : Separate s) {c : ℕ} {se : Session}
    (hse : s.sessions c = some se) (hphase : se.phase ≠ .ended) :
    s.table (s.sockFd se) = some (.client c) :=
  (h.table_iff c se hse _).mpr ⟨h.sockFd_eq hse, hphase⟩

/-- The final `close` of a thread. -/
theorem Separate.endSession {s : State} (h : Separate s) {c : ℕ} {se : Session}
    (hse : s.sessions c = some se) (hphase : se.phase ≠ .ended) :
    Separate ((s.setPhase c se .ended).close (.session c) (s.sockFd se)) := by
  have htable : (s.setPhase c se .ended).table (s.sockFd se) = some (.client c) :=
    h.table_sockFd hse hphase
  have hother : ∀ c', c' ≠ c → (s.setPhase c se .ended).table (s.sockFd se) ≠ some (.client c') :=
    fun c' hne ↦ by
      rw [htable]
      exact fun he ↦ hne (File.client.inj (Option.some_inj.mp he)).symm
  refine ⟨⟨fun c' se' hse' ↦ ?_, fun c' se' hse' ↦ ?_, fun c' se' hse' who hwho ↦ ?_⟩,
    fun c' hc' ↦ ?_, fun fd c' hfd ↦ ?_, fun c' se' hse' ↦ ?_, fun c' se' hse' ↦ ?_,
    fun c' se' hse' fd ↦ ?_⟩
  · obtain ⟨rfl, rfl⟩ | ⟨-, hse'⟩ := setPhase_cases hse'
    · exact h.isolated.slot_lt c' se hse
    · exact h.isolated.slot_lt c' se' hse'
  · obtain ⟨rfl, rfl⟩ | ⟨-, hse'⟩ := setPhase_cases hse'
    · exact h.isolated.sockInfo_eq c' se hse
    · exact h.isolated.sockInfo_eq c' se' hse'
  · obtain ⟨rfl, rfl⟩ | ⟨hne, hse'⟩ := setPhase_cases hse'
    · rw [State.close_closedBy_self htable, List.mem_cons] at hwho
      exact hwho.elim id (h.isolated.closedBy c' se hse who)
    · rw [State.close_closedBy_of_ne (hother c' hne)] at hwho
      exact h.isolated.closedBy c' se' hse' who hwho
  · have hne : c' ≠ c := h.ne_of_le hse hc'
    rw [State.close_closedBy_of_ne (hother c' hne)]
    exact ⟨(s.setPhase_sessions_of_ne se _ hne).trans (h.unused c' hc').1, (h.unused c' hc').2⟩
  · exact h.table_lt fd c' ((State.close_table_eq _ _ _ fd _).mp hfd).2
  · obtain ⟨rfl, rfl⟩ | ⟨-, hse'⟩ := setPhase_cases hse'
    · exact h.slot_lt_i c' se hse
    · exact h.slot_lt_i c' se' hse'
  · obtain ⟨rfl, rfl⟩ | ⟨-, hse'⟩ := setPhase_cases hse'
    · exact h.sockFd_pos c' se hse
    · exact h.sockFd_pos c' se' hse'
  · rw [State.close_table_eq]
    obtain ⟨rfl, rfl⟩ | ⟨hne, hse'⟩ := setPhase_cases hse'
    · refine iff_of_false (fun ⟨hfd, hclient⟩ ↦ hfd ?_) fun hended ↦ hended.2 rfl
      rw [h.sockFd_eq hse]
      exact ((h.table_iff c' se hse fd).mp hclient).1
    · refine (and_iff_right_of_imp fun hclient hfd ↦ hother c' hne ?_).trans
        (h.table_iff c' se' hse' fd)
      rw [← hfd]
      exact hclient

/-! ## Where `main` is -/

/-- The last accepted client, who has no thread yet. -/
structure Pending (s : State) : Prop where
  /-- His descriptor is positive. -/
  pos : 0 < s.peerfd
  /-- He has no session. -/
  no_session : s.sessions s.newest = none
  /-- Nobody has closed his descriptor. -/
  not_closed : s.closedBy s.newest = []
  /-- `peerfd` is the one descriptor for him. -/
  table_iff : ∀ fd, s.table fd = some (.client s.newest) ↔ fd = s.peerfd

/-- Behind the loop: `accept` has failed, or the table is full and `peerfd` is the descriptor of
the last session, or was until its thread closed it. -/
def Left (s : State) : Prop :=
  s.peerfd ≤ 0 ∧ s.i < max ∨
    s.i = max ∧ (∃ se, s.sessions s.newest = some se ∧ se.info.sockFd = s.peerfd) ∧
      ∀ c, s.table s.peerfd = some (.client c) → c = s.newest

def AtPc (sockfd : ℤ) (s : State) : Pc → Prop
  | .accepting => s.i < max ∧ s.table sockfd = some .listener
  | .zeroing | .settingFd => s.i < max ∧ s.table sockfd = some .listener ∧ Pending s
  | .settingAddr | .creating => s.i < max ∧ s.table sockfd = some .listener ∧ Pending s ∧
      (s.sockInfo s.i).sockFd = s.peerfd
  | .closingSockfd => s.table sockfd = some .listener ∧ Left s
  | .closingPeerfd => Left s
  | .failing => s.table sockfd = some .listener
  | .returned => True

/-- The new session: its entry is the one that `main` has just filled. -/
theorem Separate.spawn {s : State} (h : Separate s) (hpending : Pending s) (hi : s.i < max)
    (hinfo : (s.sockInfo s.i).sockFd = s.peerfd) : Separate s.spawn := by
  have hof : ∀ c se, s.spawn.sessions c = some se → c = s.newest ∧
      se = ⟨s.i, .reading, s.sockInfo s.i⟩ ∨ s.sessions c = some se := fun c se hse ↦ by
    by_cases hc : c = s.newest
    · subst hc
      rw [s.spawn_sessions_self, Option.some_inj] at hse
      exact Or.inl ⟨rfl, hse.symm⟩
    · rw [s.spawn_sessions_of_ne hc] at hse
      exact Or.inr hse
  have hnewest : s.newest < s.accepted := h.table_lt s.peerfd _ ((hpending.table_iff _).mpr rfl)
  refine ⟨⟨fun c se hse ↦ ?_, fun c se hse ↦ ?_, fun c se hse ↦ ?_⟩, fun c hc ↦ ?_, h.table_lt,
    fun c se hse ↦ ?_, fun c se hse ↦ ?_, fun c se hse fd ↦ ?_⟩
  · obtain ⟨-, rfl⟩ | hse := hof c se hse
    · exact hi
    · exact h.isolated.slot_lt c se hse
  · obtain ⟨-, rfl⟩ | hse := hof c se hse
    · rfl
    · exact h.isolated.sockInfo_eq c se hse
  · obtain ⟨rfl, rfl⟩ | hse := hof c se hse
    · intro who hwho
      rw [show s.spawn.closedBy s.newest = [] from hpending.not_closed] at hwho
      cases hwho
    · exact h.isolated.closedBy c se hse
  · rw [s.spawn_sessions_of_ne (Nat.ne_of_gt (hnewest.trans_le hc))]
    exact h.unused c hc
  · obtain ⟨-, rfl⟩ | hse := hof c se hse
    · exact Nat.lt_succ_self s.i
    · exact Nat.lt_succ_of_lt (h.slot_lt_i c se hse)
  · obtain ⟨-, rfl⟩ | hse := hof c se hse
    · rw [hinfo]
      exact hpending.pos
    · exact h.sockFd_pos c se hse
  · obtain ⟨rfl, rfl⟩ | hse := hof c se hse
    · rw [hinfo]
      exact (hpending.table_iff fd).trans (and_iff_left (by simp)).symm
    · exact h.table_iff c se hse fd

/-- What a thread does leaves `main` where it is. -/
theorem AtPc.of_thread {sockfd : ℤ} {s t : State} {pc : Pc} (h : AtPc sockfd s pc)
    (hi : t.i = s.i) (hpeerfd : t.peerfd = s.peerfd) (hinfo : t.sockInfo = s.sockInfo)
    (hlistener : s.table sockfd = some .listener → t.table sockfd = some .listener)
    (hpending : Pending s → Pending t) (hleft : Left s → Left t) : AtPc sockfd t pc := by
  cases pc with
  | accepting => exact ⟨hi ▸ h.1, hlistener h.2⟩
  | zeroing => exact ⟨hi ▸ h.1, hlistener h.2.1, hpending h.2.2⟩
  | settingFd => exact ⟨hi ▸ h.1, hlistener h.2.1, hpending h.2.2⟩
  | settingAddr =>
    refine ⟨hi ▸ h.1, hlistener h.2.1, hpending h.2.2.1, ?_⟩
    rw [hi, hinfo, hpeerfd]
    exact h.2.2.2
  | creating =>
    refine ⟨hi ▸ h.1, hlistener h.2.1, hpending h.2.2.1, ?_⟩
    rw [hi, hinfo, hpeerfd]
    exact h.2.2.2
  | closingSockfd => exact ⟨hlistener h.1, hleft h.2⟩
  | closingPeerfd => exact hleft h
  | failing => exact hlistener h
  | returned => trivial

/-- The descriptor in `peerfd` may lose its client, but gets no other. -/
theorem Left.of_le {s t : State} (h : Left s) (hi : t.i = s.i) (hpeerfd : t.peerfd = s.peerfd)
    (hnewest : t.newest = s.newest)
    (hsession : ∀ se, s.sessions s.newest = some se →
      ∃ se', t.sessions s.newest = some se' ∧ se'.info = se.info)
    (htable : ∀ c, t.table s.peerfd = some (.client c) → s.table s.peerfd = some (.client c)) :
    Left t := by
  rw [Left, hi, hpeerfd, hnewest]
  refine h.imp_right fun ⟨hfull, ⟨se, hse, hfd⟩, honly⟩ ↦ ⟨hfull, ?_, fun c hc ↦ ?_⟩
  · obtain ⟨se', hse', hinfo⟩ := hsession se hse
    exact ⟨se', hse', hinfo ▸ hfd⟩
  · exact honly c (htable c hc)

theorem exists_setPhase_info {s : State} {c d : ℕ} {se se₀ : Session} {phase : Phase}
    (hse : s.sessions c = some se) (hse₀ : s.sessions d = some se₀) :
    ∃ se', (s.setPhase c se phase).sessions d = some se' ∧ se'.info = se₀.info := by
  by_cases hd : d = c
  · subst hd
    obtain rfl := Option.some_inj.mp (hse.symm.trans hse₀)
    exact ⟨_, s.setPhase_sessions_self d se phase, rfl⟩
  · exact ⟨se₀, (s.setPhase_sessions_of_ne se phase hd).trans hse₀, rfl⟩

/-- The invariant of the whole process. -/
structure Orderly (sockfd : ℤ) (s : State) : Prop where
  /-- The sessions are separate. -/
  separate : Separate s
  /-- The main thread is where it says. -/
  atPc : AtPc sockfd s s.pc

theorem orderly_init (sockfd : ℤ) (stdio : Finset ℕ) (stack : ℕ → SockInfo) :
    Orderly sockfd (init sockfd stdio stack) := by
  exact ⟨⟨⟨nofun, nofun, nofun⟩, fun _ _ ↦ ⟨rfl, rfl⟩,
    fun fd c hc ↦ absurd hc (init_table_ne_client sockfd stdio stack fd c), nofun, nofun, nofun⟩,
    Nat.zero_lt_succ _, init_table_sockfd sockfd stdio stack⟩

/-! ## Steps -/

section

variable {sockfd : ℤ} {s : State} {c : ℕ} {se : Session}

theorem Pending.newest_ne (h : Pending s) (hse : s.sessions c = some se) : s.newest ≠ c := by
  rintro rfl
  rw [h.no_session] at hse
  cases hse

theorem Pending.setPhase (h : Pending s) (hse : s.sessions c = some se) (phase : Phase) :
    Pending (s.setPhase c se phase) :=
  ⟨h.pos, (s.setPhase_sessions_of_ne se phase (h.newest_ne hse)).trans h.no_session, h.not_closed,
    h.table_iff⟩

/-- A `read` or a `write` of a thread. -/
theorem Orderly.setPhase (h : Orderly sockfd s) (hse : s.sessions c = some se) {phase : Phase}
    (hphase : phase = .ended ↔ se.phase = .ended) : Orderly sockfd (s.setPhase c se phase) := by
  refine ⟨h.separate.setPhase hse hphase, h.atPc.of_thread rfl rfl rfl id
    (fun hpending ↦ hpending.setPhase hse phase) fun hleft ↦ ?_⟩
  exact hleft.of_le rfl rfl rfl (fun se₀ ↦ exists_setPhase_info hse) fun _ ↦ id

theorem Orderly.endSession (h : Orderly sockfd s) (hse : s.sessions c = some se)
    (hphase : se.phase ≠ .ended) :
    Orderly sockfd ((s.setPhase c se .ended).close (.session c) (s.sockFd se)) := by
  have htable := h.separate.table_sockFd hse hphase
  refine ⟨h.separate.endSession hse hphase, h.atPc.of_thread rfl rfl rfl (fun hlistener ↦ ?_)
    (fun hpending ↦ ?_) fun hleft ↦ ?_⟩
  · refine (State.close_table_eq _ _ _ _ _).mpr ⟨fun he ↦ ?_, hlistener⟩
    rw [he, htable] at hlistener
    cases hlistener
  · -- the client that waits for its thread is another one
    have hne : s.newest ≠ c := hpending.newest_ne hse
    have hnot : s.table (s.sockFd se) ≠ some (.client s.newest) := by
      rw [htable]
      exact fun he ↦ hne (File.client.inj (Option.some_inj.mp he)).symm
    obtain ⟨hpos, hno, hclosed, hiff⟩ := hpending.setPhase hse .ended
    refine ⟨hpos, hno, ?_, fun fd ↦ ?_⟩
    · exact (State.close_closedBy_of_ne hnot _).trans hclosed
    · rw [State.close_table_eq]
      refine (and_iff_right_of_imp fun hclient hfd ↦ hnot ?_).trans (hiff fd)
      rw [← hfd]
      exact hclient
  · exact hleft.of_le rfl rfl rfl (fun se₀ ↦ exists_setPhase_info hse) fun c' hc' ↦
      ((State.close_table_eq _ _ _ _ _).mp hc').2

theorem Orderly.accept (h : Orderly sockfd s) (hpc : s.pc = .accepting) {ret : ℤ}
    (hret : ret = -1 ∨ 0 ≤ ret ∧ s.table ret = none) (sender : SockaddrIn) (errno : Errno) :
    Orderly sockfd (s.accept ret sender errno) := by
  have hat := h.atPc
  rw [hpc] at hat
  obtain ⟨hi, hlistener⟩ := hat
  have hkeep : ∀ fd, s.table fd = none → (s.connect fd).table sockfd = some .listener := by
    intro fd hfd
    have hne : sockfd ≠ fd := fun he ↦ by
      rw [he, hfd] at hlistener
      cases hlistener
    rw [s.connect_table_of_ne hne, hlistener]
  have hend : ∀ t : State, Separate t → t.i < max → t.peerfd ≤ 0 →
      t.table sockfd = some .listener → t.pc = afterFailure errno → Orderly sockfd t := by
    intro t ht hti hpeerfd htl htpc
    refine ⟨ht, ?_⟩
    rw [htpc]
    cases errno with
    | eintr => exact ⟨hti, htl⟩
    | econnaborted => exact ⟨hti, htl⟩
    | other => exact ⟨htl, Or.inl ⟨hpeerfd, hti⟩⟩
  rw [State.accept]
  split_ifs with hpos hzero
  · have hnew : s.table ret = none := by
      obtain rfl | ⟨-, hnew⟩ := hret
      · omega
      · exact hnew
    obtain ⟨hno, hclosed⟩ := h.separate.unused s.accepted (le_refl _)
    refine ⟨(h.separate.connect hnew).of_eq rfl rfl rfl rfl rfl rfl, hi, hkeep ret hnew, hpos, hno,
      hclosed, fun fd ↦ ?_⟩
    constructor
    · intro hfd
      by_contra hne
      replace hfd : (s.connect ret).table fd = some (.client s.accepted) := hfd
      rw [s.connect_table_of_ne hne] at hfd
      exact absurd (h.separate.table_lt fd _ hfd) (lt_irrefl _)
    · rintro rfl
      exact s.connect_table_self _
  · have hnew : s.table 0 = none := by
      obtain rfl | ⟨-, hnew⟩ := hret
      · cases hzero
      · exact hzero ▸ hnew
    exact hend _ ((h.separate.connect hnew).of_eq rfl rfl rfl rfl rfl rfl) hi (le_refl _)
      (hkeep 0 hnew) rfl
  · exact hend _ (h.separate.of_eq rfl rfl rfl rfl rfl rfl) hi (not_lt.mp hpos) hlistener rfl

theorem Orderly.create (h : Orderly sockfd s) (hpc : s.pc = .creating) (succeeds : Bool) :
    Orderly sockfd (if succeeds then s.spawn else { s with pc := .failing }) := by
  have hat := h.atPc
  rw [hpc] at hat
  obtain ⟨hi, hlistener, hpending, hinfo⟩ := hat
  cases succeeds with
  | false => exact ⟨h.separate.of_eq rfl rfl rfl rfl rfl rfl, hlistener⟩
  | true =>
    refine ⟨h.separate.spawn hpending hi hinfo, ?_⟩
    by_cases hfull : max = s.i + 1
    · -- the loop ends, and the last client's descriptor is in `peerfd`
      rw [if_pos rfl, show s.spawn.pc = .closingSockfd from if_pos hfull]
      refine ⟨hlistener, Or.inr ⟨hfull.symm, ⟨_, s.spawn_sessions_self, hinfo⟩, fun c hc ↦ ?_⟩⟩
      have hnewest := (hpending.table_iff s.peerfd).mpr rfl
      exact (File.client.inj (Option.some_inj.mp (hnewest.symm.trans hc))).symm
    · rw [if_pos rfl, show s.spawn.pc = .accepting from if_neg hfull]
      exact ⟨lt_of_le_of_ne hi (Ne.symm hfull), hlistener⟩

/-- A descriptor in `peerfd` that belongs to a session behind the loop is that of the last one. -/
theorem Orderly.peerfd_client (h : Orderly sockfd s) (hleft : Left s)
    (hse : s.sessions c = some se) (hclient : s.table s.peerfd = some (.client c)) :
    s.i = max ∧ c = s.newest ∧ se.phase ≠ .ended := by
  obtain ⟨hfd, hphase⟩ := (h.separate.table_iff c se hse _).mp hclient
  obtain ⟨hle, -⟩ | ⟨hfull, -, honly⟩ := hleft
  · have hpos := h.separate.sockFd_pos c se hse
    omega
  · exact ⟨hfull, honly c hclient, hphase⟩

theorem Pending.setInfo (h : Pending s) (info : SockInfo) (pc : Pc) :
    Pending { s.setInfo info with pc := pc } :=
  ⟨h.pos, h.no_session, h.not_closed, h.table_iff⟩

/-- `main` closes what is in `sockfd` or `peerfd`, where no thread needs it. -/
theorem Orderly.close (h : Orderly sockfd s) {fd : ℤ}
    (hfd : ∀ c se, s.sessions c = some se → s.table fd ≠ some (.client c)) {pc : Pc}
    (hat : AtPc sockfd (s.close .main fd) pc) :
    Orderly sockfd { s.close .main fd with pc := pc } :=
  ⟨(h.separate.close hfd).of_eq rfl rfl rfl rfl rfl rfl, hat.of_thread rfl rfl rfl id
    (fun hpending ↦ ⟨hpending.pos, hpending.no_session, hpending.not_closed, hpending.table_iff⟩)
    id⟩

theorem Orderly.closePeerfd (h : Orderly sockfd s) (hpc : s.pc = .closingPeerfd) :
    (Harmless s .proceed → Orderly sockfd { s.close .main s.peerfd with pc := .returned }) ∧
      (Isolated { s.close .main s.peerfd with pc := .returned } → Harmless s .proceed) := by
  have hleft := h.atPc
  rw [hpc] at hleft
  constructor
  · intro hharmless
    refine h.close (fun c se hse hclient ↦ ?_) trivial
    obtain ⟨hfull, rfl, hphase⟩ := h.peerfd_client hleft hse hclient
    exact hphase (hharmless hpc hfull se hse)
  · intro hisolated _ hfull se hse
    by_contra hphase
    obtain ⟨-, hlt⟩ | ⟨-, ⟨se', hse', hfd⟩, -⟩ := hleft
    · exact absurd hfull (Nat.ne_of_lt hlt)
    · -- the thread still has the descriptor that `main` closes
      obtain rfl := Option.some_inj.mp (hse.symm.trans hse')
      have hclient := (h.separate.table_iff _ se hse _).mpr ⟨hfd.symm, hphase⟩
      have hmem : Thread.main ∈ (s.close .main s.peerfd).closedBy s.newest := by
        rw [State.close_closedBy_self hclient]
        exact List.mem_cons_self
      cases hisolated.closedBy s.newest se hse _ hmem

theorem Orderly.proceed {t : State} (h : Orderly sockfd s) (hst : s.proceed sockfd = some t) :
    (Harmless s .proceed → Orderly sockfd t) ∧ (Isolated t → Harmless s .proceed) := by
  have hat := h.atPc
  have hlistener : s.table sockfd = some .listener →
      ∀ c se, s.sessions c = some se → s.table sockfd ≠ some (.client c) := fun hl c _ _ ↦ by
    rw [hl]
    simp
  have hother : s.pc ≠ .closingPeerfd → Harmless s .proceed := fun hne he ↦ absurd he hne
  rw [State.proceed] at hst
  cases hpc : s.pc with
  | zeroing =>
    rw [hpc] at hst hat
    obtain rfl := Option.some_inj.mp hst
    exact ⟨fun _ ↦ ⟨(h.separate.setInfo _).of_eq rfl rfl rfl rfl rfl rfl, hat.1, hat.2.1,
      hat.2.2.setInfo _ _⟩, fun _ ↦ hother (by simp [hpc])⟩
  | settingFd =>
    rw [hpc] at hst hat
    obtain rfl := Option.some_inj.mp hst
    exact ⟨fun _ ↦ ⟨(h.separate.setInfo _).of_eq rfl rfl rfl rfl rfl rfl, hat.1, hat.2.1,
      hat.2.2.setInfo _ _, congrArg SockInfo.sockFd (s.setInfo_sockInfo_self _)⟩,
      fun _ ↦ hother (by simp [hpc])⟩
  | settingAddr =>
    rw [hpc] at hst hat
    obtain rfl := Option.some_inj.mp hst
    exact ⟨fun _ ↦ ⟨(h.separate.setInfo _).of_eq rfl rfl rfl rfl rfl rfl, hat.1, hat.2.1,
      hat.2.2.1.setInfo _ _,
      (congrArg SockInfo.sockFd (s.setInfo_sockInfo_self _)).trans hat.2.2.2⟩,
      fun _ ↦ hother (by simp [hpc])⟩
  | closingSockfd =>
    rw [hpc] at hst hat
    obtain rfl := Option.some_inj.mp hst
    refine ⟨fun _ ↦ h.close (hlistener hat.1) ?_, fun _ ↦ hother (by simp [hpc])⟩
    exact hat.2.of_le rfl rfl rfl (fun se hse ↦ ⟨se, hse, rfl⟩) fun c hc ↦
      ((State.close_table_eq _ _ _ _ _).mp hc).2
  | closingPeerfd =>
    rw [hpc] at hst
    obtain rfl := Option.some_inj.mp hst
    exact h.closePeerfd hpc
  | failing =>
    rw [hpc] at hst hat
    obtain rfl := Option.some_inj.mp hst
    exact ⟨fun _ ↦ h.close (hlistener hat) trivial, fun _ ↦ hother (by simp [hpc])⟩
  | accepting => rw [hpc] at hst; cases hst
  | creating => rw [hpc] at hst; cases hst
  | returned => rw [hpc] at hst; cases hst

theorem State.live_eq_some (hse : s.live c = some se) : s.sessions c = some se := by
  rw [State.live] at hse
  split_ifs at hse
  exact hse

theorem afterRead_ne_ended (text : Option Bytes) : afterRead text ≠ .ended := by
  cases text with
  | none => nofun
  | some text =>
    simp only [afterRead]
    split
    · nofun
    · split_ifs <;> nofun

theorem afterWrite_ne_ended (text : Bytes) (succeeds : Bool) :
    afterWrite text succeeds ≠ .ended := by
  rw [afterWrite]
  split_ifs <;> nofun

/-- A harmless step leaves the process orderly, any other costs a session its descriptor. -/
theorem Orderly.step {t : State} {a : Label} (h : Orderly sockfd s)
    (hst : step sockfd s a = some t) :
    (Harmless s a → Orderly sockfd t) ∧ (Isolated t → Harmless s a) := by
  cases a with
  | accept ret sender errno =>
    obtain ⟨⟨hpc, hret⟩, rfl⟩ := guarded_eq_some.mp hst
    exact ⟨fun _ ↦ h.accept hpc hret sender errno, fun _ ↦ trivial⟩
  | create succeeds =>
    obtain ⟨hpc, rfl⟩ := guarded_eq_some.mp hst
    exact ⟨fun _ ↦ h.create hpc succeeds, fun _ ↦ trivial⟩
  | proceed => exact h.proceed hst
  | read c text =>
    obtain ⟨se, hse, hst⟩ := Option.bind_eq_some_iff.mp hst
    obtain ⟨⟨hphase, -⟩, rfl⟩ := guarded_eq_some.mp hst
    refine ⟨fun _ ↦ h.setPhase (State.live_eq_some hse) ?_, fun _ ↦ trivial⟩
    exact iff_of_false (afterRead_ne_ended text) (by simp [hphase])
  | write c succeeds =>
    obtain ⟨se, hse, hst⟩ := Option.bind_eq_some_iff.mp hst
    split at hst
    · next text hphase =>
      obtain ⟨-, rfl⟩ := guarded_eq_some.mp hst
      refine ⟨fun _ ↦ h.setPhase (State.live_eq_some hse) ?_, fun _ ↦ trivial⟩
      exact iff_of_false (afterWrite_ne_ended text succeeds) (by simp [hphase])
    · cases hst
  | close c =>
    obtain ⟨se, hse, hst⟩ := Option.bind_eq_some_iff.mp hst
    obtain ⟨hphase, rfl⟩ := guarded_eq_some.mp hst
    exact ⟨fun _ ↦ h.endSession (State.live_eq_some hse) (by simp [hphase]), fun _ ↦ trivial⟩

end

/-! ## Runs -/

/-- **When the sessions are isolated** in every state of a run: if and only if `main` does not come
to `close(peerfd)` with a full table while the thread of the last client still runs. -/
theorem sessions_isolated_iff {sockfd : ℤ} {stdio : Finset ℕ} {stack : ℕ → SockInfo}
    {labels : List Label} {t : State}
    (hrun : run (step sockfd) (init sockfd stdio stack) labels = some t) :
    (∀ done u, done <+: labels → run (step sockfd) (init sockfd stdio stack) done = some u →
      Isolated u) ↔
    Along (step sockfd) Harmless (init sockfd stdio stack) labels :=
  throughout_iff_along (fun _ hs ↦ hs.separate.isolated) (fun _ _ _ hs hst ↦ hs.step hst)
    (orderly_init sockfd stdio stack) hrun

/-- The server with the standard descriptors, before the first client. -/
def idle : State := init 3 {0, 1, 2} fun _ ↦ zeroed

/-- One client comes, `accept` is interrupted once, and then it fails while the thread is
running. -/
def oneClient : List Label :=
  [.accept 4 ⟨1, 2⟩ .other, .proceed, .proceed, .proceed, .create true,
    .accept (-1) ⟨0, 0⟩ .eintr, .read 0 (some (ascii "hi")), .accept (-1) ⟨0, 0⟩ .other,
    .write 0 true, .proceed, .proceed]

theorem sessions_isolated_oneClient :
    ∃ t, run (step 3) idle oneClient = some t ∧ t.i = 1 ∧ t.pc = .returned ∧
      ∀ done u, done <+: oneClient → run (step 3) idle done = some u → Isolated u := by
  have hmap : (run (step 3) idle oneClient).map (fun t ↦ (t.i, t.pc)) = some (1, .returned) := by
    decide +kernel
  obtain ⟨t, hrun, ht⟩ := Option.map_eq_some_iff.mp hmap
  obtain ⟨hi, hpc⟩ := Prod.mk.inj ht
  exact ⟨t, hrun, hi, hpc, (sessions_isolated_iff hrun).mpr (by decide +kernel)⟩

/-- One more client, with a new descriptor each. -/
def serveNext (n : ℕ) : List Label :=
  [.accept (4 + n) ⟨0, 0⟩ .other, .proceed, .proceed, .proceed, .create true]

/-- The first `n` clients are served, and nobody leaves. -/
def serveFirst : ℕ → List Label
  | 0 => []
  | n + 1 => serveFirst n ++ serveNext n

theorem run_serveNext {s : State} {n : ℕ} (hpc : s.pc = .accepting) (hi : s.i = n)
    (hnew : ∀ fd : ℤ, 4 + n ≤ fd → s.table fd = none) :
    ∃ t, run (step 3) s (serveNext n) = some t ∧ t.i = n + 1 ∧
      t.pc = (if max = n + 1 then .closingSockfd else .accepting) ∧
      (∀ fd : ℤ, 4 + (n + 1 : ℕ) ≤ fd → t.table fd = none) ∧ t.peerfd = 4 + n ∧
      t.table t.peerfd = some (.client t.newest) ∧ (t.sessions t.newest).isSome := by
  have haccept : step 3 s (.accept (4 + n) ⟨0, 0⟩ .other) =
      some { s.connect (4 + n) with pc := .zeroing, peerfd := 4 + n, sender := ⟨0, 0⟩ } := by
    rw [step, guarded_of ⟨hpc, Or.inr ⟨by omega, hnew _ (le_refl _)⟩⟩, State.accept,
      if_pos (by omega)]
  subst hi
  refine ⟨_, run_cons_of haccept rfl, rfl, rfl, fun fd hfd ↦ ?_, rfl, s.connect_table_self _, ?_⟩
  · exact (s.connect_table_of_ne (by omega)).trans (hnew fd (by omega))
  · exact Option.isSome_iff_exists.mpr ⟨_, State.spawn_sessions_self _⟩

theorem run_serveFirst {n : ℕ} (hn : n + 1 ≤ max) :
    ∃ t, run (step 3) idle (serveFirst (n + 1)) = some t ∧ t.i = n + 1 ∧
      t.pc = (if max = n + 1 then .closingSockfd else .accepting) ∧
      (∀ fd : ℤ, 4 + (n + 1 : ℕ) ≤ fd → t.table fd = none) ∧ t.peerfd = 4 + n ∧
      t.table t.peerfd = some (.client t.newest) ∧ (t.sessions t.newest).isSome := by
  induction n with
  | zero =>
    refine run_serveNext rfl rfl fun fd hfd ↦ ?_
    have h3 : fd ≠ 3 := by omega
    have hstdio : ¬(0 ≤ fd ∧ fd.toNat ∈ ({0, 1, 2} : Finset ℕ)) := by
      simp only [Finset.mem_insert, Finset.mem_singleton]
      omega
    rw [idle, init_table_of_ne h3, if_neg hstdio]
  | succ n ih =>
    obtain ⟨s, hs, hi, hpc, hnew, -⟩ := ih (Nat.le_of_succ_le hn)
    rw [if_neg (Nat.ne_of_gt hn)] at hpc
    obtain ⟨t, ht, hrest⟩ := run_serveNext hpc hi hnew
    exact ⟨t, run_append_eq_some.mpr ⟨s, hs, ht⟩, hrest⟩

/-- With `MAX` clients `main` closes the descriptor of the last one under its running thread. -/
theorem sessions_not_isolated :
    ¬∀ labels t, run (step 3) idle labels = some t → Isolated t := by
  intro h
  obtain ⟨s, hs, -, hpc, -, hpeerfd, hclient, hsession⟩ := run_serveFirst (n := 127) (le_refl _)
  obtain ⟨se, hse⟩ := Option.isSome_iff_exists.mp hsession
  rw [if_pos (show max = 127 + 1 from rfl)] at hpc
  have hfirst : step 3 s .proceed = some { s.close .main 3 with pc := .closingPeerfd } := by
    rw [step, State.proceed, hpc]
  have hisolated := h (serveFirst 128 ++ [.proceed, .proceed]) _
    (run_append_eq_some.mpr ⟨s, hs, run_cons_of hfirst rfl⟩)
  have hopen : (s.close .main 3).table s.peerfd = some (.client s.newest) :=
    (State.close_table_eq _ _ _ _ _).mpr ⟨by omega, hclient⟩
  have hmem : Thread.main ∈ ((s.close .main 3).close .main s.peerfd).closedBy s.newest := by
    rw [State.close_closedBy_self hopen]
    exact List.mem_cons_self
  cases hisolated.closedBy s.newest se hse _ hmem

end ThreadServer

end CodeOnLinux
