import CodeOnLinux.ProcessServer.Server

/-!
# Who holds a connection

The parent never closes a connection, so its descriptors are given out in order: client `n` gets
descriptor `n + 4`, and when the limit is reached the server accepts no more. A child has the
connections of all clients up to its own. So the connection of a client that has said `quit`, and
whose child has ended, stays open until the parent and the children of all later clients have ended
too (`held_iff`); until then he is not told that the conversation is over.
-/

namespace CodeOnLinux

namespace ProcessServer

open Transition Descriptors Echo

variable {limit : ℕ} {s t : State} {a : Label}

/-! ## The tables -/

/-- The table of a process that has the first `k` connections open. -/
def tableOf (socket : Option End) (k fd : ℕ) : Option End :=
  if fd < sockfd then some .console
  else if fd = sockfd then socket
  else if fd ≤ sockfd + k then some (.client (fd - sockfd - 1))
  else none

/-- The parent has all connections, the child of client `n` those up to `n`. -/
structure Tabled (s : State) : Prop where
  /-- The parent has the listening socket and all connections until it stops. -/
  parent : s.tables none =
    if s.parent = .stopped then fun _ ↦ none else tableOf (some .listener) s.accepted
  /-- The child of client `n` has the connections up to `n` while it lives. -/
  child : ∀ n, s.tables (some n) = if s.Alive n then tableOf none (n + 1) else fun _ ↦ none

theorem tableOf_eq_client (socket : Option End) (hsocket : ∀ n, socket ≠ some (.client n))
    {k fd n : ℕ} : tableOf socket k fd = some (.client n) ↔ fd = sockfd + n + 1 ∧ n < k := by
  rw [tableOf]
  split_ifs with h₁ h₂ h₃
  · exact iff_of_false (fun h ↦ by cases h) (by omega)
  · exact iff_of_false (hsocket n) (by omega)
  · rw [Option.some_inj, End.client.injEq]
    omega
  · exact iff_of_false (fun h ↦ by cases h) (by omega)

theorem tableOf_eq_none {k fd : ℕ} :
    tableOf (some .listener) k fd = none ↔ sockfd + k + 1 ≤ fd := by
  rw [tableOf]
  split_ifs with h₁ h₂ h₃
  · exact iff_of_false (fun h ↦ by cases h) (by omega)
  · exact iff_of_false (fun h ↦ by cases h) (by omega)
  · exact iff_of_false (fun h ↦ by cases h) (by omega)
  · exact iff_of_true rfl (by omega)

/-- The next connection gets the next descriptor. -/
theorem tableOf_succ (k : ℕ) :
    Function.update (tableOf (some .listener) k) (sockfd + k + 1) (some (.client k)) =
      tableOf (some .listener) (k + 1) := by
  funext fd
  by_cases hfd : fd = sockfd + k + 1
  · rw [hfd, Function.update_self]
    exact ((tableOf_eq_client _ fun n h ↦ by cases h).mpr ⟨rfl, Nat.lt_succ_self k⟩).symm
  · rw [Function.update_of_ne hfd, tableOf, tableOf]
    have hiff : fd ≤ sockfd + k ↔ fd ≤ sockfd + (k + 1) := by omega
    simp only [hiff]

theorem tableOf_close (k : ℕ) :
    Function.update (tableOf (some .listener) k) sockfd none = tableOf none k := by
  funext fd
  by_cases hfd : fd = sockfd
  · rw [hfd, Function.update_self, tableOf, if_neg (Nat.lt_irrefl _), if_pos rfl]
  · rw [Function.update_of_ne hfd, tableOf, tableOf, if_neg hfd, if_neg hfd]

/-! ## The tables along a run -/

theorem Conversation.Next.child_alive {c c' : Conversation} (h : c.Next c') :
    (c'.child = .serving ∨ c'.child = .overrun) ↔ (c.child = .serving ∨ c.child = .overrun) := by
  cases h with
  | send hopen => exact Iff.rfl
  | shut => exact Iff.rfl
  | echo hserving hk hturn => exact Iff.rfl
  | overrun hserving hk hturn => exact iff_of_true (Or.inr rfl) (Or.inl hserving)

theorem Conversation.Ends.not_alive {c c' : Conversation} (h : c.Ends c') :
    ¬(c'.child = .serving ∨ c'.child = .overrun) := by
  cases h <;> simp

theorem tabled_init : Tabled init where
  parent := by
    funext fd
    rw [if_neg (by simp [init])]
    simp only [init, tableOf]
    split_ifs with h₁ h₂ h₃
    · rfl
    · rfl
    · omega
    · exact (if_neg h₃).symm
  child n := by
    rw [if_neg fun h ↦ Nat.not_lt_zero n h.1]
    rfl

theorem Tabled.forked (hs : Tabled s) (hparent : s.parent = .accepting) {fd : ℕ}
    (hfree : free limit (s.tables none) = some fd) : Tabled (s.forked fd) := by
  have htable : s.tables none = tableOf (some .listener) s.accepted := by
    rw [hs.parent, if_neg (by rw [hparent]; decide)]
  -- all descriptors below the next one are in use
  obtain ⟨-, rfl⟩ : sockfd + s.accepted + 1 < limit ∧ sockfd + s.accepted + 1 = fd := by
    rw [htable, free_eq fun fd ↦ tableOf_eq_none] at hfree
    split_ifs at hfree with hlt
    exact ⟨hlt, Option.some_inj.mp hfree⟩
  have hinstall : install s.tables none (sockfd + s.accepted + 1) (.client s.accepted) none =
      tableOf (some .listener) (s.accepted + 1) := by
    rw [install, assign, Function.update_self, htable, tableOf_succ]
  constructor
  · rw [if_neg (show (s.forked _).parent ≠ .stopped by rw [State.forked, hparent]; decide)]
    simp only [State.forked]
    rw [close, assign_of_ne (by simp), fork_of_ne (by simp), hinstall]
  · intro n
    by_cases hn : n = s.accepted
    · subst hn
      have hnew : (s.forked (sockfd + s.accepted + 1)).conversations s.accepted = .start :=
        Function.update_self ..
      rw [if_pos ⟨Nat.lt_succ_self _, Or.inl (by rw [hnew]; rfl)⟩]
      simp only [State.forked]
      rw [close, assign, Function.update_self, fork_self, hinstall, tableOf_close]
    · have halive : (s.forked (sockfd + s.accepted + 1)).Alive n ↔ s.Alive n := by
        simp only [State.Alive, State.forked, Function.update_of_ne hn]
        exact and_congr_left' (by omega)
      have hne : some n ≠ some s.accepted := fun h ↦ hn (Option.some_inj.mp h)
      simp only [State.forked]
      rw [close, assign_of_ne hne, fork_of_ne hne, install, assign_of_ne (by simp), hs.child n]
      exact if_congr halive.symm rfl rfl

/-- The processes that are there, and what they have open, stay the same. -/
theorem Tabled.congr (hs : Tabled s) (hparent : t.parent = .stopped ↔ s.parent = .stopped)
    (haccepted : t.accepted = s.accepted) (htables : t.tables = s.tables)
    (halive : ∀ n, t.Alive n ↔ s.Alive n) : Tabled t where
  parent := by rw [htables, hs.parent, haccepted, if_congr hparent.symm rfl rfl]
  child n := by rw [htables, hs.child n, if_congr (halive n).symm rfl rfl]

theorem Tabled.stop (hs : Tabled s) : Tabled s.stop where
  parent := by
    rw [if_pos (show s.stop.parent = .stopped from rfl)]
    exact exit_self (T := s.tables) (p := none)
  child n := by
    have hkept : s.stop.tables (some n) = s.tables (some n) :=
      exit_of_ne (T := s.tables) (Option.some_ne_none n)
    rw [hkept, hs.child n]
    rfl

theorem Tabled.ended (hs : Tabled s) {n : ℕ} {c : Conversation}
    (hends : ¬(c.child = .serving ∨ c.child = .overrun)) : Tabled (s.ended n c) := by
  constructor
  · have hparent : (s.ended n c).parent = .stopped ↔ s.parent = .stopped := by
      rw [State.ended]
      cases s.parent <;> simp
    have hkept : (s.ended n c).tables none = s.tables none :=
      exit_of_ne (T := s.tables) (Option.some_ne_none n).symm
    rw [hkept, hs.parent, if_congr hparent.symm rfl rfl]
    rfl
  · intro m
    by_cases hm : m = n
    · subst hm
      have hnot : ¬(s.ended m c).Alive m := by
        rintro ⟨-, h⟩
        simp only [State.ended, Function.update_self] at h
        exact hends h
      rw [if_neg hnot]
      exact Function.update_self ..
    · have halive : (s.ended n c).Alive m ↔ s.Alive m := by
        simp only [State.Alive, State.ended, Function.update_of_ne hm]
      have hkept : (s.ended n c).tables (some m) = s.tables (some m) :=
        exit_of_ne (T := s.tables) fun h ↦ hm (Option.some_inj.mp h)
      rw [hkept, hs.child m, if_congr halive.symm rfl rfl]

theorem Tabled.step (hs : Tabled s) (h : ProcessServer.step limit s a = some t) : Tabled t := by
  cases step_cases h with
  | accept hparent hfree => exact hs.forked hparent hfree
  | stop => exact hs.stop
  | same => exact hs
  | reaped hparent =>
    refine hs.congr (iff_of_false (by simp) (by rw [hparent]; decide)) rfl rfl fun n ↦ Iff.rfl
  | @next n c hn hnext =>
    refine hs.congr Iff.rfl rfl rfl fun m ↦ ?_
    by_cases hm : m = n
    · subst hm
      simp only [State.Alive, State.update, Function.update_self, hnext.child_alive]
    · simp only [State.Alive, State.update, Function.update_of_ne hm]
  | ends hserving hends => exact hs.ended hends.not_alive

theorem tabled_of_run {labels : List Label}
    (hrun : run (ProcessServer.step limit) init labels = some s) : Tabled s :=
  invariant_of_run (fun _ _ _ hs h ↦ hs.step h) tabled_init hrun

/-- While the parent runs it has a descriptor for each client that it has accepted. -/
theorem accepted_le_of_run {labels : List Label}
    (hrun : run (ProcessServer.step limit) init labels = some s) :
    s.accepted ≤ limit - sockfd - 1 := by
  have hinv : Tabled s ∧ s.accepted ≤ limit - sockfd - 1 := by
    refine invariant_of_run (I := fun s ↦ Tabled s ∧ s.accepted ≤ limit - sockfd - 1) ?_
      ⟨tabled_init, Nat.zero_le _⟩ hrun
    rintro s a t ⟨hs, hle⟩ h
    refine ⟨hs.step h, ?_⟩
    cases step_cases h with
    | @accept fd hparent hfree =>
      rw [hs.parent, if_neg (by rw [hparent]; decide), free_eq fun fd ↦ tableOf_eq_none] at hfree
      split_ifs at hfree with hlt
      simp only [State.forked]
      omega
    | stop => exact hle
    | same => exact hle
    | reaped hparent => exact hle
    | next hn hnext => exact hle
    | ends hserving hends => exact hle
  exact hinv.2

theorem Tabled.holds_parent (hs : Tabled s) {n : ℕ} :
    Holds s.tables none (.client n) ↔ s.parent ≠ .stopped ∧ n < s.accepted := by
  rw [Holds, hs.parent]
  split_ifs with hparent
  · exact iff_of_false (by simp) (fun h ↦ h.1 hparent)
  · simp only [tableOf_eq_client (some .listener) fun n h ↦ by cases h]
    constructor
    · rintro ⟨fd, -, hn⟩
      exact ⟨hparent, hn⟩
    · rintro ⟨-, hn⟩
      exact ⟨_, rfl, hn⟩

theorem Tabled.holds_child (hs : Tabled s) {m n : ℕ} :
    Holds s.tables (some m) (.client n) ↔ s.Alive m ∧ n ≤ m := by
  rw [Holds, hs.child]
  split_ifs with halive
  · simp only [tableOf_eq_client none fun n h ↦ by cases h]
    constructor
    · rintro ⟨fd, -, hn⟩
      exact ⟨halive, Nat.le_of_lt_succ hn⟩
    · rintro ⟨-, hle⟩
      exact ⟨_, rfl, Nat.lt_succ_of_le hle⟩
  · exact iff_of_false (by simp) (fun h ↦ halive h.1)

/-- **The end of a conversation**, as the client sees it. In every state of every run the connection
of client `n` is still open on the side of the server if and only if the parent has not ended or the
child of some client from `n` on has not. And there have never been more clients than the parent has
descriptors for. -/
theorem held_iff {labels : List Label}
    (hrun : run (ProcessServer.step limit) init labels = some s) :
    s.accepted ≤ limit - sockfd - 1 ∧ ∀ n, n < s.accepted →
      (Held s.tables (.client n) ↔ s.parent ≠ .stopped ∨ ∃ m, n ≤ m ∧ s.Alive m) := by
  have hs := tabled_of_run hrun
  refine ⟨accepted_le_of_run hrun, fun n hn ↦ ⟨?_, ?_⟩⟩
  · rintro ⟨p, hp⟩
    cases p with
    | none => exact Or.inl (hs.holds_parent.mp hp).1
    | some m =>
      obtain ⟨halive, hle⟩ := hs.holds_child.mp hp
      exact Or.inr ⟨m, hle, halive⟩
  · rintro (hparent | ⟨m, hle, halive⟩)
    · exact (hs.holds_parent.mpr ⟨hparent, hn⟩).held
    · exact (hs.holds_child.mpr ⟨halive, hle⟩).held

/-- The first of two clients has said `quit`, and is kept waiting for the end. -/
theorem quit_still_held : ∃ s, run (step 8) init
    [.accept, .accept, .send 0 (ascii "quit"), .read 0 4] = some s ∧
      (s.conversations 0).child = .quit ∧ Held s.tables (.client 0) := by
  have hquit : (run (step 8) init [.accept, .accept, .send 0 (ascii "quit"), .read 0 4]).map
      (fun s ↦ ((s.conversations 0).child, s.accepted, s.parent)) = some (.quit, 2, .reaping) := by
    decide +kernel
  obtain ⟨s, hrun, hs⟩ := Option.map_eq_some_iff.mp hquit
  obtain ⟨hchild, haccepted, hparent⟩ : _ ∧ _ ∧ _ := by simpa only [Prod.mk.injEq] using hs
  have hlt : 0 < s.accepted := by omega
  refine ⟨s, hrun, hchild, ((held_iff hrun).2 0 hlt).mpr (Or.inl ?_)⟩
  rw [hparent]
  decide

end ProcessServer

end CodeOnLinux
