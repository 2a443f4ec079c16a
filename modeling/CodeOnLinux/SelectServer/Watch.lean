import CodeOnLinux.SelectServer.Pass

/-!
# What the server with `select` watches

If `savefds` starts empty and clients get descriptors above `sockfd`, the watched set is always
`sockfd` and the clients that were not dropped, all below `maxfd` (`Watched`), and a pass receives
from exactly the ready clients. The scan keeps this although it changes its own bound: a drop
lowers `maxfd` only past the descriptor that was removed.

Measured against the descriptors that are open, the set is exact only on runs that begin with a
clean stack and in which nothing is dropped, because a dropped descriptor is never closed.
-/

namespace CodeOnLinux

namespace SelectServer

open Transition

/-! ## Live clients stay watched -/

/-- The watch set is `sockfd` and the clients, below `maxfd`. -/
structure Watched (sockfd : ℕ) (s : State) : Prop where
  /-- The set is the listening socket and the clients. -/
  savefds_eq : s.savefds = insert sockfd s.clients
  /-- `maxfd` is above it. -/
  lt_maxfd : ∀ fd ∈ s.savefds, fd < s.maxfd
  /-- The clients come behind the listening socket. -/
  sockfd_lt : ∀ fd ∈ s.clients, sockfd < fd
  /-- Their descriptors are open. -/
  accepted_opened : s.accepted ⊆ s.opened
  /-- Only clients are dropped. -/
  dropped_accepted : s.dropped ⊆ s.accepted

theorem watched_init (sockfd : ℕ) (opened : Finset ℕ) : Watched sockfd (init sockfd ∅ opened) where
  savefds_eq := rfl
  lt_maxfd := by simp [init]
  sockfd_lt := by simp [init, State.clients]
  accepted_opened := Finset.empty_subset _
  dropped_accepted := Finset.empty_subset _

theorem Watched.accept {sockfd newfd : ℕ} {s : State} (h : Watched sockfd s)
    (hlt : sockfd < newfd) (hnew : newfd ∉ s.opened) : Watched sockfd (s.accept newfd) := by
  have hdropped : newfd ∉ s.dropped := fun hmem ↦
    hnew (h.accepted_opened (h.dropped_accepted hmem))
  have hclients : (s.accept newfd).clients = insert newfd s.clients :=
    Finset.insert_sdiff_of_notMem _ hdropped
  constructor
  · rw [hclients, Finset.insert_comm, ← h.savefds_eq]
    rfl
  · intro fd hfd
    have hle : s.maxfd ≤ (s.accept newfd).maxfd ∧ newfd < (s.accept newfd).maxfd := by
      simp only [State.accept]
      split <;> omega
    rcases Finset.mem_insert.mp hfd with rfl | hfd
    · exact hle.2
    · exact (h.lt_maxfd fd hfd).trans_le hle.1
  · intro fd hfd
    rw [hclients] at hfd
    rcases Finset.mem_insert.mp hfd with rfl | hfd
    · exact hlt
    · exact h.sockfd_lt fd hfd
  · exact Finset.insert_subset_insert newfd h.accepted_opened
  · exact h.dropped_accepted.trans (Finset.subset_insert newfd s.accepted)

theorem Watched.drop {sockfd i : ℕ} {s : State} (h : Watched sockfd s) (hi : i ∈ s.clients) :
    Watched sockfd (s.drop i) := by
  have hne : i ≠ sockfd := fun he ↦ absurd (h.sockfd_lt i hi) (by omega)
  have hclients : (s.drop i).clients = s.clients.erase i := by
    ext fd
    simp only [State.clients, State.drop, Finset.mem_sdiff, Finset.mem_insert, Finset.mem_erase]
    tauto
  constructor
  · rw [hclients, ← Finset.erase_insert_of_ne hne.symm, ← h.savefds_eq]
    rfl
  · intro fd hfd
    obtain ⟨hfdne, hfd⟩ := Finset.mem_erase.mp hfd
    have hlt := h.lt_maxfd fd hfd
    -- only the top descriptor lowers the bound, and it is gone from the set
    simp only [State.drop]
    split <;> omega
  · intro fd hfd
    rw [hclients] at hfd
    exact h.sockfd_lt fd (Finset.mem_of_mem_erase hfd)
  · exact h.accepted_opened
  · exact Finset.insert_subset (Finset.mem_sdiff.mp hi).1 h.dropped_accepted

theorem Watched.serve {sockfd i : ℕ} {s : State} (h : Watched sockfd s) (hi : i ∈ s.clients)
    (p : Pass) : Watched sockfd (serve p i s) := by
  rw [SelectServer.serve]
  split_ifs
  · exact h.drop hi
  · exact h.drop hi
  · exact h

/-- Serving a descriptor takes at most that one out of the set. -/
theorem mem_savefds_serve {p : Pass} {i fd : ℕ} {s : State} (hfd : fd ∈ s.savefds) (hne : fd ≠ i) :
    fd ∈ (serve p i s).savefds := by
  rw [serve]
  split_ifs
  · exact Finset.mem_erase.mpr ⟨hne, hfd⟩
  · exact Finset.mem_erase.mpr ⟨hne, hfd⟩
  · exact hfd

theorem maxfd_serve_le (p : Pass) (i : ℕ) (s : State) : (serve p i s).maxfd ≤ s.maxfd := by
  rw [serve]
  split_ifs
  · exact s.drop_maxfd_le i
  · exact s.drop_maxfd_le i
  · exact le_refl _

/-- Behind the bound there is nothing to receive from. -/
theorem Watched.nothing_behind {sockfd i : ℕ} {s : State} {p : Pass} (h : Watched sockfd s)
    (hready : ∀ fd ∈ p.ready, i ≤ fd → fd ∈ s.savefds) (hle : s.maxfd ≤ i) (fd : ℕ) :
    fd ∈ ([] : List ℕ) ↔ fd ∈ p.ready ∧ i ≤ fd := by
  refine iff_of_false List.not_mem_nil fun ⟨hfd, hge⟩ ↦ ?_
  have := h.lt_maxfd fd (hready fd hfd hge)
  omega

/-- **The scan** keeps the watch set and receives once from each ready descriptor it has not
passed yet. -/
theorem scan_watched {sockfd : ℕ} {p : Pass} {n i : ℕ} {s : State} (h : Watched sockfd s)
    (hi : sockfd < i) (hn : s.maxfd ≤ i + n) (hready : ∀ fd ∈ p.ready, i ≤ fd → fd ∈ s.savefds) :
    Watched sockfd (scan p n i s).1 ∧ (scan p n i s).2.Nodup ∧
      ∀ fd, fd ∈ (scan p n i s).2 ↔ fd ∈ p.ready ∧ i ≤ fd := by
  induction n generalizing i s with
  | zero => exact ⟨h, List.nodup_nil, h.nothing_behind hready (by omega)⟩
  | succ n ih =>
    rw [scan]
    split_ifs with hlt hmem
    · have hclient : i ∈ s.clients := by
        have hwatched := hready i hmem (le_refl i)
        rw [h.savefds_eq, Finset.mem_insert] at hwatched
        exact hwatched.resolve_left hi.ne'
      -- serving may lower the bound under the scan, never raise it
      have hle := maxfd_serve_le p i s
      obtain ⟨hwatched, hnodup, hiff⟩ := ih (i := i + 1) (h.serve hclient p) (by omega) (by omega)
        fun fd hfd hge ↦ mem_savefds_serve (hready fd hfd (by omega)) (by omega)
      refine ⟨hwatched, List.nodup_cons.mpr ⟨fun hmem ↦ ?_, hnodup⟩, fun fd ↦ ?_⟩
      · have := ((hiff i).mp hmem).2
        omega
      · rw [List.mem_cons, hiff]
        constructor
        · rintro (rfl | ⟨hfd, hge⟩)
          · exact ⟨hmem, le_refl fd⟩
          · exact ⟨hfd, by omega⟩
        · rintro ⟨hfd, hge⟩
          by_cases he : fd = i
          · exact Or.inl he
          · exact Or.inr ⟨hfd, by omega⟩
    · obtain ⟨hwatched, hnodup, hiff⟩ := ih (i := i + 1) h (by omega) (by omega)
        fun fd hfd hge ↦ hready fd hfd (by omega)
      refine ⟨hwatched, hnodup, fun fd ↦ (hiff fd).trans ⟨fun ⟨hfd, hge⟩ ↦ ⟨hfd, by omega⟩, ?_⟩⟩
      rintro ⟨hfd, hge⟩
      have hne : fd ≠ i := fun he ↦ hmem (he ▸ hfd)
      exact ⟨hfd, by omega⟩
    · exact ⟨h, List.nodup_nil, h.nothing_behind hready (Nat.le_of_not_lt hlt)⟩

/-- The shape of `accept`'s answers: new clients get descriptors above `sockfd`. -/
def AcceptsAbove (sockfd : ℕ) (_ : State) (p : Pass) : Prop := ∀ fd ∈ p.newfd, sockfd < fd

instance (sockfd : ℕ) (s : State) (p : Pass) : Decidable (AcceptsAbove sockfd s p) :=
  inferInstanceAs (Decidable (∀ fd ∈ p.newfd, sockfd < fd))

theorem Watched.acceptNew {sockfd : ℕ} {s t : State} {p : Pass} (h : Watched sockfd s)
    (habove : AcceptsAbove sockfd s p) (hst : acceptNew sockfd p s = some t) :
    Watched sockfd t ∧ s.savefds ⊆ t.savefds := by
  rw [SelectServer.acceptNew] at hst
  split_ifs at hst with hready
  · obtain ⟨newfd, hnewfd, hst⟩ := Option.bind_eq_some_iff.mp hst
    obtain ⟨hnew, rfl⟩ := guarded_eq_some.mp hst
    exact ⟨h.accept (habove newfd hnewfd) hnew, Finset.subset_insert newfd s.savefds⟩
  · obtain rfl := Option.some_inj.mp hst
    exact ⟨h, subset_rfl⟩

/-- One pass: it keeps the watch set and receives once from exactly the clients that were ready. -/
theorem Watched.pass {sockfd : ℕ} {s t : State} {p : Pass} {received : List ℕ}
    (h : Watched sockfd s) (habove : AcceptsAbove sockfd s p)
    (hpass : pass sockfd s p = some (t, received)) :
    Watched sockfd t ∧ received.Nodup ∧ ∀ fd, fd ∈ received ↔ fd ∈ p.ready ∧ fd ∈ s.clients := by
  obtain ⟨⟨hsub, -⟩, u, hu, hscan⟩ := pass_eq_some.mp hpass
  obtain ⟨hwatched, hle⟩ := h.acceptNew habove hu
  obtain ⟨ht, hnodup, hiff⟩ :=
    scan_watched (p := p) (n := u.maxfd) hwatched (Nat.lt_succ_self sockfd)
    (Nat.le_add_left _ _) fun fd hfd _ ↦ hle (hsub hfd)
  rw [hscan] at ht hnodup hiff
  refine ⟨ht, hnodup, fun fd ↦ (hiff fd).trans ?_⟩
  refine ⟨fun ⟨hfd, hge⟩ ↦ ⟨hfd, ?_⟩, fun ⟨hfd, hc⟩ ↦ ⟨hfd, ?_⟩⟩
  · have hmem := hsub hfd
    rw [h.savefds_eq, Finset.mem_insert] at hmem
    exact hmem.resolve_left (by omega)
  · exact h.sockfd_lt fd hc

/-- **The server never stops watching a live client.** With an empty `savefds` before
`FD_SET(sockfd)` and clients above `sockfd`: in every state that passes lead to, `sockfd` and all
clients are watched and below `maxfd`, and the next pass receives exactly once from each client
that is ready and from nothing else. -/
theorem live_clients_watched {sockfd : ℕ} {opened : Finset ℕ} {passes : List Pass} {s : State}
    (habove : Along (step sockfd) (AcceptsAbove sockfd) (init sockfd ∅ opened) passes)
    (hrun : run (step sockfd) (init sockfd ∅ opened) passes = some s) :
    (sockfd ∈ s.savefds ∧ sockfd < s.maxfd) ∧
    (∀ fd ∈ s.clients, fd ∈ s.savefds ∧ fd < s.maxfd) ∧
    ∀ p t received, AcceptsAbove sockfd s p → pass sockfd s p = some (t, received) →
      received.Nodup ∧ ∀ fd, fd ∈ received ↔ fd ∈ p.ready ∧ fd ∈ s.clients := by
  have h : Watched sockfd s := invariant_of_along
    (fun s p t hs hp hst ↦ (hs.pass hp (step_eq_some.mp hst).choose_spec).1)
    (watched_init sockfd opened) habove hrun
  have hsock : sockfd ∈ s.savefds := by
    rw [h.savefds_eq]
    exact Finset.mem_insert_self _ _
  refine ⟨⟨hsock, h.lt_maxfd _ hsock⟩, fun fd hfd ↦ ?_, fun p t received hp hpass ↦
    (h.pass hp hpass).2⟩
  have hmem : fd ∈ s.savefds := by
    rw [h.savefds_eq]
    exact Finset.mem_insert_of_mem hfd
  exact ⟨hmem, h.lt_maxfd fd hmem⟩

/-- Clients 4 and 6 connect and 6 leaves; both are ready in the next pass. -/
theorem live_clients_watched_after_drop :
    ∃ s, run (step 3) (init 3 ∅ ∅) [⟨{3}, some 4, fun _ ↦ 1, fun _ ↦ 1⟩,
        ⟨{3}, some 6, fun _ ↦ 1, fun _ ↦ 1⟩, ⟨{6}, none, fun _ ↦ 0, fun _ ↦ 1⟩] = some s ∧
      4 ∈ s.savefds ∧ 4 < s.maxfd := by
  have hrun : run (step 3) (init 3 ∅ ∅) [⟨{3}, some 4, fun _ ↦ 1, fun _ ↦ 1⟩,
      ⟨{3}, some 6, fun _ ↦ 1, fun _ ↦ 1⟩, ⟨{6}, none, fun _ ↦ 0, fun _ ↦ 1⟩] = some _ := rfl
  exact ⟨_, hrun, (live_clients_watched (by decide) hrun).2.1 4 (by decide)⟩

/-! ## Open descriptors and the watch set -/

/-- The watch set is `sockfd` and the clients whose descriptors are open. -/
def Exact (sockfd : ℕ) (s : State) : Prop :=
  s.savefds = insert sockfd (s.accepted.filter (· ∈ s.opened))

/-- Neither `recv` nor `send` fails for a descriptor that the scan comes to. -/
def Answered (sockfd : ℕ) (_ : State) (p : Pass) : Prop :=
  ∀ fd ∈ p.ready, sockfd < fd → 0 < p.recv fd ∧ 0 < p.send fd

instance (sockfd : ℕ) (s : State) (p : Pass) : Decidable (Answered sockfd s p) :=
  inferInstanceAs (Decidable (∀ fd ∈ p.ready, sockfd < fd → 0 < p.recv fd ∧ 0 < p.send fd))

theorem serve_of_answered {p : Pass} {i : ℕ} (h : 0 < p.recv i ∧ 0 < p.send i) (s : State) :
    serve p i s = s := by
  rw [serve, if_neg (not_le.mpr h.1), if_neg (not_le.mpr h.2)]

theorem scan_of_answered {p : Pass} {n i : ℕ} {s : State}
    (h : ∀ fd ∈ p.ready, i ≤ fd → 0 < p.recv fd ∧ 0 < p.send fd) : (scan p n i s).1 = s := by
  induction n generalizing i with
  | zero => rfl
  | succ n ih =>
    have hrest := ih (i := i + 1) fun fd hfd hge ↦ h fd hfd (by omega)
    rw [scan]
    split_ifs with hlt hmem
    · rw [serve_of_answered (h i hmem (le_refl i))]
      exact hrest
    · exact hrest
    · rfl

/-- The scan only takes descriptors out of the set. -/
theorem scan_frame (p : Pass) (n i : ℕ) (s : State) :
    (scan p n i s).1.savefds ⊆ s.savefds ∧ (scan p n i s).1.accepted = s.accepted ∧
      (scan p n i s).1.opened = s.opened := by
  have hserve : ∀ i s, (serve p i s).savefds ⊆ s.savefds ∧ (serve p i s).accepted = s.accepted ∧
      (serve p i s).opened = s.opened := fun i s ↦ by
    rw [serve]
    split_ifs
    · exact ⟨Finset.erase_subset i s.savefds, rfl, rfl⟩
    · exact ⟨Finset.erase_subset i s.savefds, rfl, rfl⟩
    · exact ⟨subset_rfl, rfl, rfl⟩
  induction n generalizing i s with
  | zero => exact ⟨subset_rfl, rfl, rfl⟩
  | succ n ih =>
    rw [scan]
    split_ifs with hlt hmem
    · obtain ⟨hsub, haccepted, hopened⟩ := ih (i + 1) (serve p i s)
      obtain ⟨hsub', haccepted', hopened'⟩ := hserve i s
      exact ⟨hsub.trans hsub', haccepted.trans haccepted', hopened.trans hopened'⟩
    · exact ih (i + 1) s
    · exact ⟨subset_rfl, rfl, rfl⟩

/-- A failure that the scan comes to costs some ready descriptor its place in the set. -/
theorem scan_drops {p : Pass} {n i fd : ℕ} {s : State} (hn : s.maxfd ≤ i + n) (hfd : fd ∈ p.ready)
    (hge : i ≤ fd) (hlt : fd < s.maxfd) (hfail : ¬(0 < p.recv fd ∧ 0 < p.send fd)) :
    ∃ x ∈ p.ready, i ≤ x ∧ x ∉ (scan p n i s).1.savefds := by
  induction n generalizing i s with
  | zero => omega
  | succ n ih =>
    rw [scan, if_pos (by omega)]
    split_ifs with hmem
    · by_cases hi : 0 < p.recv i ∧ 0 < p.send i
      · have hne : fd ≠ i := fun he ↦ hfail (he ▸ hi)
        rw [serve_of_answered hi]
        obtain ⟨x, hx, hix, hout⟩ := ih (i := i + 1) (by omega) (by omega) hlt
        exact ⟨x, hx, by omega, hout⟩
      · -- `i` is dropped here, and what follows brings nothing back
        have hdrop : serve p i s = s.drop i := by
          rw [serve]
          split_ifs with hrecv hsend
          · rfl
          · rfl
          · exact absurd ⟨not_le.mp hrecv, not_le.mp hsend⟩ hi
        refine ⟨i, hmem, le_refl i, fun hin ↦ ?_⟩
        have := (scan_frame p n (i + 1) (serve p i s)).1 hin
        rw [hdrop] at this
        exact absurd rfl (Finset.mem_erase.mp this).1
    · have hne : fd ≠ i := fun he ↦ hmem (he ▸ hfd)
      obtain ⟨x, hx, hix, hout⟩ := ih (i := i + 1) (by omega) (by omega) hlt
      exact ⟨x, hx, by omega, hout⟩

/-- Nothing was dropped so far. -/
structure Undropped (sockfd : ℕ) (s : State) : Prop where
  /-- The set is the listening socket and all that were accepted. -/
  savefds_eq : s.savefds = insert sockfd s.accepted
  /-- Their descriptors are open. -/
  accepted_opened : s.accepted ⊆ s.opened

theorem Undropped.exact {sockfd : ℕ} {s : State} (h : Undropped sockfd s) : Exact sockfd s := by
  rw [Exact, Finset.filter_true_of_mem fun fd hfd ↦ h.accepted_opened hfd]
  exact h.savefds_eq

theorem Undropped.acceptNew {sockfd : ℕ} {s t : State} {p : Pass} (h : Undropped sockfd s)
    (hst : acceptNew sockfd p s = some t) :
    Undropped sockfd t ∧ s.savefds ⊆ t.savefds ∧ s.maxfd ≤ t.maxfd := by
  rw [SelectServer.acceptNew] at hst
  split_ifs at hst with hready
  · obtain ⟨newfd, -, hst⟩ := Option.bind_eq_some_iff.mp hst
    obtain ⟨-, rfl⟩ := guarded_eq_some.mp hst
    refine ⟨⟨?_, Finset.insert_subset_insert newfd h.accepted_opened⟩,
      Finset.subset_insert newfd s.savefds, ?_⟩
    · rw [State.accept, Finset.insert_comm, ← h.savefds_eq]
    · rw [State.accept]
      split
      · exact Nat.le_succ_of_le ‹_›
      · exact le_refl _
  · obtain rfl := Option.some_inj.mp hst
    exact ⟨h, subset_rfl, le_refl _⟩

/-- After a pass the set is exact if and only if nothing failed in it. -/
theorem Undropped.step {sockfd : ℕ} {s t : State} {p : Pass} (h : Undropped sockfd s)
    (hst : step sockfd s p = some t) :
    (Answered sockfd s p → Undropped sockfd t) ∧ (Exact sockfd t → Answered sockfd s p) := by
  obtain ⟨received, hpass⟩ := step_eq_some.mp hst
  obtain ⟨⟨hsub, hlt⟩, u, hu, hscan⟩ := pass_eq_some.mp hpass
  obtain ⟨hundropped, hsavefds, hmaxfd⟩ := h.acceptNew hu
  obtain rfl : (scan p u.maxfd (sockfd + 1) u).1 = t := congrArg Prod.fst hscan
  refine ⟨fun hanswered ↦ ?_, fun hexact ↦ ?_⟩
  · rw [scan_of_answered fun fd hfd hge ↦ hanswered fd hfd hge]
    exact hundropped
  · intro fd hfd hgt
    by_contra hfail
    obtain ⟨x, hx, hgt, hout⟩ := scan_drops (n := u.maxfd) (Nat.le_add_left _ _) hfd hgt
      ((hlt fd hfd).trans_le hmaxfd) hfail
    have hmem : x ∈ u.accepted := by
      have := hsavefds (hsub hx)
      rw [hundropped.savefds_eq, Finset.mem_insert] at this
      exact this.resolve_left (by omega)
    obtain ⟨-, haccepted, hopened⟩ := scan_frame p u.maxfd (sockfd + 1) u
    refine hout ?_
    rw [hexact, haccepted, hopened]
    exact Finset.mem_insert_of_mem (Finset.mem_filter.mpr ⟨hmem, hundropped.accepted_opened hmem⟩)

/-- Before the first pass the set is exact if the stack held no other bits. -/
theorem exact_init_iff {sockfd : ℕ} {garbage opened : Finset ℕ} :
    Exact sockfd (init sockfd garbage opened) ↔ garbage ⊆ {sockfd} := by
  have hexact : Exact sockfd (init sockfd garbage opened) ↔ insert sockfd garbage = {sockfd} := by
    rw [Exact, show (init sockfd garbage opened).accepted = ∅ from rfl, Finset.filter_empty]
    rfl
  rw [hexact]
  constructor
  · intro h
    exact (Finset.subset_insert sockfd garbage).trans h.subset
  · intro h
    exact (Finset.insert_subset (Finset.mem_singleton_self sockfd) h).antisymm
      (Finset.singleton_subset_iff.mpr (Finset.mem_insert_self sockfd garbage))

/-- **When the watch set is exact** in every state of a run between passes: if and only if the
stack held no bits but possibly that of `sockfd`, and no `recv` or `send` failed for a client. -/
theorem watch_set_exact_iff {sockfd : ℕ} {garbage opened : Finset ℕ} {passes : List Pass}
    {t : State} (hrun : run (step sockfd) (init sockfd garbage opened) passes = some t) :
    (∀ done u, done <+: passes → run (step sockfd) (init sockfd garbage opened) done = some u →
      Exact sockfd u) ↔
    garbage ⊆ {sockfd} ∧
      Along (step sockfd) (Answered sockfd) (init sockfd garbage opened) passes := by
  have hundropped : garbage ⊆ {sockfd} → Undropped sockfd (init sockfd garbage opened) :=
    fun hsub ↦ ⟨exact_init_iff.mpr hsub, Finset.empty_subset _⟩
  have hiff (hsub : garbage ⊆ {sockfd}) := throughout_iff_along (C := Answered sockfd)
    (fun _ hs ↦ Undropped.exact hs) (fun _ _ _ hs hst ↦ hs.step hst) (hundropped hsub) hrun
  constructor
  · intro hall
    have hsub := exact_init_iff.mp (hall [] _ List.nil_prefix (run_nil _))
    exact ⟨hsub, (hiff hsub).mp hall⟩
  · rintro ⟨hsub, halong⟩
    exact (hiff hsub).mpr halong

/-- Client 4 connects and sends a message. -/
theorem watch_set_exact_after_message :
    ∃ passes t, run (step 3) (init 3 ∅ {0, 1, 2}) passes = some t ∧ t.accepted = {4} ∧
      ∀ done u, done <+: passes → run (step 3) (init 3 ∅ {0, 1, 2}) done = some u →
        Exact 3 u := by
  have hrun : run (step 3) (init 3 ∅ {0, 1, 2})
      [⟨{3}, some 4, fun _ ↦ 1, fun _ ↦ 1⟩, ⟨{4}, none, fun _ ↦ 5, fun _ ↦ 128⟩] = some _ := rfl
  exact ⟨_, _, hrun, by decide, (watch_set_exact_iff hrun).mpr (by decide)⟩

/-- It fails before the first pass, with a bit left on the stack, and on a clean stack after a
client has closed his end. -/
theorem watch_set_not_exact :
    (¬∀ garbage : Finset ℕ, Exact 3 (init 3 garbage {0, 1, 2})) ∧
    ¬∀ passes t, run (step 3) (init 3 ∅ {0, 1, 2}) passes = some t → Exact 3 t := by
  constructor
  · intro h
    exact absurd (h {7}) (by unfold Exact; decide)
  · intro h
    have hexact := h [⟨{3}, some 4, fun _ ↦ 1, fun _ ↦ 1⟩, ⟨{4}, none, fun _ ↦ 0, fun _ ↦ 1⟩] _ rfl
    exact absurd hexact (by unfold Exact; decide)

end SelectServer

end CodeOnLinux
