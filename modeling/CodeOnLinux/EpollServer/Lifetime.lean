import CodeOnLinux.EpollServer.Server

/-!
# The lifetime of the client records

Of the two ways in which a client is dropped, the one after a failed `send` closes the descriptor,
frees the record and leaves. The one after a failed `recv` frees the record first and then takes
the descriptor to close from it. And where the loop runs on behind the events of its batch, it
follows pointers of earlier batches, to records that may be freed. The lifetime of the records is
sound in a run exactly if neither happens (`records_sound_iff`).

## The invariant

Each allocated record serves a client of its own, who is registered under the descriptor in it
(`Linked`), and the events of the batch that are still to come point to allocated records (`Kept`).
Both may fail once the server has left its loop for good; what holds even then is that no record was
misused, and that each client was dropped at most once (`Tidy`). An event behind the batch is the
one way to a record that is not allocated, and a failed `recv` the one way to the descriptor in a
record that was freed, so the two are the whole condition (`Careful`).
-/

namespace CodeOnLinux

namespace EpollServer

open Transition

/-- Every record is used, and every client dropped, as it should be. -/
structure Sound (sockfd : ℤ) (r : Resources) : Prop where
  /-- No record was used when it was not allocated. -/
  not_misused : r.misused = false
  /-- The registered descriptors have their records. -/
  registered : ∀ fd ptr, r.registered fd = some ptr → fd = sockfd ∧ ptr = .sockfdInfo ∨
    ∃ p ∈ r.allocated, ptr = .client p ∧ r.fd p = fd
  /-- Each client that was dropped was closed and freed once. -/
  dropped : ∀ c ∈ r.dropped, r.frees c = 1 ∧ r.closes c = 1
  /-- The others never were. -/
  others : ∀ c ∉ r.dropped, r.frees c = 0 ∧ r.closes c = 0

/-- What an iteration must find behind the pointer of its entry, where that is a client's: a record
that is still allocated, if the entry lies behind the batch, and something to receive. -/
def Ptr.Usable (sockfd : ℤ) (s : State) (a : Answer) : Ptr → Prop
  | .sockfdInfo => True
  | .client p => (s.count ≤ s.i → p ∈ s.allocated) ∧ (s.fd p ≠ sockfd → a.text ≠ [])

def Careful (sockfd : ℤ) (s : State) : Label → Prop
  | .event a => (s.re s.i).epollin = true → (s.re s.i).ptr.Usable sockfd s a
  | _ => True

instance (sockfd : ℤ) (s : State) (a : Answer) (ptr : Ptr) : Decidable (ptr.Usable sockfd s a) := by
  cases ptr <;> unfold Ptr.Usable <;> infer_instance

instance (sockfd : ℤ) (s : State) (l : Label) : Decidable (Careful sockfd s l) := by
  cases l <;> unfold Careful <;> infer_instance

/-! ## Clients with a record -/

namespace Resources

/-- The record at `p` is that of client `c`, who is registered and was not dropped. -/
structure Serves (r : Resources) (p c : ℕ) : Prop where
  /-- The descriptor of the client is open. -/
  opened : r.fd p ∈ r.opened
  /-- The epoll set has the record for it. -/
  registered : r.registered (r.fd p) = some (.client p)
  /-- The client was accepted. -/
  lt_accepted : c < r.accepted
  /-- He was not dropped. -/
  not_dropped : c ∉ r.dropped
  /-- The record was last given to him. -/
  owner : r.owner p = some c
  /-- So was the descriptor. -/
  holder : r.holder (r.fd p) = some c

/-- What holds in every state. -/
structure Tidy (sockfd : ℤ) (r : Resources) : Prop where
  /-- Records and clients are treated as they should be. -/
  sound : Sound sockfd r
  /-- Only those are dropped who were accepted. -/
  dropped_lt : ∀ c ∈ r.dropped, c < r.accepted
  /-- The listening socket stays registered. -/
  listener : r.registered sockfd = some .sockfdInfo
  /-- It stays open. -/
  listener_opened : sockfd ∈ r.opened

/-- What holds as long as the server runs: each allocated record serves a client of its own. -/
structure Linked (r : Resources) : Prop where
  /-- Each allocated record serves a client. -/
  serves : ∀ p ∈ r.allocated, ∃ c, r.Serves p c
  /-- No two serve the same one. -/
  inj : ∀ p ∈ r.allocated, ∀ q ∈ r.allocated, r.owner p = r.owner q → p = q

theorem tally_self (n : ℕ → ℕ) (c : ℕ) : tally n (some c) c = n c + 1 := Function.update_self _ _ _

theorem tally_of_ne (n : ℕ → ℕ) {c d : ℕ} (h : d ≠ c) : tally n (some c) d = n d :=
  Function.update_of_ne h _ _

theorem touch_of_mem {r : Resources} {p : ℕ} (h : p ∈ r.allocated) : r.touch p = r := by
  simp [touch, h]

theorem touch_misused {r : Resources} {p : ℕ} (h : p ∉ r.allocated) :
    (r.touch p).misused = true := by
  simp [touch, h]

theorem register_eq_some {r : Resources} {fd fd' : ℤ} {ptr ptr' : Ptr} :
    (r.register fd ptr).registered fd' = some ptr' ↔
      fd' = fd ∧ ptr' = ptr ∨ fd' ≠ fd ∧ r.registered fd' = some ptr' := by
  rw [register]
  by_cases h : fd' = fd
  · simp [h, eq_comm]
  · simp [h]

section

variable {sockfd : ℤ} {r : Resources} {p c : ℕ}

theorem Serves.fd_ne_sockfd (h : r.Serves p c) (htidy : Tidy sockfd r) : r.fd p ≠ sockfd :=
  fun he ↦ by
    have hregistered := h.registered
    rw [he, htidy.listener] at hregistered
    cases hregistered

/-- Two records do not share a descriptor. -/
theorem Serves.fd_ne (h : r.Serves p c) {q d : ℕ} (hq : r.Serves q d) (hne : q ≠ p) :
    r.fd q ≠ r.fd p := fun he ↦ by
  have hregistered := hq.registered
  rw [he, h.registered] at hregistered
  exact hne (Ptr.client.inj (Option.some_inj.mp hregistered)).symm

theorem Tidy.accept (h : Tidy sockfd r) (newfd : ℤ) : Tidy sockfd (r.accept newfd) :=
  ⟨⟨h.sound.not_misused, h.sound.registered, h.sound.dropped, h.sound.others⟩, h.dropped_lt,
    h.listener, Finset.mem_insert_of_mem h.listener_opened⟩

/-- A new record, on memory that was not allocated. -/
theorem Tidy.store (h : Tidy sockfd r) (hp : p ∉ r.allocated) (newfd : ℤ) :
    Tidy sockfd (r.store p newfd) := by
  refine ⟨⟨h.sound.not_misused, fun fd ptr hfd ↦ ?_, h.sound.dropped, h.sound.others⟩,
    fun c hc ↦ Nat.lt_succ_of_lt (h.dropped_lt c hc), h.listener, h.listener_opened⟩
  refine (h.sound.registered fd ptr hfd).imp_right ?_
  rintro ⟨q, hq, hptr, hfdq⟩
  have hne : q ≠ p := fun he ↦ hp (he ▸ hq)
  exact ⟨q, Finset.mem_insert_of_mem hq, hptr, (Function.update_of_ne hne _ _).trans hfdq⟩

/-- The descriptor of a new client is registered. -/
theorem Tidy.connect (h : Tidy sockfd r) (hp : p ∉ r.allocated) {newfd : ℤ}
    (hnew : newfd ∉ r.opened) :
    Tidy sockfd (((r.accept newfd).store p newfd).register newfd (.client p)) := by
  obtain ⟨⟨hmisused, hregistered, hdropped, hothers⟩, hlt, hlistener, hopened⟩ :=
    (h.accept newfd).store hp newfd
  refine ⟨⟨hmisused, fun fd ptr hfd ↦ ?_, hdropped, hothers⟩, hlt, ?_, hopened⟩
  · obtain ⟨rfl, rfl⟩ | ⟨-, hfd⟩ := register_eq_some.mp hfd
    · exact Or.inr ⟨p, Finset.mem_insert_self _ _, rfl, Function.update_self _ _ _⟩
    · exact hregistered fd ptr hfd
  · have hsock : sockfd ≠ newfd := fun he ↦ hnew (he ▸ h.listener_opened)
    exact (Function.update_of_ne hsock _ _).trans hlistener

/-- A record that was there before goes on to serve its client. -/
theorem Serves.connect {q : ℕ} (h : r.Serves q c) (hqp : q ≠ p) {newfd : ℤ}
    (hnew : newfd ∉ r.opened) :
    Serves (((r.accept newfd).store p newfd).register newfd (.client p)) q c := by
  have hfd : r.fd q ≠ newfd := fun he ↦ hnew (he ▸ h.opened)
  have hself : (((r.accept newfd).store p newfd).register newfd (.client p)).fd q = r.fd q :=
    Function.update_of_ne hqp _ _
  refine ⟨?_, ?_, Nat.lt_succ_of_lt h.lt_accepted, h.not_dropped,
    (Function.update_of_ne hqp _ _).trans h.owner, ?_⟩
  · rw [hself]
    exact Finset.mem_insert_of_mem h.opened
  · rw [hself]
    exact (Function.update_of_ne hfd _ _).trans h.registered
  · rw [hself]
    exact (Function.update_of_ne hfd _ _).trans h.holder

/-- The new record serves the new client. -/
theorem serves_accepted (hfresh : r.accepted ∉ r.dropped) (p : ℕ) (newfd : ℤ) :
    Serves (((r.accept newfd).store p newfd).register newfd (.client p)) p r.accepted := by
  have hself : (((r.accept newfd).store p newfd).register newfd (.client p)).fd p = newfd :=
    Function.update_self _ _ _
  refine ⟨?_, ?_, Nat.lt_succ_self _, hfresh, Function.update_self _ _ _, ?_⟩
  · rw [hself]
    exact Finset.mem_insert_self _ _
  · rw [hself]
    exact Function.update_self _ _ _
  · rw [hself]
    exact Function.update_self _ _ _

theorem Linked.connect (h : Linked r) (hfresh : r.accepted ∉ r.dropped) (hp : p ∉ r.allocated)
    {newfd : ℤ} (hnew : newfd ∉ r.opened) :
    Linked (((r.accept newfd).store p newfd).register newfd (.client p)) := by
  have hne : ∀ q ∈ r.allocated, q ≠ p := fun q hq he ↦ hp (he ▸ hq)
  have hnewest := serves_accepted hfresh p newfd
  refine ⟨fun q hq ↦ ?_, fun q hq q' hq' he ↦ ?_⟩
  · obtain rfl | hq := Finset.mem_insert.mp hq
    · exact ⟨_, hnewest⟩
    · obtain ⟨c, hc⟩ := h.serves q hq
      exact ⟨c, hc.connect (hne q hq) hnew⟩
  · -- the owners of the old records are older than the new client
    have hapart : ∀ q ∈ r.allocated, r.owner q ≠ some r.accepted := fun q hq he ↦ by
      obtain ⟨c, hc⟩ := h.serves q hq
      rw [hc.owner, Option.some_inj] at he
      exact absurd hc.lt_accepted (he ▸ lt_irrefl _)
    have hrest : ∀ q ∈ r.allocated,
        (((r.accept newfd).store p newfd).register newfd (.client p)).owner q = r.owner q :=
      fun q hq ↦ Function.update_of_ne (hne q hq) _ _
    obtain hqp | hqold := Finset.mem_insert.mp hq
    · obtain hqp' | hqold' := Finset.mem_insert.mp hq'
      · rw [hqp, hqp']
      · rw [hqp, hnewest.owner, hrest q' hqold'] at he
        exact absurd he.symm (hapart q' hqold')
    · rw [hrest q hqold] at he
      obtain hqp' | hqold' := Finset.mem_insert.mp hq'
      · rw [hqp', hnewest.owner] at he
        exact absurd he (hapart q hqold)
      · rw [hrest q' hqold'] at he
        exact h.inj q hqold q' hqold' he

theorem dropAfterSend_eq (hp : p ∈ r.allocated) (hc : r.Serves p c) (garbage : ℤ) :
    r.dropAfterSend p garbage =
      { r with
        fd := Function.update r.fd p garbage
        allocated := r.allocated.erase p
        opened := r.opened.erase (r.fd p)
        registered := Function.update r.registered (r.fd p) none
        dropped := insert c r.dropped
        frees := tally r.frees (some c)
        closes := tally r.closes (some c) } := by
  simp [dropAfterSend, markDropped, close, free, touch, hp, hc.owner, hc.holder]

/-- A client whose record is intact is dropped in the order `close`, `free`. -/
theorem Tidy.dropAfterSend (h : Tidy sockfd r) (hp : p ∈ r.allocated) (hc : r.Serves p c)
    (garbage : ℤ) : Tidy sockfd (r.dropAfterSend p garbage) := by
  rw [dropAfterSend_eq hp hc]
  obtain ⟨hfrees, hcloses⟩ := h.sound.others c hc.not_dropped
  have hcount : ∀ d ∈ insert c r.dropped, tally r.frees (some c) d = 1 ∧
      tally r.closes (some c) d = 1 := fun d hd ↦ by
    by_cases hdc : d = c
    · subst hdc
      rw [tally_self, tally_self, hfrees, hcloses]
      exact ⟨rfl, rfl⟩
    · rw [tally_of_ne _ hdc, tally_of_ne _ hdc]
      exact h.sound.dropped d ((Finset.mem_insert.mp hd).resolve_left hdc)
  refine ⟨⟨h.sound.not_misused, fun fd ptr hfd ↦ ?_, hcount, fun d hd ↦ ?_⟩, fun d hd ↦ ?_,
    ?_, ?_⟩
  · dsimp only at hfd
    by_cases hfdp : fd = r.fd p
    · rw [hfdp, Function.update_self] at hfd
      cases hfd
    · rw [Function.update_of_ne hfdp] at hfd
      refine (h.sound.registered fd ptr hfd).imp_right ?_
      rintro ⟨q, hq, hptr, hfdq⟩
      have hqp : q ≠ p := fun he ↦ hfdp (he ▸ hfdq).symm
      exact ⟨q, Finset.mem_erase.mpr ⟨hqp, hq⟩, hptr,
        (Function.update_of_ne hqp _ _).trans hfdq⟩
  · rw [Finset.mem_insert, not_or] at hd
    dsimp only
    rw [tally_of_ne _ hd.1, tally_of_ne _ hd.1]
    exact h.sound.others d hd.2
  · obtain rfl | hd := Finset.mem_insert.mp hd
    · exact hc.lt_accepted
    · exact h.dropped_lt d hd
  · exact (Function.update_of_ne (hc.fd_ne_sockfd h).symm _ _).trans h.listener
  · exact Finset.mem_erase.mpr ⟨(hc.fd_ne_sockfd h).symm, h.listener_opened⟩

/-- The others keep their records and descriptors. -/
theorem Serves.dropAfterSend (hp : p ∈ r.allocated) (hc : r.Serves p c) {q d : ℕ}
    (hd : r.Serves q d) (hqp : q ≠ p) (hdc : d ≠ c) (garbage : ℤ) :
    (r.dropAfterSend p garbage).Serves q d := by
  rw [dropAfterSend_eq hp hc]
  have hfd : r.fd q ≠ r.fd p := hc.fd_ne hd hqp
  refine ⟨?_, ?_, hd.lt_accepted, ?_, hd.owner, ?_⟩
  · simp only [Function.update_of_ne hqp]
    exact Finset.mem_erase.mpr ⟨hfd, hd.opened⟩
  · simp only [Function.update_of_ne hqp, Function.update_of_ne hfd]
    exact hd.registered
  · exact fun hmem ↦ (Finset.mem_insert.mp hmem).elim hdc hd.not_dropped
  · simp only [Function.update_of_ne hqp]
    exact hd.holder

theorem Linked.dropAfterSend (h : Linked r) (hp : p ∈ r.allocated) (hc : r.Serves p c)
    (garbage : ℤ) : Linked (r.dropAfterSend p garbage) := by
  have heq := dropAfterSend_eq hp hc garbage
  have hallocated : (r.dropAfterSend p garbage).allocated = r.allocated.erase p := by rw [heq]
  have howner : (r.dropAfterSend p garbage).owner = r.owner := by rw [heq]
  refine ⟨fun q hq ↦ ?_, fun q hq q' hq' he ↦ ?_⟩
  · rw [hallocated] at hq
    obtain ⟨hqp, hq⟩ := Finset.mem_erase.mp hq
    obtain ⟨d, hd⟩ := h.serves q hq
    have hdc : d ≠ c := fun he ↦ hqp (h.inj q hq p hp (by rw [hd.owner, hc.owner, he]))
    exact ⟨d, hc.dropAfterSend hp hd hqp hdc garbage⟩
  · rw [hallocated] at hq hq'
    rw [howner] at he
    exact h.inj q (Finset.mem_of_mem_erase hq) q' (Finset.mem_of_mem_erase hq') he

theorem dropAfterRecv_misused_of_misused {garbage : ℤ} (h : r.misused = true) :
    (r.dropAfterRecv p garbage).misused = true := by
  rw [dropAfterRecv]
  split_ifs <;> simp [markDropped, delete, free, touch, close, h]

/-- Dropped in the order `free`, `close`, its record is read after it was freed. -/
theorem dropAfterRecv_misused (hlinked : Linked r) (hp : p ∈ r.allocated) (garbage : ℤ) :
    (r.dropAfterRecv p garbage).misused = true := by
  obtain ⟨c, hc⟩ := hlinked.serves p hp
  have hdelete : r.canDelete (r.fd p) = true :=
    decide_eq_true ⟨hc.opened, by rw [hc.registered]; simp⟩
  have hfreed : p ∉ (((r.markDropped p).delete (r.fd p)).free p garbage).allocated :=
    Finset.notMem_erase p _
  rw [dropAfterRecv, if_pos hdelete]
  exact touch_misused hfreed

end

end Resources

/-! ## Steps -/

/-- The server is in its loop or about to call `epoll_wait`. -/
def State.Running (s : State) : Prop := s.phase = .looping ∨ s.phase = .broke

/-- What holds in every state of a run. -/
structure Kept (sockfd : ℤ) (s : State) : Prop where
  /-- Records and clients are treated as they should be. -/
  tidy : s.toResources.Tidy sockfd
  /-- While the server runs, each record serves its own client. -/
  linked : s.Running → s.toResources.Linked
  /-- The events of the batch that are still to come point to allocated records. -/
  pending : s.phase = .looping → ∀ j, s.i ≤ j → j < s.count → ∀ p, (s.re j).ptr = .client p →
    p ∈ s.allocated

theorem kept_init (sockfd : ℤ) (opened : Finset ℤ) (memory : ℕ → ℤ) (re : ℕ → Event) :
    Kept sockfd (init sockfd opened memory re) := by
  have hnone : ∀ c, c ∉ (init sockfd opened memory re).dropped := Finset.notMem_empty
  have hrecord : ∀ p, p ∉ (init sockfd opened memory re).allocated := Finset.notMem_empty
  refine ⟨⟨⟨rfl, fun fd ptr h ↦ ?_, fun c hc ↦ absurd hc (hnone c), fun _ _ ↦ ⟨rfl, rfl⟩⟩,
    fun c hc ↦ absurd hc (hnone c), if_pos rfl, Finset.mem_insert_self _ _⟩,
    fun _ ↦ ⟨fun p hp ↦ absurd hp (hrecord p), fun p hp ↦ absurd hp (hrecord p)⟩,
    fun _ j _ hj ↦ absurd hj (Nat.not_lt_zero j)⟩
  dsimp only [init] at h
  split_ifs at h with hfd
  exact Or.inl ⟨hfd, (Option.some_inj.mp h).symm⟩

section

variable {sockfd : ℤ} {s : State} {a : Answer}

/-- Only the index, the bound, the phase and the like change, and the loop does not go back. -/
theorem Kept.of_eq {t : State} (h : Kept sockfd s) (hres : t.toResources = s.toResources)
    (hrunning : t.Running → s.Running) (hlooping : t.phase = .looping → s.phase = .looping)
    (hre : t.re = s.re) (hi : s.i ≤ t.i) (hcount : t.count = s.count) : Kept sockfd t := by
  refine ⟨hres ▸ h.tidy, fun hrun ↦ hres ▸ h.linked (hrunning hrun), fun hphase j hj hjc p hp ↦ ?_⟩
  rw [hres]
  rw [hre] at hp
  exact h.pending (hlooping hphase) j (hi.trans hj) (hcount ▸ hjc) p hp

/-- Once the server has stopped, the client records are left as they are. -/
theorem kept_of_not_running (h : s.toResources.Tidy sockfd) (hrunning : ¬s.Running) :
    Kept sockfd s :=
  ⟨h, fun hrun ↦ absurd hrun hrunning, fun hphase ↦ absurd (Or.inl hphase) hrunning⟩

theorem Kept.connect (h : Kept sockfd s) (hphase : s.phase = .looping) (ha : Plausible s a) :
    Kept sockfd (s.connect a) := by
  rw [State.connect]
  cases haccept : a.accept with
  | none => exact kept_of_not_running h.tidy (by simp [State.Running])
  | some newfd =>
    have hnew := ha.accept newfd haccept
    cases hmalloc : a.malloc with
    | none => exact kept_of_not_running (h.tidy.accept newfd) (by simp [State.Running])
    | some p =>
      have hp := ha.malloc p hmalloc
      cases a.add with
      | false =>
        exact kept_of_not_running ((h.tidy.accept newfd).store hp newfd) (by simp [State.Running])
      | true =>
        have hfresh : s.accepted ∉ s.dropped := fun hc ↦
          absurd (h.tidy.dropped_lt _ hc) (lt_irrefl _)
        have hlinked := (h.linked (Or.inl hphase)).connect hfresh hp hnew
        refine ⟨h.tidy.connect hp hnew, fun _ ↦ hlinked, fun _ j hj hjc q hq ↦ ?_⟩
        exact Finset.mem_insert_of_mem (h.pending hphase j (Nat.le_of_succ_le hj) hjc q hq)

/-- A record of an earlier batch that was freed: to look at its descriptor is a misuse, whatever
comes then. -/
theorem connect_misused (h : s.misused = true) : (s.connect a).misused = true := by
  rw [State.connect]
  cases a.accept with
  | none => exact h
  | some newfd =>
    cases a.malloc with
    | none => exact h
    | some p => cases a.add <;> exact h

theorem relay_misused {p : ℕ} (h : s.misused = true) : (s.relay p a).misused = true := by
  rw [State.relay]
  split_ifs
  · exact Resources.dropAfterRecv_misused_of_misused h
  · cases Echo.reply a.text with
    | error f => exact h
    | ok reply =>
      cases a.send with
      | none => exact (Bool.or_eq_true _ _).mpr (Or.inl h)
      | some k => exact h

theorem Kept.relay (h : Kept sockfd s) (hphase : s.phase = .looping) {p : ℕ}
    (hp : p ∈ s.allocated) :
    (a.text ≠ [] → Kept sockfd (s.relay p a)) ∧
      (Sound sockfd (s.relay p a).toResources → a.text ≠ []) := by
  rw [State.relay]
  split_ifs with hempty
  · refine ⟨fun hne ↦ absurd hempty hne, fun hsound ↦ ?_⟩
    have hmisused := Resources.dropAfterRecv_misused (h.linked (Or.inl hphase)) hp a.garbage
    rw [hsound.not_misused] at hmisused
    cases hmisused
  · refine ⟨fun _ ↦ ?_, fun _ ↦ hempty⟩
    cases Echo.reply a.text with
    | error f => exact kept_of_not_running h.tidy (by simp [State.Running])
    | ok reply =>
      cases a.send with
      | none =>
        have hlinked := h.linked (Or.inl hphase)
        obtain ⟨c, hc⟩ := hlinked.serves p hp
        exact ⟨h.tidy.dropAfterSend hp hc a.garbage,
          fun _ ↦ hlinked.dropAfterSend hp hc a.garbage, nofun⟩
      | some k => exact h.of_eq rfl id id rfl (Nat.le_succ s.i) rfl

/-- One iteration: it keeps the invariant if it is careful, and misuses a record otherwise. -/
theorem Kept.advance (h : Kept sockfd s) (hphase : s.phase = .looping) (ha : Plausible s a) :
    (Careful sockfd s (.event a) → Kept sockfd (s.advance sockfd a)) ∧
      (Sound sockfd (s.advance sockfd a).toResources → Careful sockfd s (.event a)) := by
  have hvisit : Kept sockfd { s with visited := s.visited ++ [s.i] } :=
    h.of_eq rfl id id rfl (le_refl _) rfl
  rw [State.advance, Careful]
  cases hin : (s.re s.i).epollin with
  | false => exact ⟨fun _ ↦ hvisit.of_eq rfl id id rfl (Nat.le_succ s.i) rfl, fun _ ↦ nofun⟩
  | true =>
    cases hptr : (s.re s.i).ptr with
    | sockfdInfo =>
      exact ⟨fun _ ↦ hvisit.connect hphase ⟨ha.accept, ha.malloc⟩, fun _ _ ↦ trivial⟩
    | client p =>
      by_cases hp : p ∈ s.allocated
      · -- the record is in use, and its descriptor is a client's
        obtain ⟨c, hc⟩ := (h.linked (Or.inl hphase)).serves p hp
        have hne := hc.fd_ne_sockfd h.tidy
        obtain ⟨hkeep, hback⟩ := hvisit.relay (a := a) hphase hp
        simp only [if_true, Resources.touch_of_mem hp, hne, if_false]
        exact ⟨fun hcareful ↦ hkeep ((hcareful trivial).2 hne),
          fun hsound _ ↦ ⟨fun _ ↦ hp, fun _ ↦ hback hsound⟩⟩
      · have hmisused := Resources.touch_misused hp
        refine ⟨fun hcareful ↦ ?_, fun hsound ↦ ?_⟩
        · have hbehind : s.count ≤ s.i := by
            by_contra hlt
            exact hp (h.pending hphase s.i (le_refl _) (not_le.mp hlt) p hptr)
          exact absurd ((hcareful rfl).1 hbehind) hp
        · have hused : (if s.fd p = sockfd
              then State.connect
                { s with toResources := s.touch p, visited := s.visited ++ [s.i] } a
              else State.relay
                { s with toResources := s.touch p, visited := s.visited ++ [s.i] } p a).misused =
                  true := by
            split_ifs
            · exact connect_misused hmisused
            · exact relay_misused hmisused
          exact absurd (hsound.not_misused.symm.trans hused) (by decide)

theorem State.Waiting.running (h : s.Waiting) : s.Running := h.elim Or.inr fun h ↦ Or.inl h.1

/-- `epoll_wait` hands out the records of registered clients. -/
theorem Kept.wait (h : Kept sockfd s) (hwait : s.Waiting) {ready : List (ℤ × Bool)}
    (hready : ∀ e ∈ ready, s.registered e.1 ≠ none) :
    Kept sockfd ((s.fill ready).begin ready.length) := by
  refine ⟨h.tidy, fun _ ↦ h.linked hwait.running, fun _ j _ hj p hp ↦ ?_⟩
  replace hj : j < ready.length := hj
  replace hp : ((s.fill ready).re j).ptr = .client p := hp
  obtain ⟨ptr, hptr⟩ := Option.ne_none_iff_exists'.mp (hready _ (List.getElem_mem hj))
  rw [s.fill_re (List.getElem?_eq_getElem hj), hptr] at hp
  obtain rfl : ptr = .client p := hp
  obtain ⟨-, hptr'⟩ | ⟨q, hq, hptr', -⟩ := h.tidy.sound.registered _ _ hptr
  · cases hptr'
  · exact Ptr.client.inj hptr' ▸ hq

theorem Kept.step {t : State} {l : Label} (h : Kept sockfd s) (hst : step sockfd s l = some t) :
    (Careful sockfd s l → Kept sockfd t) ∧ (Sound sockfd t.toResources → Careful sockfd s l) := by
  cases l with
  | wait ready =>
    obtain ⟨⟨hwait, -, hready⟩, rfl⟩ := guarded_eq_some.mp hst
    exact ⟨fun _ ↦ h.wait hwait hready, fun _ ↦ trivial⟩
  | waitFails =>
    obtain ⟨-, rfl⟩ := guarded_eq_some.mp hst
    exact ⟨fun _ ↦ kept_of_not_running h.tidy (by simp [State.Running]), fun _ ↦ trivial⟩
  | event a =>
    obtain ⟨⟨hphase, -, ha⟩, rfl⟩ := guarded_eq_some.mp hst
    exact h.advance hphase ha

end

/-! ## Runs -/

/-- **When the lifetime of the client records is sound** in every state of a run: if and only if
`recv` never fails for a client, and no entry behind its batch leads the loop to a freed record. -/
theorem records_sound_iff {sockfd : ℤ} {opened : Finset ℤ} {memory : ℕ → ℤ} {re : ℕ → Event}
    {labels : List Label} {t : State}
    (hrun : run (step sockfd) (init sockfd opened memory re) labels = some t) :
    (∀ done u, done <+: labels →
      run (step sockfd) (init sockfd opened memory re) done = some u →
        Sound sockfd u.toResources) ↔
    Along (step sockfd) (Careful sockfd) (init sockfd opened memory re) labels :=
  throughout_iff_along (fun _ hs ↦ hs.tidy.sound) (fun _ _ _ hs hst ↦ hs.step hst)
    (kept_init sockfd opened memory re) hrun

/-- The listening socket is 3, and nothing was handed out yet. -/
def idle : State := init 3 {0, 1, 2} (fun _ ↦ 0) fun _ ↦ ⟨false, .sockfdInfo⟩

/-- A client connects, under descriptor 4. -/
def oneConnects : List Label := [.wait [(3, true)], .event ⟨some 4, some 0, true, none, none, 7⟩]

/-- Then the reply to his message cannot be sent. -/
theorem records_sound_sendFails :
    ∃ t, run (step 3) idle
        (oneConnects ++
          [.wait [(4, true)], .event ⟨none, none, true, some (ascii "hi"), none, 7⟩]) = some t ∧
      t.dropped = {0} ∧ Sound 3 t.toResources := by
  have hmap : (run (step 3) idle (oneConnects ++
      [.wait [(4, true)], .event ⟨none, none, true, some (ascii "hi"), none, 7⟩])).map (·.dropped) =
        some {0} := by decide +kernel
  obtain ⟨t, hrun, hdropped⟩ := Option.map_eq_some_iff.mp hmap
  exact ⟨t, hrun, hdropped,
    (records_sound_iff hrun).mpr (by decide +kernel) _ t (List.prefix_refl _) hrun⟩

/-- Or he closes his end: his descriptor is read from the record that was just freed. -/
theorem records_not_sound :
    ¬∀ labels t, run (step 3) idle labels = some t → Sound 3 t.toResources := by
  intro h
  have hmap : (run (step 3) idle (oneConnects ++
      [.wait [(4, true)], .event ⟨none, none, true, some [], none, 7⟩])).map (·.misused) =
        some true := by decide +kernel
  obtain ⟨t, hrun, hmisused⟩ := Option.map_eq_some_iff.mp hmap
  exact absurd ((h _ t hrun).not_misused.symm.trans hmisused) (by decide)

end EpollServer

end CodeOnLinux
