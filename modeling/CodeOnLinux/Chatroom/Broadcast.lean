import CodeOnLinux.Chatroom.Server

/-!
# Whom a message reaches

A child writes to the clients that were accepted up to its own fork. So a message reaches exactly
the clients connected at that moment if these happen to be the same: nobody up to the sender has
left, everybody after the sender has, and no write fails (`broadcast_exact_iff`). A client that
joins later than the sender never hears him.
-/

namespace CodeOnLinux

namespace Chatroom

open Transition

/-- The client was accepted and has not left. -/
def State.Connected (s : State) (c : ℕ) : Prop := c < s.accepted ∧ c ∉ s.left

/-- A message as clients send it: NUL-free, shorter than the buffer, and not `quit`. -/
structure Message (text : Bytes) : Prop where
  /-- It is not empty. -/
  ne_nil : text ≠ []
  /-- It leaves room in the buffer. -/
  lt_size : text.length < size
  /-- It has no NUL. -/
  zero_notMem : 0 ∉ text
  /-- It does not end the child. -/
  not_quit : isQuit text = false

/-- The writes bring the text to the connection of every connected client, and every write goes to
such a connection. -/
def Exact (s : State) (ch : Child) (text : Bytes) (writes : List Write) : Prop :=
  (∀ d, s.Connected d →
    ∃ w ∈ writes, w.succeeds = true ∧ ch.process.table w.fd = some (.client d)) ∧
  ∀ w ∈ writes, w.text = text ∧ ∃ d, s.Connected d ∧ ch.process.table w.fd = some (.client d)

/-! ## The writes of one message -/

section

variable {table : ℕ → Option File} {text : Bytes} {succeeds : ℕ → Bool} {fds : List ℕ}

theorem of_mem_relay {w : Write} (hw : w ∈ relay table text succeeds fds) :
    w.fd ∈ fds ∧ w.fd ≠ 0 ∧ w.text = text ∧
      (w.succeeds = true ↔ succeeds w.fd ∧ table w.fd ≠ none ∧ text ≠ []) := by
  induction fds with
  | nil => exact absurd hw List.not_mem_nil
  | cons fd fds ih =>
    have hrest : w ∈ relay table text succeeds fds → w.fd ∈ fd :: fds ∧ w.fd ≠ 0 ∧ w.text = text ∧
        (w.succeeds = true ↔ succeeds w.fd ∧ table w.fd ≠ none ∧ text ≠ []) := fun hw ↦
      ⟨List.mem_cons_of_mem fd (ih hw).1, (ih hw).2⟩
    rw [relay] at hw
    split_ifs at hw with hzero hgood
    · exact hrest hw
    · rcases List.mem_cons.mp hw with rfl | hw
      · exact ⟨List.mem_cons_self, hzero, rfl, fun _ ↦ hgood, fun _ ↦ rfl⟩
      · exact hrest hw
    · obtain rfl := List.mem_singleton.mp hw
      exact ⟨List.mem_cons_self, hzero, rfl, fun h ↦ absurd h Bool.false_ne_true,
        fun h ↦ absurd h hgood⟩

variable (table text succeeds) in
/-- The loop reaches an entry or stops at a write that fails. -/
theorem mem_relay_or_failed {fd : ℕ} (hfd : fd ∈ fds) (hne : fd ≠ 0) :
    (∃ w ∈ relay table text succeeds fds, w.fd = fd) ∨
      ∃ w ∈ relay table text succeeds fds, w.succeeds = false := by
  induction fds with
  | nil => exact absurd hfd List.not_mem_nil
  | cons fd' fds ih =>
    rw [relay]
    split_ifs with hzero hgood
    · rcases List.mem_cons.mp hfd with rfl | hfd
      · exact absurd hzero hne
      · exact ih hfd
    · rcases List.mem_cons.mp hfd with rfl | hfd
      · exact Or.inl ⟨_, List.mem_cons_self, rfl⟩
      · rcases ih hfd with ⟨w, hw, hwfd⟩ | ⟨w, hw, hfail⟩
        · exact Or.inl ⟨w, List.mem_cons_of_mem _ hw, hwfd⟩
        · exact Or.inr ⟨w, List.mem_cons_of_mem _ hw, hfail⟩
    · exact Or.inr ⟨_, List.mem_cons_self, rfl⟩

end

theorem Message.cString_eq {text : Bytes} (h : Message text) : cString text = text :=
  cString_eq_self h.zero_notMem

/-- The entries of a list of `n` clients that are not `0`. -/
theorem Lists.mem_iff {p : Process} {n : ℕ} (h : Lists p n) {fd : ℕ} (hne : fd ≠ 0) :
    fd ∈ p.fdList ↔ ∃ k < n, p.fdList[k]? = some fd ∧ p.table fd = some (.client k) := by
  constructor
  · intro hmem
    obtain ⟨k, hk⟩ := List.mem_iff_getElem?.mp hmem
    have hlt : k < size := h.length_eq ▸ (List.getElem?_eq_some_iff.mp hk).1
    by_cases hkn : k < n
    · obtain ⟨fd', hfd', -, hclient⟩ := h.client k hkn
      obtain rfl := Option.some_inj.mp (hfd'.symm.trans hk)
      exact ⟨k, hkn, hk, hclient⟩
    · have hzero := (h.empty k (Nat.le_of_not_lt hkn) hlt).symm.trans hk
      exact absurd (Option.some_inj.mp hzero).symm hne
  · rintro ⟨k, -, hk, -⟩
    exact List.mem_iff_getElem?.mpr ⟨k, hk⟩

/-- A client stands in the list under one descriptor only. -/
theorem Lists.fd_unique {p : Process} {n fd fd' d : ℕ} (h : Lists p n) (hmem : fd ∈ p.fdList)
    (hne : fd ≠ 0) (hfd : p.table fd = some (.client d)) (hmem' : fd' ∈ p.fdList) (hne' : fd' ≠ 0)
    (hfd' : p.table fd' = some (.client d)) : fd = fd' := by
  obtain ⟨k, -, hk, hclient⟩ := (h.mem_iff hne).mp hmem
  obtain ⟨j, -, hj, hclient'⟩ := (h.mem_iff hne').mp hmem'
  obtain rfl : k = d := File.client.inj (Option.some_inj.mp (hclient.symm.trans hfd))
  obtain rfl : j = k := File.client.inj (Option.some_inj.mp (hclient'.symm.trans hfd'))
  exact Option.some_inj.mp (hk.symm.trans hj)

/-! ## Exactness -/

section

variable {s : State} {ch : Child} {n : ℕ} {text : Bytes} {succeeds : ℕ → Bool}

/-- In an exact broadcast no write fails. -/
theorem Exact.all_succeed (hlists : Lists ch.process n)
    (h : Exact s ch text (ch.relay text succeeds)) :
    ∀ w ∈ ch.relay text succeeds, w.succeeds = true := by
  intro w hw
  by_contra hfail
  obtain ⟨hmem, hne, -, hgood⟩ := of_mem_relay hw
  obtain ⟨-, d, hd, hclient⟩ := h.2 w hw
  -- the same client gets the message through another write, but he has only this descriptor
  obtain ⟨w', hw', hsucceeds, hclient'⟩ := h.1 d hd
  obtain ⟨hmem', hne', -, hgood'⟩ := of_mem_relay hw'
  have hfd : w'.fd = w.fd := hlists.fd_unique hmem' hne' hclient' hmem hne hclient
  exact hfail (hgood.mpr (hfd ▸ hgood'.mp hsucceeds))

/-- The writes of a message where none fails go to the first `n` clients. -/
theorem relay_reaches_iff (hlists : Lists ch.process n)
    (hall : ∀ w ∈ ch.relay text succeeds, w.succeeds = true) (d : ℕ) :
    (∃ w ∈ ch.relay text succeeds, w.succeeds = true ∧ ch.process.table w.fd = some (.client d)) ↔
      d < n := by
  constructor
  · rintro ⟨w, hw, -, hclient⟩
    obtain ⟨hmem, hne, -, -⟩ := of_mem_relay hw
    obtain ⟨k, hk, -, hclient'⟩ := (hlists.mem_iff hne).mp hmem
    obtain rfl : k = d := File.client.inj (Option.some_inj.mp (hclient'.symm.trans hclient))
    exact hk
  · intro hd
    obtain ⟨fd, hfd, hne, hclient⟩ := hlists.client d hd
    have hmem : fd ∈ ch.process.fdList := List.mem_iff_getElem?.mpr ⟨d, hfd⟩
    rcases mem_relay_or_failed ch.process.table (cString text) succeeds hmem hne with
      ⟨w, hw, rfl⟩ | ⟨w, hw, hfail⟩
    · exact ⟨w, hw, hall w hw, hclient⟩
    · exact absurd (hall w hw) (by rw [hfail]; exact Bool.false_ne_true)

end

/-- No write to an entry of the child's list fails. -/
def WritesSucceed (ch : Child) (succeeds : ℕ → Bool) : Prop :=
  ∀ fd ∈ ch.process.fdList, fd ≠ 0 → succeeds fd = true

theorem relay_all_succeed_iff {ch : Child} {n : ℕ} (hlists : Lists ch.process n) {text : Bytes}
    (htext : Message text) (succeeds : ℕ → Bool) :
    (∀ w ∈ ch.relay text succeeds, w.succeeds = true) ↔ WritesSucceed ch succeeds := by
  constructor
  · intro hall fd hfd hne
    rcases mem_relay_or_failed ch.process.table (cString text) succeeds hfd hne with
      ⟨w, hw, rfl⟩ | ⟨w, hw, hfail⟩
    · exact ((of_mem_relay hw).2.2.2.mp (hall w hw)).1
    · exact absurd (hall w hw) (by rw [hfail]; exact Bool.false_ne_true)
  · intro hgood w hw
    obtain ⟨hmem, hne, -, hiff⟩ := of_mem_relay hw
    obtain ⟨k, -, -, hclient⟩ := (hlists.mem_iff hne).mp hmem
    refine hiff.mpr ⟨hgood w.fd hmem hne, by rw [hclient]; simp, ?_⟩
    rw [htext.cString_eq]
    exact htext.ne_nil

/-- **When a broadcast is exact.** In every state that a run of the server reaches, a message of
client `c` is written to the clients connected at that moment, and to them only, if and only if no
write fails and the clients still connected are those accepted up to and including `c`. -/
theorem broadcast_exact_iff {sockfd : ℕ} {labels : List Label} {s : State} {c : ℕ} {ch : Child}
    {text : Bytes} (hrun : run (step sockfd) (init sockfd) labels = some s)
    (hch : s.children c = some ch) (htext : Message text) (succeeds : ℕ → Bool) :
    Exact s ch text (ch.relay text succeeds) ↔
      WritesSucceed ch succeeds ∧ ∀ d < s.accepted, d ∉ s.left ↔ d ≤ c := by
  obtain ⟨hc, -, hlists⟩ := (copies_of_run hrun).child c ch hch
  rw [← relay_all_succeed_iff hlists htext]
  constructor
  · intro h
    have hall := h.all_succeed hlists
    refine ⟨hall, fun d hd ↦ ⟨fun hleft ↦ ?_, fun hdc ↦ ?_⟩⟩
    · exact Nat.lt_succ_iff.mp ((relay_reaches_iff hlists hall d).mp (h.1 d ⟨hd, hleft⟩))
    · obtain ⟨w, hw, -, hclient⟩ := (relay_reaches_iff hlists hall d).mpr (Nat.lt_succ_iff.mpr hdc)
      obtain ⟨-, e, he, hclient'⟩ := h.2 w hw
      obtain rfl : d = e := File.client.inj (Option.some_inj.mp (hclient.symm.trans hclient'))
      exact he.2
  · rintro ⟨hall, hconn⟩
    refine ⟨fun d hd ↦ ?_, fun w hw ↦ ?_⟩
    · have hdc : d ≤ c := (hconn d hd.1).mp hd.2
      exact (relay_reaches_iff hlists hall d).mpr (Nat.lt_succ_iff.mpr hdc)
    · obtain ⟨hmem, hne, htxt, -⟩ := of_mem_relay hw
      obtain ⟨k, hk, -, hclient⟩ := (hlists.mem_iff hne).mp hmem
      have hkacc : k < s.accepted := by omega
      exact ⟨htxt.trans htext.cString_eq, k,
        ⟨hkacc, (hconn k hkacc).mpr (Nat.lt_succ_iff.mp hk)⟩, hclient⟩

/-- Two clients connect, the first one leaves, and the second speaks. -/
def firstLeaves : List Label := [.accept 4 true, .accept 5 true, .endOfStream 0]

/-- Where the sender is the last client to join and nobody has left, all is well; here somebody
has. -/
theorem broadcast_exact_iff_firstLeaves :
    ∃ s ch, run (step 3) (init 3) firstLeaves = some s ∧ s.children 1 = some ch ∧
      (Exact s ch (ascii "hi") (ch.relay (ascii "hi") fun _ ↦ true) ↔
        WritesSucceed ch (fun _ ↦ true) ∧ ∀ d < s.accepted, d ∉ s.left ↔ d ≤ 1) := by
  have hrun : run (step 3) (init 3) firstLeaves = some _ := rfl
  exact ⟨_, _, hrun, rfl, broadcast_exact_iff hrun rfl
    ⟨by decide, by decide, by decide, by decide⟩ _⟩

theorem broadcast_misses_later_client :
    ¬∀ (labels : List Label) (s : State) (c : ℕ) (ch : Child) (text : Bytes),
      run (step 3) (init 3) labels = some s → s.children c = some ch → Message text →
        Exact s ch text (ch.relay text fun _ ↦ true) := by
  intro h
  have hexact := h [.accept 4 true, .accept 5 true] _ 0 _ (ascii "hi") rfl rfl
    ⟨by decide, by decide, by decide, by decide⟩
  obtain ⟨w, hw, -, hclient⟩ := hexact.1 1 ⟨by decide, by decide⟩
  obtain rfl : w = ⟨4, ascii "hi", true⟩ := by
    have hrelay : w ∈ [(⟨4, ascii "hi", true⟩ : Write)] := hw
    exact List.mem_singleton.mp hrelay
  exact absurd hclient (by decide)

end Chatroom

end CodeOnLinux
