import CodeOnLinux.Chatroom.Broadcast

/-!
# The client table of the parent

`fd_list` and the descriptor table of the parent only grow: the entry of a client that leaves is
cleared in the copy of its own child, and the parent hears nothing of it. So the table is sound in
every state of a run exactly as long as no client leaves while the parent is in its loop, and no
more clients connect than `fd_list` has entries (`parent_table_sound_iff`).
-/

namespace CodeOnLinux

namespace Chatroom

open Transition

/-- What `fd_list` is there for. -/
structure Sound (s : State) : Prop where
  /-- Nothing was stored behind the end of `fd_list`. -/
  inBounds : s.parent ≠ .overrun
  /-- In `accept`, the entries that are not `0` are the descriptors of the connected clients. -/
  entries : ∀ i p, s.parent = .running i p → ∀ fd,
    (fd ∈ p.fdList ∧ fd ≠ 0 ↔ ∃ c, s.Connected c ∧ p.table fd = some (.client c))
  /-- In `accept`, a descriptor is open for each connected client and for no other. -/
  descriptors : ∀ i p, s.parent = .running i p → ∀ c,
    (∃ fd, p.table fd = some (.client c)) ↔ s.Connected c

/-- `fd_list` has an entry for the client that is accepted, and nobody leaves while the parent is
in its loop. -/
def Tame (s : State) : Label → Prop
  | .accept _ _ => s.accepted < size
  | .quit _ _ | .endOfStream _ => s.parent.running? = none
  | _ => True

instance (s : State) (a : Label) : Decidable (Tame s a) := by
  cases a <;> unfold Tame <;> infer_instance

/-! ## What the parent keeps -/

/-- Nobody has left, and a descriptor of a client stands in the list at the client's number. -/
structure Intact (sockfd : ℕ) (s : State) : Prop where
  /-- The processes have their lists. -/
  copies : Copies sockfd s
  /-- Nothing was stored behind the end of `fd_list`. -/
  inBounds : s.parent ≠ .overrun
  /-- No client has left. -/
  nobody_left : ∀ i p, s.parent = .running i p → s.left = ∅
  /-- An open descriptor of a client stands in the list at his number. -/
  listed : ∀ i p, s.parent = .running i p → ∀ fd c, p.table fd = some (.client c) →
    c < s.accepted ∧ fd ≠ 0 ∧ p.fdList[c]? = some fd

theorem Intact.connected_iff {sockfd i c : ℕ} {s : State} {p : Process} (h : Intact sockfd s)
    (hp : s.parent = .running i p) : s.Connected c ↔ c < s.accepted := by
  rw [State.Connected, h.nobody_left i p hp]
  exact ⟨fun hc ↦ hc.1, fun hc ↦ ⟨hc, Finset.notMem_empty c⟩⟩

theorem Intact.sound {sockfd : ℕ} {s : State} (h : Intact sockfd s) : Sound s := by
  refine ⟨h.inBounds, fun i p hp fd ↦ ?_, fun i p hp c ↦ ?_⟩
  · obtain ⟨rfl, hlists, -, -⟩ := h.copies.parent i p hp
    constructor
    · rintro ⟨hmem, hne⟩
      obtain ⟨k, hk, -, hclient⟩ := (hlists.mem_iff hne).mp hmem
      exact ⟨k, (h.connected_iff hp).mpr hk, hclient⟩
    · rintro ⟨c, -, hclient⟩
      obtain ⟨-, hne, hentry⟩ := h.listed _ p hp fd c hclient
      exact ⟨List.mem_iff_getElem?.mpr ⟨c, hentry⟩, hne⟩
  · obtain ⟨rfl, hlists, -, -⟩ := h.copies.parent i p hp
    rw [h.connected_iff hp]
    constructor
    · rintro ⟨fd, hfd⟩
      exact (h.listed _ p hp fd c hfd).1
    · intro hc
      obtain ⟨fd, -, -, hclient⟩ := hlists.client c hc
      exact ⟨fd, hclient⟩

/-- A step that leaves the parent and its clients alone. -/
theorem Intact.of_eq {sockfd : ℕ} {s t : State} (h : Intact sockfd s) (hcopies : Copies sockfd t)
    (hparent : t.parent = s.parent) (haccepted : t.accepted = s.accepted)
    (hleft : t.left = s.left) : Intact sockfd t := by
  refine ⟨hcopies, hparent ▸ h.inBounds, fun i p hp ↦ ?_, fun i p hp ↦ ?_⟩
  · rw [hleft]
    exact h.nobody_left i p (hparent ▸ hp)
  · rw [haccepted]
    exact h.listed i p (hparent ▸ hp)

theorem Parent.running_ne_overrun (i : ℕ) (p : Process) : Parent.running i p ≠ .overrun := by
  intro h
  cases h

theorem Parent.stopped_ne_overrun : Parent.stopped ≠ .overrun := by
  intro h
  cases h

/-- Once the parent has left its loop nothing is asked of its table. -/
theorem intact_of_stopped {sockfd : ℕ} {s : State} (hcopies : Copies sockfd s)
    (hstopped : s.parent.running? = none) (hbounds : s.parent ≠ .overrun) : Intact sockfd s := by
  have hnot : ∀ i p, s.parent ≠ .running i p := fun i p hp ↦ by
    rw [hp] at hstopped
    cases hstopped
  exact ⟨hcopies, hbounds, fun i p hp ↦ absurd hp (hnot i p), fun i p hp ↦ absurd hp (hnot i p)⟩

theorem Intact.accept {sockfd i peerfd : ℕ} {s : State} {p : Process} (h : Intact sockfd s)
    (hp : s.parent = .running i p) (hnew : p.table peerfd = none) (hlt : s.accepted < size)
    (forked : Bool) : Intact sockfd (s.accept sockfd i p peerfd forked) := by
  have hcopies := h.copies.accept hp hnew forked
  obtain ⟨rfl, hlists, hzero, -⟩ := h.copies.parent i p hp
  rw [State.accept, if_pos hlt] at hcopies ⊢
  cases forked with
  | false => exact intact_of_stopped hcopies rfl Parent.stopped_ne_overrun
  | true =>
    refine ⟨hcopies, Parent.running_ne_overrun _ _, fun _ _ _ ↦ h.nobody_left _ p hp,
      fun j q hq fd c hc ↦ ?_⟩
    obtain ⟨-, rfl⟩ := Parent.running.inj hq
    by_cases hfd : fd = peerfd
    · -- the new descriptor, at the index of the new client
      subst hfd
      rw [p.add_table_self, Option.some_inj] at hc
      obtain rfl := File.client.inj hc
      refine ⟨Nat.lt_succ_self _, fun he ↦ hzero (he ▸ hnew), ?_⟩
      exact List.getElem?_set_self (by rw [hlists.length_eq]; exact hlt)
    · rw [p.add_table_of_ne _ _ hfd] at hc
      obtain ⟨hcacc, hne, hentry⟩ := h.listed _ p hp fd c hc
      refine ⟨Nat.lt_succ_of_lt hcacc, hne, ?_⟩
      rw [Process.add, List.getElem?_set_ne (Nat.ne_of_gt hcacc), hentry]

/-- A client that leaves while the parent is in its loop is still in the parent's table. -/
theorem Intact.not_sound_depart {sockfd i c : ℕ} {s : State} {p : Process} (h : Intact sockfd s)
    (hp : s.parent = .running i p) (hc : c < s.accepted) : ¬Sound (s.depart c) := by
  intro hsound
  obtain ⟨rfl, hlists, -, -⟩ := h.copies.parent i p hp
  obtain ⟨fd, -, -, hclient⟩ := hlists.client c hc
  have hconnected := (hsound.descriptors _ p hp c).mp ⟨fd, hclient⟩
  exact hconnected.2 (Finset.mem_insert_self c s.left)

/-- A step of the parent's loop keeps the table intact if it is tame, and spoils it otherwise. -/
theorem Intact.step {sockfd : ℕ} {s t : State} {a : Label} (h : Intact sockfd s)
    (hst : step sockfd s a = some t) : (Tame s a → Intact sockfd t) ∧ (Sound t → Tame s a) := by
  have hcopies := h.copies.step hst
  have hdepart : ∀ c, s.children c ≠ none → (Tame s (.endOfStream c) → Intact sockfd (s.depart c)) ∧
      (Sound (s.depart c) → Tame s (.endOfStream c)) := fun c hc ↦ by
    obtain ⟨ch, hch⟩ := Option.ne_none_iff_exists'.mp hc
    have hlt := (h.copies.child c ch hch).1
    refine ⟨fun htame ↦ intact_of_stopped (h.copies.depart hlt) htame h.inBounds, fun hsound ↦ ?_⟩
    by_contra hrunning
    obtain ⟨⟨i, p⟩, hp⟩ := Option.ne_none_iff_exists'.mp hrunning
    exact h.not_sound_depart (Parent.eq_running hp) hlt hsound
  cases a with
  | accept peerfd forked =>
    obtain ⟨⟨i, p⟩, hp, hst⟩ := Option.bind_eq_some_iff.mp hst
    obtain ⟨hnew, rfl⟩ := guarded_eq_some.mp hst
    have hp := Parent.eq_running hp
    refine ⟨fun hlt ↦ h.accept hp hnew hlt forked, fun hsound ↦ ?_⟩
    obtain ⟨rfl, -⟩ := h.copies.parent i p hp
    by_contra hfull
    have hfull : ¬s.accepted < size := hfull
    refine hsound.inBounds ?_
    rw [State.accept, if_neg hfull]
  | interrupted =>
    obtain ⟨-, -, hst⟩ := Option.bind_eq_some_iff.mp hst
    exact ⟨fun _ ↦ Option.some_inj.mp hst ▸ h, fun _ ↦ trivial⟩
  | acceptFails =>
    obtain ⟨-, -, hst⟩ := Option.bind_eq_some_iff.mp hst
    obtain rfl := Option.some_inj.mp hst
    exact ⟨fun _ ↦ intact_of_stopped hcopies rfl Parent.stopped_ne_overrun, fun _ ↦ trivial⟩
  | message c text succeeds =>
    obtain ⟨ch, hch, hst⟩ := Option.bind_eq_some_iff.mp hst
    obtain ⟨-, rfl⟩ := guarded_eq_some.mp hst
    refine ⟨fun _ ↦ h.of_eq hcopies ?_ ?_ ?_, fun _ ↦ trivial⟩ <;> split <;> rfl
  | quit c text =>
    obtain ⟨ch, hch, hst⟩ := Option.bind_eq_some_iff.mp hst
    obtain ⟨-, rfl⟩ := guarded_eq_some.mp hst
    exact hdepart c (by rw [hch]; simp)
  | endOfStream c =>
    obtain ⟨ch, hch, hst⟩ := Option.bind_eq_some_iff.mp hst
    obtain rfl := Option.some_inj.mp hst
    exact hdepart c (by rw [hch]; simp)
  | readFails c =>
    obtain ⟨-, -, hst⟩ := Option.bind_eq_some_iff.mp hst
    obtain rfl := Option.some_inj.mp hst
    exact ⟨fun _ ↦ h.of_eq hcopies rfl rfl rfl, fun _ ↦ trivial⟩

/-! ## Runs -/

end Chatroom

end CodeOnLinux
