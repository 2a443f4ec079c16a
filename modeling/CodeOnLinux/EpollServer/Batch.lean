import CodeOnLinux.EpollServer.Server

/-!
# Which events of a batch are handled

The loop is meant to go through the `n` events of the last `epoll_wait`, but its bound is `ret`,
and that is `0` once a client was registered and the length of the reply once one was sent. So the
loop visits exactly the `n` events if and only if these values do not stop it too early or too
late (`batch_exact_iff`): a connection must come last, and a reply must be longer than the index of
the event that follows, but not longer than `n` when none does.

## Reading the bound

What a turn makes of the bound depends on the event and on what the calls return, and not on the
turns before it but for the records they change. `turns` computes it from the state in which the
batch begins, and `Reached` says that the loop, when it has come to entry `i`, is where `turns` has
it. So the condition can be read off the events of the batch in advance (`Fits`): no turn but the
last may set the bound below its own index, and the last must set it no higher than `n`.
-/

namespace CodeOnLinux

namespace EpollServer

/-- Only events of the batch are read; and unless the loop is left early, all of them. -/
def Exact (n : ℕ) (t : State) : Prop :=
  (∀ j ∈ t.visited, j < n) ∧ (t.phase = .looping → ∀ j < n, j ∈ t.visited)

/-! ## What one event does -/

inductive Turn
  /-- `EPOLLIN` is not among its events. -/
  | unready
  | connected
  /-- A reply of `k` bytes was sent. -/
  | replied (k : ℕ)
  /-- The loop is left by `break` or `goto`, or the program runs into a fault. -/
  | leaves
  deriving DecidableEq

/-- A client is registered if all calls succeed. -/
def Answer.connects (a : Answer) : Turn :=
  if a.accept.isSome ∧ a.malloc.isSome ∧ a.add = true then .connected else .leaves

def Answer.replies (a : Answer) : Turn :=
  if a.text = [] then .leaves
  else
    match Echo.reply a.text, a.send with
    | .ok reply, some k => .replied (min k reply.length)
    | _, _ => .leaves

/-- What an event does, with the descriptors that the records hold. -/
def Answer.turn (sockfd : ℤ) (fd : ℕ → ℤ) (event : Event) (a : Answer) : Turn :=
  if event.epollin then
    match event.ptr with
    | .sockfdInfo => a.connects
    | .client p => if fd p = sockfd then a.connects else a.replies
  else .unready

/-- `t` is what an iteration with the given outcome makes of `s`. -/
def Follows (s t : State) : Turn → Prop
  | .unready => t.phase = s.phase ∧ t.i = s.i + 1 ∧ t.ret = s.ret ∧ t.fd = s.fd
  | .connected => t.phase = s.phase ∧ t.i = s.i + 1 ∧ t.ret = 0
  | .replied k => t.phase = s.phase ∧ t.i = s.i + 1 ∧ t.ret = k ∧ t.fd = s.fd
  | .leaves => t.phase ≠ .looping

theorem connect_follows (s : State) (a : Answer) :
    (s.connect a).visited = s.visited ∧ (s.connect a).re = s.re ∧
      Follows s (s.connect a) a.connects := by
  rw [State.connect, Answer.connects]
  cases a.accept with
  | none => exact ⟨rfl, rfl, nofun⟩
  | some newfd =>
    cases a.malloc with
    | none => exact ⟨rfl, rfl, nofun⟩
    | some p =>
      cases a.add with
      | false => exact ⟨rfl, rfl, nofun⟩
      | true => exact ⟨rfl, rfl, rfl, rfl, rfl⟩

theorem relay_follows (s : State) (p : ℕ) (a : Answer) :
    (s.relay p a).visited = s.visited ∧ (s.relay p a).re = s.re ∧
      Follows s (s.relay p a) a.replies := by
  rw [State.relay, Answer.replies]
  split_ifs with hempty
  · exact ⟨rfl, rfl, nofun⟩
  · cases Echo.reply a.text with
    | error f => exact ⟨rfl, rfl, nofun⟩
    | ok reply =>
      cases a.send with
      | none => exact ⟨rfl, rfl, nofun⟩
      | some k => exact ⟨rfl, rfl, rfl, rfl, rfl, rfl⟩

/-- One iteration, by what the event does. -/
theorem advance_follows (sockfd : ℤ) (s : State) (a : Answer) :
    (s.advance sockfd a).visited = s.visited ++ [s.i] ∧ (s.advance sockfd a).re = s.re ∧
      Follows s (s.advance sockfd a) (a.turn sockfd s.fd (s.re s.i)) := by
  rw [State.advance, Answer.turn]
  cases (s.re s.i).epollin with
  | false => exact ⟨rfl, rfl, rfl, rfl, rfl, rfl⟩
  | true =>
    cases (s.re s.i).ptr with
    | sockfdInfo =>
      obtain ⟨hvisited, hre, hfollows⟩ :=
        connect_follows { s with visited := s.visited ++ [s.i] } a
      exact ⟨hvisited, hre, hfollows⟩
    | client p =>
      by_cases hfd : s.fd p = sockfd
      · obtain ⟨hvisited, hre, hfollows⟩ :=
          connect_follows { s with toResources := s.touch p, visited := s.visited ++ [s.i] } a
        simp only [hfd, if_true, Resources.touch]
        exact ⟨hvisited, hre, hfollows⟩
      · obtain ⟨hvisited, hre, hfollows⟩ :=
          relay_follows { s with toResources := s.touch p, visited := s.visited ++ [s.i] } p a
        simp only [hfd, if_true, if_false, Resources.touch]
        exact ⟨hvisited, hre, hfollows⟩

/-! ## The bound of the loop -/

/-- What the events of a batch do, with the records as `epoll_wait` finds them. -/
def turns (sockfd : ℤ) (s : State) (answers : ℕ → Answer) (j : ℕ) : Turn :=
  (answers j).turn sockfd s.fd (s.re j)

/-- The value of `ret` before entry `i`. -/
def bound (n : ℕ) (turns : ℕ → Turn) : ℕ → ℤ
  | 0 => n
  | i + 1 =>
    match turns i with
    | .connected => 0
    | .replied k => k
    | _ => bound n turns i

/-- Whether the value that event `j` gives to `ret` fits a batch of `n` events. A connection must
be the last event. For a reply of `k` bytes, with nothing but unready events up to entry `i`, there
must be `i < k` where `i` is still of the batch, and `k ≤ n` where it is the end. -/
def Turn.Fits (n : ℕ) (turns : ℕ → Turn) (j : ℕ) : Turn → Prop
  | .connected => j + 1 = n
  | .replied k => ∀ i ≤ n, j < i → (∀ m < i, j < m → turns m = .unready) →
      (i < n → i < k) ∧ (i = n → k ≤ n)
  | _ => True

instance (n : ℕ) (turns : ℕ → Turn) (j : ℕ) (t : Turn) : Decidable (t.Fits n turns j) := by
  cases t <;> unfold Turn.Fits <;> infer_instance

/-- All events fit that are reached without leaving the loop. -/
def Fits (n : ℕ) (turns : ℕ → Turn) : Prop :=
  ∀ j < n, (∀ m ≤ j, turns m ≠ .leaves) → (turns j).Fits n turns j

instance (n : ℕ) (turns : ℕ → Turn) : Decidable (Fits n turns) :=
  inferInstanceAs (Decidable (∀ j < n, (∀ m ≤ j, turns m ≠ .leaves) → (turns j).Fits n turns j))

section

variable {n : ℕ} {turns : ℕ → Turn}

/-- From entry `i` on, the bound stops the loop at the end of the batch and not before. -/
def StopsAtEnd (n : ℕ) (turns : ℕ → Turn) (i : ℕ) : Prop :=
  ∀ j ≤ n, i ≤ j → (∀ m < j, i ≤ m → turns m ≠ .leaves) →
    (j < n → j < bound n turns j) ∧ (j = n → bound n turns j ≤ n)

theorem stopsAtEnd_iff_of_lt {i : ℕ} (hi : i < n) (hbound : i < bound n turns i)
    (hstays : turns i ≠ .leaves) : StopsAtEnd n turns i ↔ StopsAtEnd n turns (i + 1) := by
  constructor
  · intro h j hj hij hmid
    refine h j hj (Nat.le_of_succ_le hij) fun m hm him ↦ ?_
    obtain rfl | him := him.eq_or_lt
    · exact hstays
    · exact hmid m hm him
  · intro h j hj hij hmid
    obtain rfl | hij := hij.eq_or_lt
    · exact ⟨fun _ ↦ hbound, fun he ↦ absurd he (Nat.ne_of_lt hi)⟩
    · exact h j hj hij fun m hm him ↦ hmid m hm (Nat.le_of_succ_le him)

theorem bound_of_connected {i : ℕ} (h : turns i = .connected) : bound n turns (i + 1) = 0 := by
  rw [bound, h]

theorem bound_of_replied {i k : ℕ} (h : turns i = .replied k) : bound n turns (i + 1) = k := by
  rw [bound, h]

theorem bound_of_unready {j i : ℕ} (hji : j < i) (hunready : ∀ m < i, j < m → turns m = .unready) :
    bound n turns i = bound n turns (j + 1) := by
  induction i with
  | zero => exact absurd hji (Nat.not_lt_zero j)
  | succ i ih =>
    obtain rfl | hlt := (Nat.le_of_lt_succ hji).eq_or_lt
    · rfl
    · have hturn := hunready i (Nat.lt_succ_self i) hlt
      rw [bound, hturn]
      exact ih hlt fun m hm ↦ hunready m (Nat.lt_succ_of_lt hm)

/-- The bound is `n`, or it is due to the last event that was ready. -/
theorem bound_cases {i : ℕ} (hstays : ∀ m < i, turns m ≠ .leaves) :
    bound n turns i = n ∨ ∃ j < i, (∀ m < i, j < m → turns m = .unready) ∧
      (turns j = .connected ∧ bound n turns i = 0 ∨
        ∃ k : ℕ, turns j = .replied k ∧ bound n turns i = k) := by
  induction i with
  | zero => exact Or.inl rfl
  | succ i ih =>
    have hself : ∀ m < i + 1, i < m → turns m = .unready := fun m hm him ↦ by omega
    cases hturn : turns i with
    | connected =>
      exact Or.inr ⟨i, Nat.lt_succ_self i, hself, Or.inl ⟨hturn, bound_of_connected hturn⟩⟩
    | replied k =>
      exact Or.inr ⟨i, Nat.lt_succ_self i, hself, Or.inr ⟨k, hturn, bound_of_replied hturn⟩⟩
    | leaves => exact absurd hturn (hstays i (Nat.lt_succ_self i))
    | unready =>
      have hbound : bound n turns (i + 1) = bound n turns i := by rw [bound, hturn]
      rw [hbound]
      refine (ih fun m hm ↦ hstays m (Nat.lt_succ_of_lt hm)).imp id ?_
      rintro ⟨j, hj, hunready, hlast⟩
      refine ⟨j, Nat.lt_succ_of_lt hj, fun m hm hjm ↦ ?_, hlast⟩
      obtain rfl | hlt := (Nat.le_of_lt_succ hm).eq_or_lt
      · exact hturn
      · exact hunready m hlt hjm

theorem stopsAtEnd_zero_iff : StopsAtEnd n turns 0 ↔ Fits n turns := by
  constructor
  · intro h j hj hstays
    have hnext : ∀ i ≤ n, j < i → (∀ m < i, j < m → turns m = .unready) →
        (i < n → i < bound n turns (j + 1)) ∧ (i = n → bound n turns (j + 1) ≤ n) :=
      fun i hi hji hunready ↦ by
        rw [← bound_of_unready hji hunready]
        refine h i hi (Nat.zero_le i) fun m hm _ ↦ ?_
        obtain hmj | hjm := Nat.lt_or_ge j m
        · rw [hunready m hm hmj]
          nofun
        · exact hstays m hjm
    cases hturn : turns j with
    | connected =>
      have hlast := (hnext (j + 1) hj (Nat.lt_succ_self j) fun m hm hjm ↦ by omega).1
      rw [bound_of_connected hturn] at hlast
      by_contra hne
      have := hlast (lt_of_le_of_ne hj hne)
      omega
    | replied k =>
      intro i hi hji hunready
      have hlast := hnext i hi hji hunready
      rw [bound_of_replied hturn] at hlast
      exact_mod_cast hlast
    | unready => trivial
    | leaves => trivial
  · intro h i hi _ hstays
    obtain hbound | ⟨j, hj, hunready, hlast⟩ := bound_cases (n := n) fun m hm ↦
      hstays m hm (Nat.zero_le m)
    · rw [hbound]
      exact ⟨fun hlt ↦ by exact_mod_cast hlt, fun _ ↦ le_refl _⟩
    · have hfit := h j (hj.trans_le hi) fun m hm ↦ hstays m (hm.trans_lt hj) (Nat.zero_le m)
      obtain ⟨hturn, hbound⟩ | ⟨k, hturn, hbound⟩ := hlast
      · rw [hturn] at hfit
        have hlast : j + 1 = n := hfit
        rw [hbound]
        exact ⟨fun hlt ↦ by omega, fun _ ↦ Int.natCast_nonneg n⟩
      · rw [hturn] at hfit
        rw [hbound]
        exact_mod_cast hfit i hi hj hunready

end

/-! ## The loop -/

theorem le_of_turn_eq_replied {sockfd : ℤ} {fd : ℕ → ℤ} {event : Event} {a : Answer} {k : ℕ}
    (h : a.turn sockfd fd event = .replied k) : k ≤ maxEvents := by
  have hconnects : a.connects ≠ .replied k := by
    rw [Answer.connects]
    split_ifs <;> nofun
  have hreplies : a.replies = .replied k → k ≤ maxEvents := fun h ↦ by
    rw [Answer.replies] at h
    split_ifs at h
    split at h
    · next reply m hreply _ =>
      obtain rfl := Turn.replied.inj h
      exact (Nat.min_le_right _ _).trans
        (Echo.length_reply_le (List.length_take_le Echo.size _) hreply)
    · cases h
  rw [Answer.turn] at h
  split_ifs at h
  split at h
  · exact absurd h hconnects
  · split_ifs at h
    · exact absurd h hconnects
    · exact hreplies h

theorem mem_visited_scan {sockfd : ℤ} {answers : ℕ → Answer} {left j : ℕ} {s : State}
    (hj : j ∈ s.visited) : j ∈ (scan sockfd answers left s).visited := by
  induction left generalizing s with
  | zero => exact hj
  | succ left ih =>
    rw [scan]
    split_ifs
    · apply ih
      rw [(advance_follows sockfd s _).1]
      exact List.mem_append_left _ hj
    · exact hj

theorem scan_of_left {sockfd : ℤ} {answers : ℕ → Answer} {left : ℕ} {s : State}
    (h : s.phase ≠ .looping) : scan sockfd answers left s = s := by
  cases left with
  | zero => rfl
  | succ left => rw [scan, if_neg fun hs ↦ h hs.1]

/-- The index goes up by one, and the bound stays inside `re`: no reply is longer than the
buffer. -/
theorem advance_looping {sockfd : ℤ} {s : State} {a : Answer} (hret : s.ret ≤ maxEvents)
    (hphase : (s.advance sockfd a).phase = .looping) :
    (s.advance sockfd a).i = s.i + 1 ∧ (s.advance sockfd a).ret ≤ maxEvents := by
  obtain ⟨-, -, hfollows⟩ := advance_follows sockfd s a
  cases hturn : a.turn sockfd s.fd (s.re s.i) with
  | unready =>
    rw [hturn] at hfollows
    obtain ⟨-, hi, hret', -⟩ := hfollows
    exact ⟨hi, hret'.trans_le hret⟩
  | connected =>
    rw [hturn] at hfollows
    obtain ⟨-, hi, hret'⟩ := hfollows
    exact ⟨hi, hret'.trans_le (Int.natCast_nonneg _)⟩
  | replied k =>
    rw [hturn] at hfollows
    obtain ⟨-, hi, hret', -⟩ := hfollows
    exact ⟨hi, hret'.trans_le (Int.ofNat_le.mpr (le_of_turn_eq_replied hturn))⟩
  | leaves =>
    rw [hturn] at hfollows
    exact absurd hphase hfollows

theorem scan_ended {sockfd : ℤ} {answers : ℕ → Answer} {left : ℕ} {s : State}
    (hleft : s.i + left = maxEvents) (hret : s.ret ≤ maxEvents)
    (hphase : (scan sockfd answers left s).phase = .looping) :
    (scan sockfd answers left s).ret ≤ (scan sockfd answers left s).i := by
  induction left generalizing s with
  | zero =>
    rw [scan]
    omega
  | succ left ih =>
    rw [scan] at hphase ⊢
    split_ifs at hphase ⊢ with hloop
    · by_cases hnext : (s.advance sockfd (answers s.i)).phase = .looping
      · obtain ⟨hi, hret'⟩ := advance_looping hret hnext
        exact ih (by omega) hret' hphase
      · rw [scan_of_left hnext] at hphase
        exact absurd hphase hnext
    · exact not_lt.mp fun hlt ↦ hloop ⟨hphase, hlt⟩

/-- The loop at entry `i`, when it has read all entries before. -/
structure Reached (sockfd : ℤ) (s : State) (answers : ℕ → Answer) (n i : ℕ) (u : State) : Prop where
  /-- The loop was not left. -/
  phase : u.phase = .looping
  /-- It has come to entry `i`. -/
  i_eq : u.i = i
  /-- It has read each entry before, once. -/
  visited : u.visited = List.range i
  /-- The bound is what the turns so far have made of it. -/
  ret : u.ret = bound n (turns sockfd s answers) i
  /-- The entries are as `epoll_wait` has left them. -/
  re : u.re = s.re
  /-- A new client changes the records, but then the loop is over. -/
  fd : u.i < u.ret → u.fd = s.fd

theorem Reached.advance {sockfd : ℤ} {s u : State} {answers : ℕ → Answer} {n i : ℕ}
    (h : Reached sockfd s answers n i u) (hlt : u.i < u.ret) :
    (u.advance sockfd (answers i)).visited = List.range (i + 1) ∧
      (turns sockfd s answers i ≠ .leaves →
        Reached sockfd s answers n (i + 1) (u.advance sockfd (answers i))) ∧
      (turns sockfd s answers i = .leaves → (u.advance sockfd (answers i)).phase ≠ .looping) := by
  obtain ⟨hvisited, hre, hfollows⟩ := advance_follows sockfd u (answers i)
  rw [h.fd hlt, h.re, h.i_eq] at hfollows
  rw [h.visited, h.i_eq, ← List.range_succ] at hvisited
  replace hfollows : Follows u _ (turns sockfd s answers i) := hfollows
  refine ⟨hvisited, fun hstays ↦ ?_, fun hleaves ↦ ?_⟩
  · cases hturn : turns sockfd s answers i with
    | unready =>
      rw [hturn] at hfollows
      obtain ⟨hphase, hi, hret, hfd⟩ := hfollows
      refine ⟨hphase.trans h.phase, by rw [hi, h.i_eq], hvisited, ?_, hre.trans h.re,
        fun _ ↦ hfd.trans (h.fd hlt)⟩
      rw [hret, h.ret, bound, hturn]
    | connected =>
      rw [hturn] at hfollows
      obtain ⟨hphase, hi, hret⟩ := hfollows
      refine ⟨hphase.trans h.phase, by rw [hi, h.i_eq], hvisited, ?_, hre.trans h.re,
        fun hlt' ↦ ?_⟩
      · rw [hret, bound_of_connected hturn]
      · rw [hret] at hlt'
        omega
    | replied k =>
      rw [hturn] at hfollows
      obtain ⟨hphase, hi, hret, hfd⟩ := hfollows
      refine ⟨hphase.trans h.phase, by rw [hi, h.i_eq], hvisited, ?_, hre.trans h.re,
        fun _ ↦ hfd.trans (h.fd hlt)⟩
      rw [hret, bound_of_replied hturn]
    | leaves => exact absurd hturn hstays
  · rw [hleaves] at hfollows
    exact hfollows

/-- Where the loop has stopped, it has handled exactly the batch if that is at its end. -/
theorem Reached.exact_iff_of_stopped {sockfd : ℤ} {s u : State} {answers : ℕ → Answer} {n i : ℕ}
    (h : Reached sockfd s answers n i u) (hi : i ≤ n) (hstop : ¬u.i < u.ret) :
    Exact n u ↔ StopsAtEnd n (turns sockfd s answers) i := by
  rw [h.i_eq, h.ret] at hstop
  rw [Exact, h.visited]
  simp only [List.mem_range]
  constructor
  · rintro ⟨-, hall⟩
    have hin : i = n := by
      by_contra hne
      exact lt_irrefl i (hall h.phase i (lt_of_le_of_ne hi hne))
    intro j hj hij _
    obtain rfl : j = i := le_antisymm (hin ▸ hj) hij
    exact ⟨fun hlt ↦ absurd hlt (hin ▸ lt_irrefl j),
      fun he ↦ (not_lt.mp hstop).trans (Int.ofNat_le.mpr he.le)⟩
  · intro hstops
    have hin : i = n := by
      by_contra hne
      refine hstop ((hstops i hi (le_refl i) fun m hm him ↦ ?_).1 (lt_of_le_of_ne hi hne))
      omega
    exact ⟨fun j hj ↦ hin ▸ hj, fun _ j hj ↦ hin ▸ hj⟩

/-- From entry `i` on, the loop handles exactly the batch if its bound stops it at the end. -/
theorem Reached.exact_iff {sockfd : ℤ} {s u : State} {answers : ℕ → Answer} {n i left : ℕ}
    (h : Reached sockfd s answers n i u) (hleft : i + left = maxEvents) (hi : i ≤ n)
    (hret : u.ret ≤ maxEvents) :
    Exact n (scan sockfd answers left u) ↔ StopsAtEnd n (turns sockfd s answers) i := by
  induction left generalizing i u with
  | zero =>
    refine h.exact_iff_of_stopped hi ?_
    rw [h.i_eq]
    omega
  | succ left ih =>
    rw [scan]
    by_cases hlt : u.i < u.ret
    · rw [if_pos ⟨h.phase, hlt⟩, h.i_eq]
      obtain ⟨hvisited, hstays, hleaves⟩ := h.advance hlt
      have hbound : i < bound n (turns sockfd s answers) i := by
        rw [← h.ret, ← h.i_eq]
        exact hlt
      obtain rfl | hin := hi.eq_or_lt
      · -- an entry behind the batch is read
        refine iff_of_false (fun hexact ↦ ?_) fun hstops ↦ ?_
        · have hmem : i ∈ (u.advance sockfd (answers i)).visited := by
            rw [hvisited]
            exact List.mem_range.mpr (Nat.lt_succ_self i)
          exact absurd (hexact.1 i (mem_visited_scan hmem)) (lt_irrefl i)
        · have hle := (hstops i (le_refl i) (le_refl i) fun m hm him ↦ by omega).2 rfl
          exact absurd hbound (not_lt.mpr hle)
      · by_cases hturn : turns sockfd s answers i = .leaves
        · rw [scan_of_left (hleaves hturn)]
          refine iff_of_true ⟨fun j hj ↦ ?_, fun hphase ↦ absurd hphase (hleaves hturn)⟩ ?_
          · rw [hvisited, List.mem_range] at hj
            omega
          · intro j hj hij hmid
            obtain rfl | hij := hij.eq_or_lt
            · exact ⟨fun _ ↦ hbound, fun he ↦ absurd he (Nat.ne_of_lt hin)⟩
            · exact absurd hturn (hmid i hij (le_refl i))
        · rw [stopsAtEnd_iff_of_lt hin hbound hturn]
          have hnext := hstays hturn
          exact ih hnext (by omega) hin (advance_looping hret hnext.phase).2
    · rw [if_neg fun hs ↦ hlt hs.2]
      exact h.exact_iff_of_stopped hi hlt

/-- **When a batch is handled exactly.** The loop ends for every count, whatever `re` holds; and it
reads the `n` events of the batch and no others if and only if the values that it assigns to its
bound fit. -/
theorem batch_exact_iff {n : ℕ} (hn : n ≤ maxEvents) (sockfd : ℤ) (s : State)
    (answers : ℕ → Answer) :
    ((scan sockfd answers maxEvents (s.begin n)).phase = .looping →
      (scan sockfd answers maxEvents (s.begin n)).ret ≤
        (scan sockfd answers maxEvents (s.begin n)).i) ∧
    (Exact n (scan sockfd answers maxEvents (s.begin n)) ↔ Fits n (turns sockfd s answers)) := by
  have hret : (s.begin n).ret ≤ maxEvents := Int.ofNat_le.mpr hn
  have hreached : Reached sockfd s answers n 0 (s.begin n) :=
    ⟨rfl, rfl, rfl, rfl, rfl, fun _ ↦ rfl⟩
  refine ⟨scan_ended (Nat.zero_add _) hret, ?_⟩
  rw [hreached.exact_iff (Nat.zero_add _) (Nat.zero_le n) hret, stopsAtEnd_zero_iff]

/-- A client with descriptor 4 and the listening socket are ready. -/
def twoReady : State :=
  { init 3 {0, 1, 2} (fun _ ↦ 4)
      (fun j ↦ ⟨decide (j < 2), if j = 0 then .client 0 else .sockfdInfo⟩)
    with allocated := {0} }

/-- The client says "ping", then another one connects. -/
def pingThenConnect (_ : ℕ) : Answer := ⟨some 5, some 1, true, some (ascii "ping"), some 4, 0⟩

theorem batch_exact_pingThenConnect :
    Exact 2 (scan 3 pingThenConnect maxEvents (twoReady.begin 2)) :=
  (batch_exact_iff (by decide) 3 twoReady pingThenConnect).2.mpr (by decide +kernel)

/-- With the connection in front the message is not read; and a message of five bytes, the only
event of its batch, is followed by four entries that are not of this batch. -/
theorem batch_not_exact :
    (¬∀ (n : ℕ) (s : State) (answers : ℕ → Answer), n ≤ maxEvents →
      (scan 3 answers maxEvents (s.begin n)).phase = .looping →
        ∀ j < n, j ∈ (scan 3 answers maxEvents (s.begin n)).visited) ∧
    ¬∀ (n : ℕ) (s : State) (answers : ℕ → Answer), n ≤ maxEvents →
      ∀ j ∈ (scan 3 answers maxEvents (s.begin n)).visited, j < n := by
  constructor
  · intro h
    have hmem := h 2
      { twoReady with re := fun j ↦ ⟨true, if j = 0 then .sockfdInfo else .client 0⟩ }
      (fun _ ↦ ⟨some 5, some 1, true, some (ascii "ping"), some 4, 0⟩) (by decide)
      (by decide +kernel) 1 (by decide)
    exact absurd hmem (by decide +kernel)
  · intro h
    have hlt := h 1 { twoReady with re := fun j ↦ ⟨decide (j = 0), .client 0⟩ }
      (fun _ ↦ ⟨none, none, true, some (ascii "hello"), some 5, 0⟩) (by decide) 1
      (by decide +kernel)
    exact absurd hlt (lt_irrefl 1)

end EpollServer

end CodeOnLinux
