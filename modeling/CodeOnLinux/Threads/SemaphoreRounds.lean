import CodeOnLinux.Threads.SemaphoreSync

/-!
# The rounds of `semaphore_sync_lock.c`

`SemaphoreSync` says where the baton can be; this module says where it goes. But for the producer's
`malloc` and the customer's `tmp = head`, which stand in front of their loops, the program has no
choice at all: the fifteen steps of a round follow each other in one order, from one print of the
customer to the next, and the schedule only decides when the first steps of the two threads are
taken (`turns_of_run`). In particular the threads never wait for each other for ever, and no value
is kept back for more than a round.
-/

namespace CodeOnLinux

namespace SemaphoreSync

open Transition

variable {κ : Type*}

/-! ## The round -/

/-- The place of a step in a round, which starts after a print of the customer. -/
def Label.turn : Label κ → Option ℕ
  | .unlink _ => some 0
  | .free => some 1
  | .unlockCustomer => some 2
  | .postCustomer => some 3
  | .waitProducer => some 4
  | .lockProducer => some 5
  | .setData _ _ => some 6
  | .setNext _ => some 7
  | .setHead => some 8
  | .printProducer _ => some 9
  | .unlockProducer => some 10
  | .postProducer => some 11
  | .waitCustomer => some 12
  | .lockCustomer => some 13
  | .print _ => some 14
  | .malloc _ | .readHead | .crash => none

/-- The places in the round of the steps of a run. -/
def turns (labels : List (Label κ)) : List ℕ := labels.filterMap Label.turn

/-- The place of the next step of a thread that is between its `sem_wait` and its `sem_post`. -/
def Producer.turn : Producer → Option ℕ
  | .lock => some 5
  | .data => some 6
  | .next => some 7
  | .head => some 8
  | .print => some 9
  | .unlock => some 10
  | .post => some 11
  | .malloc | .wait => none

def Customer.turn : Customer → Option ℕ
  | .lock => some 13
  | .print => some 14
  | .unlink => some 0
  | .free => some 1
  | .unlock => some 2
  | .post => some 3
  | .read | .wait | .crashed => none

/-- The place in the round: that of the thread which has the baton, or of the one which can take
it. -/
def State.turn (s : State κ) : ℕ :=
  (s.producer.turn.or s.customer.turn).getD (if 0 < s.sem2 then 12 else 4)

/-- The steps since the program would have printed for the first time a round earlier. -/
def State.clock (s : State κ) : ℕ := 15 * s.printed.length + s.turn

theorem Producer.turn_lt (p : Producer) : ∀ k ∈ p.turn, k < 15 := by cases p <;> decide

theorem Customer.turn_lt (c : Customer) : ∀ k ∈ c.turn, k < 15 := by cases c <;> decide

theorem State.turn_lt (s : State κ) : s.turn < 15 := by
  rw [State.turn]
  cases hturn : s.producer.turn.or s.customer.turn with
  | none =>
    rw [Option.getD_none]
    split <;> decide
  | some k =>
    rcases Option.or_eq_some_iff.mp hturn with hp | ⟨-, hc⟩
    · exact s.producer.turn_lt k hp
    · exact s.customer.turn_lt k hc

theorem State.clock_mod (s : State κ) : s.clock % 15 = s.turn := by
  rw [State.clock, Nat.mul_add_mod, Nat.mod_eq_of_lt s.turn_lt]

theorem State.clock_div (s : State κ) : s.clock / 15 = s.printed.length := by
  rw [State.clock, Nat.mul_add_div (by decide), Nat.div_eq_of_lt s.turn_lt, Nat.add_zero]

section

variable {s t : State κ} {a : Label κ} {c : Customer} {k : ℕ}

theorem Customer.turn_of_between (h : c.between = 0) : c.turn = none := by
  rcases Customer.idle h with rfl | rfl <;> rfl

theorem turn_of_producer (hp : s.producer.turn = some k) : s.turn = k := by
  rw [State.turn, hp]
  rfl

theorem turn_of_customer (hp : s.producer = .wait) (hc : s.customer.turn = some k) :
    s.turn = k := by
  rw [State.turn, hp, hc]
  rfl

theorem Emptied.turn_eq (h : Emptied s) : s.turn = 4 := by
  have hp : s.producer.turn = none := by
    rcases h.producer with hp | ⟨hp, -⟩ <;> rw [hp] <;> rfl
  rw [State.turn, hp, Customer.turn_of_between h.customer, h.sem2]
  rfl

theorem Filled.turn_eq (h : Filled s) : s.turn = 12 := by
  rw [State.turn, h.producer, Customer.turn_of_between h.customer, h.sem2]
  rfl

/-- A step that goes on to the next place of the round. -/
theorem follows_of_turn (ha : a.turn = some k) (hs : s.turn = k) (ht : t.turn = k + 1)
    (hprinted : t.printed = s.printed) : a.turn = some s.turn ∧ t.clock = s.clock + 1 := by
  refine ⟨by rw [ha, hs], ?_⟩
  rw [State.clock, State.clock, hprinted, hs, ht]
  rfl

/-- After the print the round starts again. -/
theorem clock_of_print {value : ℤ} (hs : s.turn = 14) (ht : t.turn = 0)
    (hprinted : t.printed = s.printed ++ [value]) : t.clock = s.clock + 1 := by
  rw [State.clock, State.clock, hs, ht, hprinted, List.length_append]
  rfl

theorem follows_of_producer (ha : a.turn = some k) (hs : s.producer.turn = some k)
    (ht : t.producer.turn = some (k + 1)) (hprinted : t.printed = s.printed) :
    a.turn = some s.turn ∧ t.clock = s.clock + 1 :=
  follows_of_turn ha (turn_of_producer hs) (turn_of_producer ht) hprinted

theorem follows_of_customer (ha : a.turn = some k) (hp : s.producer = .wait)
    (hp' : t.producer = .wait) (hs : s.customer.turn = some k)
    (ht : t.customer.turn = some (k + 1)) (hprinted : t.printed = s.printed) :
    a.turn = some s.turn ∧ t.clock = s.clock + 1 :=
  follows_of_turn ha (turn_of_customer hp hs) (turn_of_customer hp' ht) hprinted

end

variable [DecidableEq κ]

/-- **Only the next step of the round can be taken**, or one of the two that stand in front of the
loops. -/
theorem Alternating.follows {s t : State κ} {a : Label κ} (h : Alternating s)
    (hst : SemaphoreSync.step s a = some t) :
    a.turn = none ∧ t.clock = s.clock ∨ a.turn = some s.turn ∧ t.clock = s.clock + 1 := by
  cases a with
  | malloc n =>
    obtain ⟨hp, rfl⟩ := guarded_eq_some.mp hst
    refine Or.inl ⟨rfl, ?_⟩
    simp only [State.clock, State.turn, hp, Producer.turn]
  | readHead =>
    obtain ⟨hc, rfl⟩ := guarded_eq_some.mp hst
    refine Or.inl ⟨rfl, ?_⟩
    simp only [State.clock, State.turn, hc, Customer.turn]
  | waitProducer =>
    obtain ⟨⟨-, hs⟩, rfl⟩ := guarded_eq_some.mp hst
    exact Or.inr (follows_of_turn rfl (h.emptied hs).turn_eq (turn_of_producer rfl) rfl)
  | lockProducer =>
    obtain ⟨⟨hp, -⟩, rfl⟩ := guarded_eq_some.mp hst
    exact Or.inr (follows_of_producer rfl (by rw [hp]; rfl) rfl rfl)
  | setData n value =>
    obtain ⟨⟨hp, -⟩, rfl⟩ := guarded_eq_some.mp hst
    exact Or.inr (follows_of_producer rfl (by rw [hp]; rfl) rfl rfl)
  | setNext n =>
    obtain ⟨⟨hp, -⟩, rfl⟩ := guarded_eq_some.mp hst
    exact Or.inr (follows_of_producer rfl (by rw [hp]; rfl) rfl rfl)
  | setHead =>
    obtain ⟨hp, rfl⟩ := guarded_eq_some.mp hst
    exact Or.inr (follows_of_producer rfl (by rw [hp]; rfl) rfl rfl)
  | printProducer n =>
    obtain ⟨⟨hp, -⟩, rfl⟩ := guarded_eq_some.mp hst
    exact Or.inr (follows_of_producer rfl (by rw [hp]; rfl) rfl rfl)
  | unlockProducer =>
    obtain ⟨hp, rfl⟩ := guarded_eq_some.mp hst
    exact Or.inr (follows_of_producer rfl (by rw [hp]; rfl) rfl rfl)
  | postProducer =>
    obtain ⟨hp, rfl⟩ := guarded_eq_some.mp hst
    have hfilled := (h.producerTurn hp rfl).postProducer
    exact Or.inr (follows_of_turn rfl (turn_of_producer (by rw [hp]; rfl)) hfilled.turn_eq rfl)
  | waitCustomer =>
    obtain ⟨⟨-, hs⟩, rfl⟩ := guarded_eq_some.mp hst
    have hfilled := h.filled hs
    exact Or.inr (follows_of_turn rfl hfilled.turn_eq (turn_of_customer hfilled.producer rfl) rfl)
  | lockCustomer =>
    obtain ⟨⟨hc, -⟩, rfl⟩ := guarded_eq_some.mp hst
    have hp := (h.customerTurn hc rfl).producer
    exact Or.inr (follows_of_customer rfl hp hp (by rw [hc]; rfl) rfl rfl)
  | print n =>
    obtain ⟨⟨hc, -⟩, rfl⟩ := guarded_eq_some.mp hst
    have hp := (h.customerTurn hc rfl).producer
    have hs : s.turn = 14 := turn_of_customer hp (by rw [hc]; rfl)
    exact Or.inr ⟨by rw [hs]; rfl, clock_of_print hs (turn_of_customer hp rfl) rfl⟩
  | unlink n =>
    obtain ⟨⟨hc, -⟩, rfl⟩ := guarded_eq_some.mp hst
    have hp := (h.customerTurn hc rfl).producer
    exact Or.inr (follows_of_customer rfl hp hp (by rw [hc]; rfl) rfl rfl)
  | crash =>
    obtain ⟨⟨hc, hhead⟩, rfl⟩ := guarded_eq_some.mp hst
    rcases hc with hc | hc
    · exact absurd hhead ((h.customerTurn hc rfl).head_ne rfl)
    · exact absurd hhead ((h.customerTurn hc rfl).head_ne rfl)
  | free =>
    obtain ⟨hc, rfl⟩ := guarded_eq_some.mp hst
    have hp := (h.customerTurn hc rfl).producer
    exact Or.inr (follows_of_customer rfl hp hp (by rw [hc]; rfl) rfl rfl)
  | unlockCustomer =>
    obtain ⟨hc, rfl⟩ := guarded_eq_some.mp hst
    have hp := (h.customerTurn hc rfl).producer
    exact Or.inr (follows_of_customer rfl hp hp (by rw [hc]; rfl) rfl rfl)
  | postCustomer =>
    obtain ⟨hc, rfl⟩ := guarded_eq_some.mp hst
    have turn := h.customerTurn hc rfl
    exact Or.inr (follows_of_turn rfl (turn_of_customer turn.producer (by rw [hc]; rfl))
      turn.postCustomer.turn_eq rfl)

theorem Alternating.follows_clock {s t : State κ} {a : Label κ} (h : Alternating s)
    (hst : SemaphoreSync.step s a = some t) : a.turn = none ∧ t.clock = s.clock ∨
      a.turn = some (s.clock % 15) ∧ t.clock = s.clock + 1 := by
  rw [State.clock_mod]
  exact h.follows hst

/-! ## Progress -/

/-- A step of the round can be taken. -/
def Ready (s : State κ) : Prop := ∃ a t, step s a = some t ∧ a.turn ≠ none

section

variable {s : State κ} {p : Producer} {c : Customer}

theorem ready_of {a : Label κ} {t : State κ} (hst : step s a = some t) (ha : a.turn ≠ none) :
    Ready s := ⟨a, t, hst, ha⟩

theorem ProducerTurn.ready (h : ProducerTurn p s) (hp : p.between = 1) : Ready s := by
  obtain ⟨n, hn⟩ := h.node
  have hmutex := h.mutex
  obtain rfl := h.producer
  cases hpc : s.producer with
  | malloc => rw [hpc] at hp; cases hp
  | wait => rw [hpc] at hp; cases hp
  | lock =>
    rw [hpc] at hmutex
    exact ready_of (a := .lockProducer) (guarded_of ⟨hpc, hmutex⟩ _) nofun
  | data => exact ready_of (a := .setData n 0) (guarded_of ⟨hpc, hn⟩ _) nofun
  | next => exact ready_of (a := .setNext n) (guarded_of ⟨hpc, hn⟩ _) nofun
  | head => exact ready_of (a := .setHead) (guarded_of hpc _) nofun
  | print => exact ready_of (a := .printProducer n) (guarded_of ⟨hpc, hn⟩ _) nofun
  | unlock => exact ready_of (a := .unlockProducer) (guarded_of hpc _) nofun
  | post => exact ready_of (a := .postProducer) (guarded_of hpc _) nofun

theorem CustomerTurn.ready (h : CustomerTurn c s) (hc : c.between = 1) (hne : c ≠ .crashed) :
    Ready s := by
  obtain ⟨n, hn⟩ := h.node
  have hmutex := h.mutex
  have hlist := h.list
  obtain rfl := h.customer
  cases hpc : s.customer with
  | read => rw [hpc] at hc; cases hc
  | wait => rw [hpc] at hc; cases hc
  | crashed => exact absurd hpc hne
  | lock =>
    rw [hpc] at hmutex
    exact ready_of (a := .lockCustomer) (guarded_of ⟨hpc, hmutex⟩ _) nofun
  | print =>
    rw [hpc] at hlist
    exact ready_of (a := .print n) (guarded_of ⟨hpc, hlist.trans hn⟩ _) nofun
  | unlink =>
    rw [hpc] at hlist
    exact ready_of (a := .unlink n) (guarded_of ⟨hpc, hlist.trans hn⟩ _) nofun
  | free => exact ready_of (a := .free) (guarded_of hpc _) nofun
  | unlock => exact ready_of (a := .unlockCustomer) (guarded_of hpc _) nofun
  | post => exact ready_of (a := .postCustomer) (guarded_of hpc _) nofun

/-- A thread that is at the top of its loop can go on, once the baton is there. -/
theorem Emptied.ready (h : Emptied s) (hp : s.producer = .wait) : Ready s :=
  ready_of (a := .waitProducer) (guarded_of ⟨hp, by rw [h.sem1]; exact Nat.one_pos⟩ _) nofun

theorem Filled.ready (h : Filled s) (hc : s.customer = .wait) : Ready s :=
  ready_of (a := .waitCustomer) (guarded_of ⟨hc, by rw [h.sem2]; exact Nat.one_pos⟩ _) nofun

/-- **The threads do not wait for each other.** The next step of the round can be taken, if need be
after the one in front of a loop. -/
theorem Alternating.goes_on [Nonempty κ] (h : Alternating s) :
    Ready s ∨ ∃ a t, SemaphoreSync.step s a = some t ∧ a.turn = none ∧ Ready t := by
  by_cases hs1 : 0 < s.sem1
  · have turn := h.emptied hs1
    rcases turn.producer with hp | ⟨hp, -⟩
    · obtain ⟨n⟩ := ‹Nonempty κ›
      have hst : SemaphoreSync.step s (.malloc n) = some _ := guarded_of hp _
      exact Or.inr ⟨_, _, hst, rfl, ((h.step hst).emptied hs1).ready rfl⟩
    · exact Or.inl (turn.ready hp)
  by_cases hs2 : 0 < s.sem2
  · have turn := h.filled hs2
    rcases Customer.idle turn.customer with hc | hc
    · have hst : SemaphoreSync.step s .readHead = some _ := guarded_of hc _
      exact Or.inr ⟨_, _, hst, rfl, ((h.step hst).filled hs2).ready rfl⟩
    · exact Or.inl (turn.ready hc)
  -- neither semaphore has the baton, so a thread has it
  left
  have hbaton := h.baton
  by_cases hp : s.producer.between = 1
  · exact (h.producerTurn rfl hp).ready hp
  · have hp0 : s.producer.between = 0 := by
      cases hpc : s.producer <;> first | rfl | exact absurd (by rw [hpc]; rfl) hp
    have hc : s.customer.between = 1 := by omega
    exact (h.customerTurn rfl hc).ready hc h.alive

end

/-! ## Runs -/

/-- **The schedule decides nothing but when the threads enter their loops.** In every run in which
freed cells keep their contents, the steps of the loops are those of the round, one after the other,
and so many values have been printed. And the next step of the round can be taken, if need be after
the one in front of a loop. -/
theorem turns_of_run [Nonempty κ] {data : κ → ℤ} {next : κ → Option κ} {labels : List (Label κ)}
    {s : State κ} (hrun : run step (init data next) labels = some s) :
    turns labels = (List.range' 4 (turns labels).length).map (· % 15) ∧
      s.printed.length = (4 + (turns labels).length) / 15 ∧
      ∃ before a t, before.length ≤ 1 ∧ turns before = [] ∧
        run step s (before ++ [a]) = some t ∧ a.turn = some ((4 + (turns labels).length) % 15) := by
  have h := alternating_of_reachable ⟨data, next, labels, hrun⟩
  obtain ⟨hturns, hclock⟩ := turns_of_clock Label.turn State.clock (· % 15)
    (fun s a t hs hst ↦ hs.step hst) (fun s a t hs hst ↦ hs.follows_clock hst)
    (alternating_init data next) hrun
  have hstart : (init data next).clock = 4 := rfl
  rw [hstart] at hturns hclock
  rw [turns, ← hclock, State.clock_div]
  refine ⟨hturns, rfl, ?_⟩
  rcases h.goes_on with ⟨a, t, hst, ha⟩ | ⟨b, u, hfront, hb, a, t, hst, ha⟩
  · obtain ⟨hnone, -⟩ | ⟨hplace, -⟩ := h.follows_clock hst
    · exact absurd hnone ha
    · exact ⟨[], a, t, Nat.zero_le 1, rfl, run_cons_of hst (run_nil t), hplace⟩
  · obtain ⟨-, hkept⟩ | ⟨hsome, -⟩ := h.follows_clock hfront
    · obtain ⟨hnone, -⟩ | ⟨hplace, -⟩ := (h.step hfront).follows_clock hst
      · exact absurd hnone ha
      · rw [hkept] at hplace
        exact ⟨[b], a, t, le_refl 1, List.filterMap_cons_none hb,
          run_cons_of hfront (run_cons_of hst (run_nil t)), hplace⟩
    · rw [hb] at hsome
      cases hsome

/-- The producer has posted, and the customer is still in front of his loop. -/
theorem turns_of_run_posted :
    ∃ labels s, run step (init (κ := ℕ) (fun _ ↦ 0) fun _ ↦ none) labels = some s ∧
      s.customer = .read ∧ turns labels = [4, 5, 6, 7, 8, 9, 10, 11] ∧
      ∃ before a t, before.length ≤ 1 ∧ turns before = [] ∧
        run step s (before ++ [a]) = some t ∧ a.turn = some 12 := by
  have hrun : ∃ s, run step (init (κ := ℕ) (fun _ ↦ 0) fun _ ↦ none)
      [.malloc 0, .waitProducer, .lockProducer, .setData 0 7, .setNext 0, .setHead,
        .printProducer 0, .unlockProducer, .postProducer] = some s ∧ s.customer = .read :=
    ⟨_, rfl, rfl⟩
  obtain ⟨s, hs, hread⟩ := hrun
  exact ⟨_, s, hs, hread, rfl, (turns_of_run hs).2.2⟩

end SemaphoreSync

end CodeOnLinux
