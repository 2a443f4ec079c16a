import CodeOnLinux.Foundation.Transition
import Mathlib.Data.Finset.Basic

/-!
# Producer and customer with a condition variable: `cond.c`

The two threads of `cond.c` are one step function on a shared state; a schedule is a list of
labels, and a label that is not enabled, such as `lock` on a mutex that is held, ends the run. The
stores of the producer to its node and the whole consumption of the customer happen while the
mutex is held, so each of them is one step.

`pthread_cond_wait` is three steps: `wait` gives the mutex back and blocks, a `signal` unblocks,
and `retake` takes the mutex again. There are no spurious wakeups. A signal that nobody waits for
is lost.

The customer tests `head` once, with `if`, and the producer signals after it has released the
mutex. The signal of a node that is already consumed can then wake the customer on an empty list;
`customer_crashes_only_on_late_signal` says that this is the only way to follow the null
pointer.
-/

namespace CodeOnLinux

namespace Cond

open Transition

/-! ## The program -/

inductive Thread
  | producer
  | customer
  deriving DecidableEq

/-- What the producer does next. -/
inductive Producer
  | malloc
  | lock
  | link
  | unlock
  | signal
  deriving DecidableEq

/-- What the customer does next; `waiting` is blocked on the condition variable, and `crashed` has
followed a null pointer. -/
inductive Customer
  | lock
  | test
  | wait
  | waiting
  | retake
  | consume
  | unlock
  | crashed
  deriving DecidableEq

/-- The two threads, for the cells `κ` that `malloc` can return. -/
structure State (κ : Type*) where
  /-- The `data` of each cell. -/
  data : κ → ℤ
  /-- The `next` of each cell. -/
  next : κ → Option κ
  /-- The cells that are in use. -/
  allocated : Finset κ
  /-- `head` -/
  head : Option κ
  /-- The thread that has the mutex. -/
  mutex : Option Thread
  /-- What the producer does next. -/
  producer : Producer
  /-- `new_node` -/
  newNode : Option κ
  /-- What the customer does next. -/
  customer : Customer
  /-- What the customer has printed. -/
  printed : List ℤ

inductive Label (κ : Type*)
  /-- `malloc` returns a cell that is not allocated. -/
  | malloc (n : κ)
  | lockProducer
  | link (n : κ) (value : ℤ)
  | unlockProducer
  | signal
  | lockCustomer
  | test
  | wait
  | retake
  | consume (n : κ)
  /-- `head->data` with the null pointer in `head` -/
  | crash
  | unlockCustomer
  deriving DecidableEq

variable {κ : Type*}

/-- Both threads at the top of their loop and an empty list; the cells hold anything. -/
def init (data : κ → ℤ) (next : κ → Option κ) : State κ where
  data := data
  next := next
  allocated := ∅
  head := none
  mutex := none
  producer := .malloc
  newNode := none
  customer := .lock
  printed := []

variable [DecidableEq κ]

/-- `new_node->data = v; new_node->next = head; head = new_node;` -/
def State.push (s : State κ) (n : κ) (value : ℤ) : State κ :=
  { s with
    data := Function.update s.data n value
    next := Function.update s.next n s.head
    head := some n }

/-- `printf(.., head->data); temp = head; head = head->next; free(temp);` -/
def State.pop (s : State κ) (n : κ) : State κ :=
  { s with
    printed := s.printed ++ [s.data n]
    head := s.next n
    allocated := s.allocated.erase n }

def step (s : State κ) : Label κ → Option (State κ)
  | .malloc n =>
    guarded (s.producer = .malloc ∧ n ∉ s.allocated)
      { s with producer := .lock, newNode := some n, allocated := insert n s.allocated }
  | .lockProducer =>
    guarded (s.producer = .lock ∧ s.mutex = none)
      { s with producer := .link, mutex := some .producer }
  | .link n value =>
    guarded (s.producer = .link ∧ s.newNode = some n)
      { s.push n value with producer := .unlock }
  | .unlockProducer =>
    guarded (s.producer = .unlock) { s with producer := .signal, mutex := none }
  | .signal =>
    -- it unblocks the customer if he waits, and is lost otherwise
    guarded (s.producer = .signal)
      { s with
        producer := .malloc
        customer := if s.customer = .waiting then .retake else s.customer }
  | .lockCustomer =>
    guarded (s.customer = .lock ∧ s.mutex = none)
      { s with customer := .test, mutex := some .customer }
  | .test =>
    guarded (s.customer = .test)
      { s with customer := if s.head = none then .wait else .consume }
  | .wait => guarded (s.customer = .wait) { s with customer := .waiting, mutex := none }
  | .retake =>
    guarded (s.customer = .retake ∧ s.mutex = none)
      { s with customer := .consume, mutex := some .customer }
  | .consume n =>
    guarded (s.customer = .consume ∧ s.head = some n) { s.pop n with customer := .unlock }
  | .crash => guarded (s.customer = .consume ∧ s.head = none) { s with customer := .crashed }
  | .unlockCustomer =>
    guarded (s.customer = .unlock) { s with customer := .lock, mutex := none }

def Reachable (s : State κ) : Prop := ∃ data next labels, run step (init data next) labels = some s

/-! ## What the mutex protects -/

def Producer.holds : Producer → Bool
  | .link | .unlock => true
  | _ => false

def Customer.holds : Customer → Bool
  | .test | .wait | .consume | .unlock | .crashed => true
  | _ => false

/-- The mutex is held by the thread that is in its critical section, and the customer goes to
wait only on an empty list. -/
structure Protected (s : State κ) : Prop where
  /-- The producer has the mutex in his critical section. -/
  producer_holds : s.mutex = some .producer ↔ s.producer.holds = true
  /-- The customer has it in his. -/
  customer_holds : s.mutex = some .customer ↔ s.customer.holds = true
  /-- He goes to wait only on an empty list. -/
  wait_empty : s.customer = .wait → s.head = none

omit [DecidableEq κ] in
theorem protected_init (data : κ → ℤ) (next : κ → Option κ) : Protected (init data next) where
  producer_holds := by simp [init, Producer.holds]
  customer_holds := by simp [init, Customer.holds]
  wait_empty := fun _ ↦ rfl

theorem Protected.step {s t : State κ} {a : Label κ} (h : Protected s) (hst : step s a = some t) :
    Protected t := by
  obtain ⟨hp, hc, hw⟩ := h
  cases a with
  | malloc n =>
    obtain ⟨⟨hpc, -⟩, rfl⟩ := guarded_eq_some.mp hst
    exact ⟨by simpa [hpc, Producer.holds] using hp, hc, hw⟩
  | lockProducer =>
    obtain ⟨⟨hpc, hfree⟩, rfl⟩ := guarded_eq_some.mp hst
    refine ⟨by simp [Producer.holds], ?_, hw⟩
    simpa [hfree] using hc
  | link n value =>
    obtain ⟨⟨hpc, -⟩, rfl⟩ := guarded_eq_some.mp hst
    have hheld : s.mutex = some .producer := hp.mpr (by rw [hpc]; rfl)
    refine ⟨by simp [State.push, Producer.holds, hheld], hc, fun hwait ↦ ?_⟩
    -- the customer about to wait holds the mutex too
    have hcustomer : s.mutex = some .customer := hc.mpr <| by
      rw [show s.customer = .wait from hwait]
      rfl
    exact absurd (hheld.symm.trans hcustomer) (by simp)
  | unlockProducer =>
    obtain ⟨hpc, rfl⟩ := guarded_eq_some.mp hst
    have hheld : s.mutex = some .producer := hp.mpr (by rw [hpc]; rfl)
    refine ⟨by simp [Producer.holds], ?_, hw⟩
    simpa [hheld] using hc
  | signal =>
    -- a customer that is woken does not hold the mutex yet
    obtain ⟨hpc, rfl⟩ := guarded_eq_some.mp hst
    refine ⟨by simpa [hpc, Producer.holds] using hp, ?_, fun hwait ↦ hw ?_⟩
    · by_cases hwaiting : s.customer = .waiting
      · simpa [hwaiting, Customer.holds] using hc
      · simpa [hwaiting] using hc
    · by_cases hwaiting : s.customer = .waiting
      · simp [hwaiting] at hwait
      · simpa [hwaiting] using hwait
  | lockCustomer =>
    obtain ⟨⟨hpc, hfree⟩, rfl⟩ := guarded_eq_some.mp hst
    refine ⟨?_, by simp [Customer.holds], fun hwait ↦ absurd hwait (by simp)⟩
    simpa [hfree] using hp
  | test =>
    obtain ⟨hpc, rfl⟩ := guarded_eq_some.mp hst
    by_cases hhead : s.head = none
    · exact ⟨hp, by simpa [hhead, hpc, Customer.holds] using hc, fun _ ↦ hhead⟩
    · refine ⟨hp, by simpa [hhead, hpc, Customer.holds] using hc, fun hwait ↦ ?_⟩
      simp [hhead] at hwait
  | wait =>
    obtain ⟨hpc, rfl⟩ := guarded_eq_some.mp hst
    have hheld : s.mutex = some .customer := hc.mpr (by rw [hpc]; rfl)
    refine ⟨?_, by simp [Customer.holds], fun hwait ↦ absurd hwait (by simp)⟩
    simpa [hheld] using hp
  | retake =>
    obtain ⟨⟨hpc, hfree⟩, rfl⟩ := guarded_eq_some.mp hst
    refine ⟨?_, by simp [Customer.holds], fun hwait ↦ absurd hwait (by simp)⟩
    simpa [hfree] using hp
  | consume n =>
    obtain ⟨⟨hpc, -⟩, rfl⟩ := guarded_eq_some.mp hst
    refine ⟨hp, ?_, fun hwait ↦ absurd hwait (by simp)⟩
    simpa [State.pop, hpc, Customer.holds] using hc
  | crash =>
    obtain ⟨⟨hpc, -⟩, rfl⟩ := guarded_eq_some.mp hst
    exact ⟨hp, by simpa [hpc, Customer.holds] using hc, fun hwait ↦ absurd hwait (by simp)⟩
  | unlockCustomer =>
    obtain ⟨hpc, rfl⟩ := guarded_eq_some.mp hst
    have hheld : s.mutex = some .customer := hc.mpr (by rw [hpc]; rfl)
    refine ⟨?_, by simp [Customer.holds], fun hwait ↦ absurd hwait (by simp)⟩
    simpa [hheld] using hp

theorem protected_of_reachable {s : State κ} (h : Reachable s) : Protected s := by
  obtain ⟨data, next, labels, hrun⟩ := h
  exact invariant_of_run (fun s a t hs hst ↦ hs.step hst) (protected_init data next) hrun

/-! ## The late signal -/

/-- The step is not a `wait` that the signal of an earlier node is still going to answer. -/
def SignalOnTime (s : State κ) (a : Label κ) : Prop :=
  a = .wait → s.producer ≠ .signal

instance (s : State κ) (a : Label κ) : Decidable (SignalOnTime s a) :=
  inferInstanceAs (Decidable (_ → _))

/-- The customer consumes, and is woken, only while there is a node; and when he waits, a node is
there from the moment it is linked. -/
structure Stocked (s : State κ) : Prop where
  /-- There is a node to be consumed. -/
  consume : s.customer = .consume → s.head ≠ none
  /-- There is one when he was woken. -/
  retake : s.customer = .retake → s.head ≠ none
  /-- While he waits, there is one from the moment it is linked. -/
  waiting : s.customer = .waiting → s.producer = .unlock ∨ s.producer = .signal → s.head ≠ none
  /-- He has not followed the null pointer. -/
  alive : s.customer ≠ .crashed

omit [DecidableEq κ] in
theorem stocked_init (data : κ → ℤ) (next : κ → Option κ) : Stocked (init data next) where
  consume := fun h ↦ absurd h (by simp [init])
  retake := fun h ↦ absurd h (by simp [init])
  waiting := fun h ↦ absurd h (by simp [init])
  alive := by simp [init]

theorem Stocked.step {s t : State κ} {a : Label κ} (h : Stocked s) (hprot : Protected s)
    (hcond : SignalOnTime s a) (hst : step s a = some t) : Stocked t := by
  obtain ⟨hconsume, hretake, hwaiting, halive⟩ := h
  cases a with
  | malloc n =>
    obtain ⟨⟨hpc, -⟩, rfl⟩ := guarded_eq_some.mp hst
    exact ⟨hconsume, hretake, fun _ hp ↦ absurd hp (by simp), halive⟩
  | lockProducer =>
    obtain ⟨⟨hpc, -⟩, rfl⟩ := guarded_eq_some.mp hst
    exact ⟨hconsume, hretake, fun _ hp ↦ absurd hp (by simp), halive⟩
  | link n value =>
    obtain ⟨-, rfl⟩ := guarded_eq_some.mp hst
    have hsome : (s.push n value).head ≠ none := Option.some_ne_none n
    exact ⟨fun _ ↦ hsome, fun _ ↦ hsome, fun _ _ ↦ hsome, halive⟩
  | unlockProducer =>
    obtain ⟨hpc, rfl⟩ := guarded_eq_some.mp hst
    exact ⟨hconsume, hretake, fun hw _ ↦ hwaiting hw (Or.inl hpc), halive⟩
  | signal =>
    obtain ⟨hpc, rfl⟩ := guarded_eq_some.mp hst
    by_cases hw : s.customer = .waiting
    · -- the customer that is woken finds the node this signal is for
      have hsome := hwaiting hw (Or.inr hpc)
      exact ⟨fun _ ↦ hsome, fun _ ↦ hsome, fun _ _ ↦ hsome, by simp [hw]⟩
    · simp only [if_neg hw]
      exact ⟨hconsume, hretake, fun hw' ↦ absurd hw' hw, halive⟩
  | lockCustomer =>
    obtain ⟨-, rfl⟩ := guarded_eq_some.mp hst
    exact ⟨nofun, nofun, nofun, nofun⟩
  | test =>
    obtain ⟨-, rfl⟩ := guarded_eq_some.mp hst
    by_cases hhead : s.head = none
    · simp only [if_pos hhead]
      exact ⟨nofun, nofun, nofun, nofun⟩
    · simp only [if_neg hhead]
      exact ⟨fun _ ↦ hhead, nofun, nofun, nofun⟩
  | wait =>
    obtain ⟨hpc, rfl⟩ := guarded_eq_some.mp hst
    refine ⟨nofun, nofun, fun _ hp ↦ ?_, nofun⟩
    rcases hp with hp | hp
    · -- the producer would hold the mutex that the customer gives back
      have hproducer := hprot.producer_holds.mpr (by rw [show s.producer = .unlock from hp]; rfl)
      have hcustomer := hprot.customer_holds.mpr (by rw [hpc]; rfl)
      exact absurd (hproducer.symm.trans hcustomer) (by simp)
    · exact absurd hp (hcond rfl)
  | retake =>
    obtain ⟨⟨hpc, -⟩, rfl⟩ := guarded_eq_some.mp hst
    exact ⟨fun _ ↦ hretake hpc, nofun, nofun, nofun⟩
  | consume n =>
    obtain ⟨-, rfl⟩ := guarded_eq_some.mp hst
    exact ⟨nofun, nofun, nofun, nofun⟩
  | crash =>
    obtain ⟨⟨hpc, hhead⟩, rfl⟩ := guarded_eq_some.mp hst
    exact absurd hhead (hconsume hpc)
  | unlockCustomer =>
    obtain ⟨-, rfl⟩ := guarded_eq_some.mp hst
    exact ⟨nofun, nofun, nofun, nofun⟩

/-- From a wait that a late signal will answer, the crash is four steps away. -/
theorem crash_of_late_signal {s : State κ} (hprot : Protected s) (hcustomer : s.customer = .wait)
    (hproducer : s.producer = .signal) :
    ∃ t, run step s [.wait, .signal, .retake, .crash] = some t ∧ t.customer = .crashed := by
  have hhead := hprot.wait_empty hcustomer
  refine ⟨_, run_cons_of (guarded_of hcustomer _) <| run_cons_of (guarded_of hproducer _) <|
    run_cons_of (guarded_of ⟨rfl, rfl⟩ _) <| run_cons_of (guarded_of ⟨rfl, hhead⟩ _) (run_nil _),
    rfl⟩

/-- **When the customer follows the null pointer.** He does not in any run in which no wait starts
between the producer's unlock and its signal; and from every reachable state in which such a wait
is the next step, the schedule can lead him there. -/
theorem customer_crashes_only_on_late_signal :
    (∀ (data : κ → ℤ) (next : κ → Option κ) (labels : List (Label κ)) (s : State κ),
      Along step SignalOnTime (init data next) labels → run step (init data next) labels = some s →
        s.customer ≠ .crashed ∧ (s.customer = .consume → s.head ≠ none)) ∧
    ∀ s : State κ, Reachable s → s.customer = .wait → s.producer = .signal →
      ∃ t, run step s [.wait, .signal, .retake, .crash] = some t ∧ t.customer = .crashed := by
  refine ⟨fun data next labels s halong hrun ↦ ?_, fun s hs ↦
    crash_of_late_signal (protected_of_reachable hs)⟩
  obtain ⟨-, hstocked⟩ := invariant_of_along (I := fun s ↦ Protected s ∧ Stocked s)
    (fun s a t hs hcond hst ↦ ⟨hs.1.step hst, hs.2.step hs.1 hcond hst⟩)
    ⟨protected_init data next, stocked_init data next⟩ halong hrun
  exact ⟨hstocked.alive, hstocked.consume⟩

/-- The customer waits before the first node is produced, and is woken in time. -/
def onTime : List (Label ℕ) :=
  [.lockCustomer, .test, .wait, .malloc 0, .lockProducer, .link 0 7, .unlockProducer, .signal,
    .retake]

/-- He is about to consume the node. -/
theorem customer_alive_after_wait :
    ∃ s, run step (init (κ := ℕ) (fun _ ↦ 0) fun _ ↦ none) onTime = some s ∧
      s.customer = .consume ∧ s.head = some 0 ∧
      s.customer ≠ .crashed ∧ (s.customer = .consume → s.head ≠ none) := by
  have hvalues : (run step (init (κ := ℕ) (fun _ ↦ 0) fun _ ↦ none) onTime).map
      (fun s ↦ (s.customer, s.head)) = some (.consume, some 0) := rfl
  obtain ⟨s, hs, hv⟩ := Option.map_eq_some_iff.mp hvalues
  obtain ⟨hcustomer, hhead⟩ := Prod.mk.inj hv
  have hsafe := customer_crashes_only_on_late_signal.1 (fun _ ↦ 0) (fun _ ↦ none) onTime s
    (by decide) hs
  exact ⟨s, hs, hcustomer, hhead, hsafe⟩

/-- The customer consumes the node before its signal is sent, waits for the next one, and is woken
by the signal of the first. -/
def lateSignal : List (Label ℕ) :=
  [.malloc 0, .lockProducer, .link 0 7, .unlockProducer,
    .lockCustomer, .test, .consume 0, .unlockCustomer, .lockCustomer, .test, .wait,
    .signal, .retake, .crash]

theorem customer_crashes_after_lateSignal :
    ¬∀ (labels : List (Label ℕ)) (s : State ℕ),
      run step (init (fun _ ↦ 0) fun _ ↦ none) labels = some s → s.customer ≠ .crashed :=
  fun h ↦ h lateSignal _ rfl rfl

end Cond

end CodeOnLinux
