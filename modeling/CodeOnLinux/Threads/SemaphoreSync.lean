import CodeOnLinux.Foundation.Chain
import CodeOnLinux.Foundation.Transition
import Mathlib.Data.Finset.Basic
import Mathlib.Tactic.Common

/-!
# Two semaphores and one node: `semaphore_sync_lock.c`

The producer allocates a single node and pushes it in every round; the customer removes it. The two
semaphores pass a baton: exactly one of `sem1`, `sem2`, the producer between `sem_wait` and
`sem_post`, and the customer there, has it. So the values that the customer prints are those that
the producer stores, one by one (`handOff_alternates`).

## What is a step

Each memory access is a step of its own, and so is each call of a semaphore or of the mutex. A
schedule may therefore put the customer's `tmp = head`, which no lock protects, between any two
accesses of the producer. The state records which cells are freed and whether a freed one was read,
written or freed again; the contents of a freed cell stay what they are, so that the hand-off can be
followed beyond such an access.

## The invariant

Everything about the list follows from where the baton is (`Alternating`): whether the node is in
the list, whether its value is outstanding, and who has the mutex. It is used in four views, one
for each place of the baton (`Emptied`, `ProducerTurn`, `Filled`, `CustomerTurn`), since a step is
possible in one or two of them only; each view has its own lemmas about the steps that leave it,
and `Alternating.step` puts them together.

## The unsynchronised read

The customer reads `head` once, in front of his loop, and frees what he has read in every round. If
the list was empty then, he frees the null pointer and nothing is misused. If not, he frees the one
node that the producer goes on writing to. Both are theorems about runs
(`misused_only_after_late_read`): no run without such a read misuses a node, and behind such a read
there is always a run that does (`Doomed`).
-/

namespace CodeOnLinux

namespace SemaphoreSync

open Transition

/-! ## The program -/

inductive Thread
  | producer
  | customer
  deriving DecidableEq

/-- What the producer does next; `data`, `next` and `head` are its three stores. -/
inductive Producer
  | malloc
  | wait
  | lock
  | data
  | next
  | head
  | print
  | unlock
  | post
  deriving DecidableEq

/-- What the customer does next; `read` is `tmp = head`, and `crashed` has followed a null
pointer. -/
inductive Customer
  | read
  | wait
  | lock
  | print
  | unlink
  | free
  | unlock
  | post
  | crashed
  deriving DecidableEq

/-- The two threads, for the cells `κ` that `malloc` can return. -/
structure State (κ : Type*) where
  /-- `sem1` -/
  sem1 : ℕ
  /-- `sem2` -/
  sem2 : ℕ
  /-- The thread that has the mutex. -/
  mutex : Option Thread
  /-- The `data` of each cell. -/
  data : κ → ℤ
  /-- The `next` of each cell. -/
  next : κ → Option κ
  /-- `head` -/
  head : Option κ
  /-- What the producer does next. -/
  producer : Producer
  /-- `new_node` -/
  newNode : Option κ
  /-- What the customer does next. -/
  customer : Customer
  /-- `tmp` -/
  tmp : Option κ
  /-- The values that the producer has stored. -/
  produced : List ℤ
  /-- The values that the customer has printed. -/
  printed : List ℤ
  /-- The cells that were freed. -/
  freed : Finset κ
  /-- A node was read, written or freed after it had been freed. -/
  misused : Bool

inductive Label (κ : Type*)
  | malloc (n : κ)
  | waitProducer
  | lockProducer
  | setData (n : κ) (value : ℤ)
  | setNext (n : κ)
  | setHead
  | printProducer (n : κ)
  | unlockProducer
  | postProducer
  | readHead
  | waitCustomer
  | lockCustomer
  | print (n : κ)
  | unlink (n : κ)
  /-- `head->data` or `head->next` with the null pointer in `head` -/
  | crash
  | free
  | unlockCustomer
  | postCustomer
  deriving DecidableEq

variable {κ : Type*}

/-- The state after `main` has created the two threads; the cells hold anything. -/
def init (data : κ → ℤ) (next : κ → Option κ) : State κ where
  sem1 := 1
  sem2 := 0
  mutex := none
  data := data
  next := next
  head := none
  producer := .malloc
  newNode := none
  customer := .read
  tmp := none
  produced := []
  printed := []
  freed := ∅
  misused := false

variable [DecidableEq κ]

/-- An access to a node. -/
def State.touch (s : State κ) (n : κ) : State κ :=
  { s with misused := s.misused || decide (n ∈ s.freed) }

/-- `free(tmp)`; a null pointer is ignored. -/
def State.freeTmp (s : State κ) : State κ :=
  { s with
    misused := s.misused || s.tmp.elim false fun n ↦ decide (n ∈ s.freed)
    freed := s.tmp.elim s.freed fun n ↦ insert n s.freed }

def step (s : State κ) : Label κ → Option (State κ)
  | .malloc n =>
    guarded (s.producer = .malloc)
      { s with producer := .wait, newNode := some n, freed := s.freed.erase n }
  | .waitProducer =>
    guarded (s.producer = .wait ∧ 0 < s.sem1) { s with producer := .lock, sem1 := s.sem1 - 1 }
  | .lockProducer =>
    guarded (s.producer = .lock ∧ s.mutex = none)
      { s with producer := .data, mutex := some .producer }
  | .setData n value =>
    guarded (s.producer = .data ∧ s.newNode = some n)
      { s.touch n with
        producer := .next
        data := Function.update s.data n value
        produced := s.produced ++ [value] }
  | .setNext n =>
    guarded (s.producer = .next ∧ s.newNode = some n)
      { s.touch n with producer := .head, next := Function.update s.next n s.head }
  | .setHead => guarded (s.producer = .head) { s with producer := .print, head := s.newNode }
  | .printProducer n =>
    guarded (s.producer = .print ∧ s.newNode = some n) { s.touch n with producer := .unlock }
  | .unlockProducer => guarded (s.producer = .unlock) { s with producer := .post, mutex := none }
  | .postProducer => guarded (s.producer = .post) { s with producer := .wait, sem2 := s.sem2 + 1 }
  | .readHead => guarded (s.customer = .read) { s with customer := .wait, tmp := s.head }
  | .waitCustomer =>
    guarded (s.customer = .wait ∧ 0 < s.sem2) { s with customer := .lock, sem2 := s.sem2 - 1 }
  | .lockCustomer =>
    guarded (s.customer = .lock ∧ s.mutex = none)
      { s with customer := .print, mutex := some .customer }
  | .print n =>
    guarded (s.customer = .print ∧ s.head = some n)
      { s.touch n with customer := .unlink, printed := s.printed ++ [s.data n] }
  | .unlink n =>
    guarded (s.customer = .unlink ∧ s.head = some n)
      { s.touch n with customer := .free, head := s.next n }
  | .crash =>
    guarded ((s.customer = .print ∨ s.customer = .unlink) ∧ s.head = none)
      { s with customer := .crashed }
  | .free => guarded (s.customer = .free) { s.freeTmp with customer := .unlock }
  | .unlockCustomer => guarded (s.customer = .unlock) { s with customer := .post, mutex := none }
  | .postCustomer => guarded (s.customer = .post) { s with customer := .wait, sem1 := s.sem1 + 1 }

def Reachable (s : State κ) : Prop := ∃ data next labels, run step (init data next) labels = some s

/-! ## Where the baton is -/

/-- `1` between the producer's `sem_wait` and its `sem_post`. -/
def Producer.between : Producer → ℕ
  | .malloc | .wait => 0
  | _ => 1

def Customer.between : Customer → ℕ
  | .read | .wait => 0
  | _ => 1

/-- The node is linked and the baton not yet passed on. -/
def Producer.pushed : Producer → Bool
  | .print | .unlock | .post => true
  | _ => false

/-- The value of this round is in the node. -/
def Producer.stored : Producer → Bool
  | .next | .head | .print | .unlock | .post => true
  | _ => false

def Customer.printing : Customer → Bool
  | .lock | .print => true
  | _ => false

/-- The baton was taken and the node is still linked. -/
def Customer.unlinking : Customer → Bool
  | .lock | .print | .unlink => true
  | _ => false

def Producer.holds : Producer → Bool
  | .data | .next | .head | .print | .unlock => true
  | _ => false

def Customer.holds : Customer → Bool
  | .print | .unlink | .free | .unlock | .crashed => true
  | _ => false

theorem Producer.idle {p : Producer} (h : p.between = 0) : p = .malloc ∨ p = .wait := by
  cases p with
  | malloc => exact Or.inl rfl
  | wait => exact Or.inr rfl
  | _ => exact absurd h (by decide)

theorem Customer.idle {c : Customer} (h : c.between = 0) : c = .read ∨ c = .wait := by
  cases c with
  | read => exact Or.inl rfl
  | wait => exact Or.inr rfl
  | _ => exact absurd h (by decide)

theorem Customer.between_of_unlinking {c : Customer} (h : c.unlinking = true) :
    c.between = 1 := by
  cases c with
  | lock | print | unlink => rfl
  | _ => cases h

/-- The list holds the node. -/
def State.full (s : State κ) : Bool :=
  decide (0 < s.sem2) || s.producer.pushed || s.customer.unlinking

/-- A value is produced and not yet printed. -/
def State.owed (s : State κ) : Bool :=
  decide (0 < s.sem2) || s.producer.stored || s.customer.printing

/-- **The alternation.** There is one baton; the list and the outstanding value are where it
says. -/
structure Alternating (s : State κ) : Prop where
  /-- There is one baton. -/
  baton : s.sem1 + s.sem2 + s.producer.between + s.customer.between = 1
  /-- The mutex is held by the thread between lock and unlock. -/
  mutex : s.mutex = if s.producer.holds then some .producer
    else if s.customer.holds then some .customer else none
  /-- The producer starts with the baton in `sem1`. -/
  fresh : s.producer = .malloc → s.sem1 = 1
  /-- He has a node from then on. -/
  node : s.producer = .malloc ∨ ∃ n, s.newNode = some n
  /-- The list is that node, while it is full. -/
  list : s.head = if s.full then s.newNode else none
  /-- Nothing comes behind it. -/
  tail : s.full = true ∨ s.producer = .head → ∀ n ∈ s.newNode, s.next n = none
  /-- At most one value is outstanding. -/
  values : s.produced = s.printed ++ if s.owed then s.newNode.toList.map s.data else []
  /-- The customer has not followed a null pointer. -/
  alive : s.customer ≠ .crashed

omit [DecidableEq κ] in
theorem alternating_init (data : κ → ℤ) (next : κ → Option κ) : Alternating (init data next) where
  baton := rfl
  mutex := rfl
  fresh := fun _ ↦ rfl
  node := Or.inl rfl
  list := rfl
  tail := by rintro (h | h) <;> cases h
  values := rfl
  alive := nofun

/-! ## Whose turn it is -/

/-- `sem1` has the baton, and the list is empty. -/
structure Emptied (s : State κ) : Prop where
  /-- The producer may begin a round. -/
  producer : s.producer = .malloc ∨ s.producer = .wait ∧ ∃ n, s.newNode = some n
  /-- The customer is not in one. -/
  customer : s.customer.between = 0
  /-- The baton is here. -/
  sem1 : s.sem1 = 1
  /-- It is not there. -/
  sem2 : s.sem2 = 0
  /-- The mutex is free. -/
  mutex : s.mutex = none
  /-- There is no node. -/
  list : s.head = none
  /-- Everything was printed. -/
  values : s.produced = s.printed

/-- The producer has it and stands at `p`. -/
structure ProducerTurn (p : Producer) (s : State κ) : Prop where
  /-- He is there. -/
  producer : s.producer = p
  /-- The customer is not in a round. -/
  customer : s.customer.between = 0
  /-- The baton is not in a semaphore. -/
  sem1 : s.sem1 = 0
  /-- Nor in the other. -/
  sem2 : s.sem2 = 0
  /-- He has the mutex between lock and unlock. -/
  mutex : s.mutex = if p.holds then some .producer else none
  /-- He has a node. -/
  node : ∃ n, s.newNode = some n
  /-- It is in the list behind his last store. -/
  list : s.head = if p.pushed then s.newNode else none
  /-- Its `next` is null behind the store before. -/
  tail : p.pushed = true ∨ p = .head → ∀ n ∈ s.newNode, s.next n = none
  /-- Its value is outstanding once it is stored. -/
  values : s.produced = s.printed ++ if p.stored then s.newNode.toList.map s.data else []

/-- `sem2` has it, and the node is in the list. -/
structure Filled (s : State κ) : Prop where
  /-- The producer waits. -/
  producer : s.producer = .wait
  /-- The customer is not in a round. -/
  customer : s.customer.between = 0
  /-- The baton is not there. -/
  sem1 : s.sem1 = 0
  /-- It is here. -/
  sem2 : s.sem2 = 1
  /-- The mutex is free. -/
  mutex : s.mutex = none
  /-- There is a node. -/
  node : ∃ n, s.newNode = some n
  /-- It is the list. -/
  list : s.head = s.newNode
  /-- Nothing comes behind it. -/
  tail : ∀ n ∈ s.newNode, s.next n = none
  /-- Its value is outstanding. -/
  values : s.produced = s.printed ++ s.newNode.toList.map s.data

/-- The customer has it and stands at `c`. -/
structure CustomerTurn (c : Customer) (s : State κ) : Prop where
  /-- The producer waits. -/
  producer : s.producer = .wait
  /-- He is there. -/
  customer : s.customer = c
  /-- The baton is not in a semaphore. -/
  sem1 : s.sem1 = 0
  /-- Nor in the other. -/
  sem2 : s.sem2 = 0
  /-- He has the mutex between lock and unlock. -/
  mutex : s.mutex = if c.holds then some .customer else none
  /-- There is a node. -/
  node : ∃ n, s.newNode = some n
  /-- It is in the list until he unlinks it. -/
  list : s.head = if c.unlinking then s.newNode else none
  /-- Nothing comes behind it. -/
  tail : c.unlinking = true → ∀ n ∈ s.newNode, s.next n = none
  /-- Its value is outstanding until he prints it. -/
  values : s.produced = s.printed ++ if c.printing then s.newNode.toList.map s.data else []

section

variable {s : State κ} {p : Producer} {c : Customer}

omit [DecidableEq κ]

/-- While the customer is outside, everything is as the producer has left it. -/
theorem State.of_customer_idle (hc : s.customer.between = 0) :
    s.customer ≠ .crashed ∧ s.customer.holds = false ∧
      s.full = (decide (0 < s.sem2) || s.producer.pushed) ∧
      s.owed = (decide (0 < s.sem2) || s.producer.stored) := by
  rcases Customer.idle hc with hc | hc <;> rw [State.full, State.owed, hc] <;>
    exact ⟨by decide, rfl, Bool.or_false _, Bool.or_false _⟩

theorem State.of_producer_idle (hp : s.producer = .malloc ∨ s.producer = .wait) :
    s.producer.between = 0 ∧ s.producer.holds = false ∧ s.producer.pushed = false ∧
      s.producer.stored = false ∧ s.producer ≠ .head := by
  rcases hp with hp | hp <;> rw [hp] <;> exact ⟨rfl, rfl, rfl, rfl, by decide⟩

theorem Alternating.emptied (h : Alternating s) (hs : 0 < s.sem1) : Emptied s := by
  obtain ⟨baton, mutex, -, node, list, -, values, -⟩ := h
  have hc : s.customer.between = 0 := by omega
  have hs2 : s.sem2 = 0 := by omega
  have hidle : s.producer = .malloc ∨ s.producer = .wait := Producer.idle (by omega)
  obtain ⟨-, hholds, hpushed, hstored, -⟩ := State.of_producer_idle hidle
  obtain ⟨-, hholds', hfull, howed⟩ := State.of_customer_idle hc
  rw [hholds, hholds'] at mutex
  rw [hfull, hs2, hpushed] at list
  rw [howed, hs2, hstored] at values
  refine ⟨?_, hc, by omega, hs2, mutex, list, values.trans (List.append_nil _)⟩
  rcases hidle with hp | hp
  · exact Or.inl hp
  · refine Or.inr ⟨hp, node.resolve_left ?_⟩
    rw [hp]
    decide

theorem Emptied.alternating (h : Emptied s) : Alternating s := by
  obtain ⟨hbetween, hholds, hpushed, hstored, hhead⟩ :=
    State.of_producer_idle (h.producer.imp_right And.left)
  obtain ⟨halive, hholds', hfull, howed⟩ := State.of_customer_idle h.customer
  rw [h.sem2, hpushed] at hfull
  rw [h.sem2, hstored] at howed
  refine ⟨?_, ?_, fun _ ↦ h.sem1, h.producer.imp_right And.right, ?_, ?_, ?_, halive⟩
  · rw [h.sem1, h.sem2, hbetween, h.customer]
  · rw [hholds, hholds']
    exact h.mutex
  · rw [hfull]
    exact h.list
  · rw [hfull]
    rintro (hf | hp)
    · cases hf
    · exact absurd hp hhead
  · rw [howed]
    exact h.values.trans (List.append_nil _).symm

theorem Alternating.producerTurn (h : Alternating s) (hp : s.producer = p) (hb : p.between = 1) :
    ProducerTurn p s := by
  obtain ⟨baton, mutex, -, node, list, tail, values, -⟩ := h
  rw [hp, hb] at baton
  have hc : s.customer.between = 0 := by omega
  have hs2 : s.sem2 = 0 := by omega
  have hne : ¬s.producer = .malloc := by
    rintro hmalloc
    rw [← hp, hmalloc] at hb
    cases hb
  obtain ⟨-, hholds, hfull, howed⟩ := State.of_customer_idle hc
  rw [hp, hholds] at mutex
  rw [hs2, hp] at hfull howed
  rw [hfull] at list tail
  rw [hp] at tail
  rw [howed] at values
  exact ⟨hp, hc, by omega, hs2, mutex, node.resolve_left hne, list, tail, values⟩

theorem ProducerTurn.alternating (h : ProducerTurn p s) (hb : p.between = 1) : Alternating s := by
  obtain ⟨halive, hholds, hfull, howed⟩ := State.of_customer_idle h.customer
  rw [h.sem2, h.producer] at hfull howed
  refine ⟨?_, ?_, ?_, Or.inr h.node, ?_, ?_, ?_, halive⟩
  · rw [h.sem1, h.sem2, h.producer, hb, h.customer]
  · rw [h.producer, hholds]
    exact h.mutex
  · rw [h.producer]
    rintro rfl
    cases hb
  · rw [hfull]
    exact h.list
  · rw [hfull, h.producer]
    exact h.tail
  · rw [howed]
    exact h.values

theorem Alternating.filled (h : Alternating s) (hs : 0 < s.sem2) : Filled s := by
  obtain ⟨baton, mutex, fresh, node, list, tail, values, -⟩ := h
  have hc : s.customer.between = 0 := by omega
  have hne : ¬s.producer = .malloc := by
    intro hp
    have := fresh hp
    omega
  have hp : s.producer = .wait := (Producer.idle (by omega)).resolve_left hne
  obtain ⟨-, hholds, hfull, howed⟩ := State.of_customer_idle hc
  rw [decide_eq_true hs] at hfull howed
  rw [hp, hholds] at mutex
  rw [hfull] at list tail
  rw [howed] at values
  exact ⟨hp, hc, by omega, by omega, mutex, node.resolve_left hne, list, tail (Or.inl rfl), values⟩

theorem Filled.alternating (h : Filled s) : Alternating s := by
  obtain ⟨halive, hholds, hfull, howed⟩ := State.of_customer_idle h.customer
  rw [h.sem2] at hfull howed
  refine ⟨?_, ?_, ?_, Or.inr h.node, ?_, fun _ ↦ h.tail, ?_, halive⟩
  · rw [h.sem1, h.sem2, h.producer, h.customer]
    rfl
  · rw [h.producer, hholds]
    exact h.mutex
  · rw [h.producer]
    rintro hwait
    cases hwait
  · rw [hfull]
    exact h.list
  · rw [howed]
    exact h.values

theorem Alternating.customerTurn (h : Alternating s) (hc : s.customer = c) (hb : c.between = 1) :
    CustomerTurn c s := by
  obtain ⟨baton, mutex, fresh, node, list, tail, values, -⟩ := h
  rw [hc, hb] at baton
  have hne : ¬s.producer = .malloc := by
    intro hp
    have := fresh hp
    omega
  have hs2 : s.sem2 = 0 := by omega
  have hp : s.producer = .wait := (Producer.idle (by omega)).resolve_left hne
  rw [hp, hc] at mutex
  rw [State.full, hs2, hp, hc] at list tail
  rw [State.owed, hs2, hp, hc] at values
  exact ⟨hp, hc, by omega, hs2, mutex, node.resolve_left hne, list, fun hu ↦ tail (Or.inl hu),
    values⟩

theorem CustomerTurn.alternating (h : CustomerTurn c s) (hb : c.between = 1) (hc : c ≠ .crashed) :
    Alternating s := by
  have hfull : s.full = c.unlinking := by
    rw [State.full, h.sem2, h.producer, h.customer]
    rfl
  have howed : s.owed = c.printing := by
    rw [State.owed, h.sem2, h.producer, h.customer]
    rfl
  refine ⟨?_, ?_, ?_, Or.inr h.node, ?_, ?_, ?_, ?_⟩
  · rw [h.sem1, h.sem2, h.producer, h.customer, hb]
    rfl
  · rw [h.producer, h.customer]
    exact h.mutex
  · rw [h.producer]
    rintro hwait
    cases hwait
  · rw [hfull]
    exact h.list
  · rw [hfull, h.producer]
    rintro (hu | hhead)
    · exact h.tail hu
    · cases hhead
  · rw [howed]
    exact h.values
  · rw [h.customer]
    exact hc

/-! ## What is done in a turn -/

/-- The producer takes the baton out of `sem1`. -/
theorem Emptied.waitProducer (h : Emptied s) (hp : s.producer = .wait) :
    ProducerTurn .lock { s with producer := .lock, sem1 := s.sem1 - 1 } := by
  have hnode : ∃ n, s.newNode = some n := by
    refine And.right (h.producer.resolve_left ?_)
    rw [hp]
    decide
  have hsem1 : s.sem1 - 1 = 0 := by rw [h.sem1]
  exact ⟨rfl, h.customer, hsem1, h.sem2, h.mutex, hnode, h.list, nofun,
    h.values.trans (List.append_nil _).symm⟩

theorem ProducerTurn.postProducer (h : ProducerTurn .post s) :
    Filled { s with producer := .wait, sem2 := s.sem2 + 1 } :=
  ⟨rfl, h.customer, h.sem1, congrArg (· + 1) h.sem2, h.mutex, h.node, h.list, h.tail (Or.inl rfl),
    h.values⟩

/-- The customer takes the baton out of `sem2`. -/
theorem Filled.waitCustomer (h : Filled s) :
    CustomerTurn .lock { s with customer := .lock, sem2 := s.sem2 - 1 } := by
  have hsem2 : s.sem2 - 1 = 0 := by rw [h.sem2]
  exact ⟨h.producer, rfl, h.sem1, hsem2, h.mutex, h.node, h.list, fun _ ↦ h.tail, h.values⟩

/-- He finds the node. -/
theorem CustomerTurn.head_ne (h : CustomerTurn c s) (hc : c.unlinking = true) :
    s.head ≠ none := by
  obtain ⟨n, hn⟩ := h.node
  rw [h.list, if_pos hc, hn]
  exact Option.some_ne_none n

theorem CustomerTurn.postCustomer (h : CustomerTurn .post s) :
    Emptied { s with customer := .wait, sem1 := s.sem1 + 1 } :=
  ⟨Or.inr ⟨h.producer, h.node⟩, rfl, congrArg (· + 1) h.sem1, h.sem2, h.mutex, h.list,
    h.values.trans (List.append_nil _)⟩

end

section

variable {s : State κ} {n : κ}

theorem ProducerTurn.setData (h : ProducerTurn .data s) (hn : s.newNode = some n) (value : ℤ) :
    ProducerTurn .next { s.touch n with
      producer := .next
      data := Function.update s.data n value
      produced := s.produced ++ [value] } := by
  have hvalues : s.produced = s.printed := h.values.trans (List.append_nil _)
  refine { h with producer := rfl, tail := nofun, values := ?_ }
  simp only [State.touch, hn, hvalues, Producer.stored, if_true, Option.toList_some,
    List.map_singleton, Function.update_self]

/-- The node that the producer links is the last one, since the list is empty. -/
theorem ProducerTurn.setNext (h : ProducerTurn .next s) (hn : s.newNode = some n) :
    ProducerTurn .head { s.touch n with
      producer := .head
      next := Function.update s.next n s.head } := by
  have hhead : s.head = none := h.list
  refine { h with producer := rfl, tail := fun _ m hm ↦ ?_ }
  obtain rfl := Option.some_inj.mp (hn.symm.trans hm)
  exact (Function.update_self n _ _).trans hhead

/-- The list has only this node, so its value is the one that is owed. -/
theorem CustomerTurn.print (h : CustomerTurn .print s) (hn : s.head = some n) :
    CustomerTurn .unlink { s.touch n with
      customer := .unlink
      printed := s.printed ++ [s.data n] } := by
  have hnode : s.newNode = some n := h.list.symm.trans hn
  have hvalues : s.produced = s.printed ++ s.newNode.toList.map s.data := h.values
  rw [hnode] at hvalues
  exact { h with customer := rfl, values := hvalues.trans (List.append_nil _).symm }

theorem CustomerTurn.unlink (h : CustomerTurn .unlink s) (hn : s.head = some n) :
    CustomerTurn .free { s.touch n with customer := .free, head := s.next n } := by
  have hnext : s.next n = none := h.tail rfl n (h.list.symm.trans hn)
  exact { h with customer := rfl, list := hnext, tail := nofun }

end

theorem Alternating.step {s t : State κ} {a : Label κ} (h : Alternating s)
    (hst : step s a = some t) : Alternating t := by
  cases a with
  | malloc n =>
    -- the node changes only while `sem1` keeps the baton, so the list is empty
    obtain ⟨hp, rfl⟩ := guarded_eq_some.mp hst
    have hone : 0 < s.sem1 := by
      rw [h.fresh hp]
      exact Nat.one_pos
    have turn := h.emptied hone
    exact Emptied.alternating { turn with producer := Or.inr ⟨rfl, n, rfl⟩ }
  | waitProducer =>
    obtain ⟨⟨hp, hs⟩, rfl⟩ := guarded_eq_some.mp hst
    have turn := (h.emptied hs).waitProducer hp
    exact turn.alternating rfl
  | lockProducer =>
    obtain ⟨⟨hp, -⟩, rfl⟩ := guarded_eq_some.mp hst
    have turn := h.producerTurn hp rfl
    exact ProducerTurn.alternating (p := .data)
      { turn with producer := rfl, mutex := rfl, tail := nofun } rfl
  | setData n value =>
    obtain ⟨⟨hp, hn⟩, rfl⟩ := guarded_eq_some.mp hst
    have turn := h.producerTurn hp rfl
    exact (turn.setData hn value).alternating rfl
  | setNext n =>
    obtain ⟨⟨hp, hn⟩, rfl⟩ := guarded_eq_some.mp hst
    have turn := h.producerTurn hp rfl
    exact (turn.setNext hn).alternating rfl
  | setHead =>
    obtain ⟨hp, rfl⟩ := guarded_eq_some.mp hst
    have turn := h.producerTurn hp rfl
    exact ProducerTurn.alternating (p := .print)
      { turn with producer := rfl, list := rfl, tail := fun _ ↦ turn.tail (Or.inr rfl) } rfl
  | printProducer n =>
    obtain ⟨⟨hp, -⟩, rfl⟩ := guarded_eq_some.mp hst
    have turn := h.producerTurn hp rfl
    exact ProducerTurn.alternating (p := .unlock)
      { turn with producer := rfl, tail := fun _ ↦ turn.tail (Or.inl rfl) } rfl
  | unlockProducer =>
    obtain ⟨hp, rfl⟩ := guarded_eq_some.mp hst
    have turn := h.producerTurn hp rfl
    exact ProducerTurn.alternating (p := .post)
      { turn with producer := rfl, mutex := rfl, tail := fun _ ↦ turn.tail (Or.inl rfl) } rfl
  | postProducer =>
    obtain ⟨hp, rfl⟩ := guarded_eq_some.mp hst
    have turn := h.producerTurn hp rfl
    exact turn.postProducer.alternating
  | readHead =>
    -- nothing is said of `tmp`
    obtain ⟨hc, rfl⟩ := guarded_eq_some.mp hst
    obtain ⟨baton, mutex, fresh, node, list, tail, values, -⟩ := h
    rw [hc] at baton mutex
    rw [State.full, hc] at list tail
    rw [State.owed, hc] at values
    exact ⟨baton, mutex, fresh, node, list, tail, values, Customer.noConfusion⟩
  | waitCustomer =>
    -- from here to `postCustomer` the producer stands at its `sem_wait`
    obtain ⟨⟨-, hs⟩, rfl⟩ := guarded_eq_some.mp hst
    have turn := (h.filled hs).waitCustomer
    exact turn.alternating rfl (by decide)
  | lockCustomer =>
    obtain ⟨⟨hc, -⟩, rfl⟩ := guarded_eq_some.mp hst
    have turn := h.customerTurn hc rfl
    exact CustomerTurn.alternating (c := .print) { turn with customer := rfl, mutex := rfl } rfl
      (by decide)
  | print n =>
    obtain ⟨⟨hc, hn⟩, rfl⟩ := guarded_eq_some.mp hst
    have turn := h.customerTurn hc rfl
    exact (turn.print hn).alternating rfl (by decide)
  | unlink n =>
    obtain ⟨⟨hc, hn⟩, rfl⟩ := guarded_eq_some.mp hst
    have turn := h.customerTurn hc rfl
    exact (turn.unlink hn).alternating rfl (by decide)
  | crash =>
    -- the list is not empty
    obtain ⟨⟨hc, hhead⟩, rfl⟩ := guarded_eq_some.mp hst
    rcases hc with hc | hc
    · exact absurd hhead ((h.customerTurn hc rfl).head_ne rfl)
    · exact absurd hhead ((h.customerTurn hc rfl).head_ne rfl)
  | free =>
    obtain ⟨hc, rfl⟩ := guarded_eq_some.mp hst
    have turn := h.customerTurn hc rfl
    exact CustomerTurn.alternating (c := .unlock) { turn with customer := rfl, tail := nofun } rfl
      (by decide)
  | unlockCustomer =>
    obtain ⟨hc, rfl⟩ := guarded_eq_some.mp hst
    have turn := h.customerTurn hc rfl
    exact CustomerTurn.alternating (c := .post)
      { turn with customer := rfl, mutex := rfl, tail := nofun } rfl (by decide)
  | postCustomer =>
    obtain ⟨hc, rfl⟩ := guarded_eq_some.mp hst
    have turn := h.customerTurn hc rfl
    exact turn.postCustomer.alternating

theorem alternating_of_reachable {s : State κ} (h : Reachable s) : Alternating s := by
  obtain ⟨data, next, labels, hrun⟩ := h
  exact invariant_of_run (fun s a t hs hst ↦ hs.step hst) (alternating_init data next) hrun

omit [DecidableEq κ] in
/-- The list at `head` is empty or the one node. -/
theorem Alternating.linked {s : State κ} (h : Alternating s) :
    ∃ l, Chain.Linked s.next s.head l ∧ l.length ≤ 1 ∧ (s.customer.unlinking = true → l ≠ []) := by
  by_cases hfull : s.full = true
  · have hhead : s.head = s.newNode := by rw [h.list, if_pos hfull]
    cases hnode : s.newNode with
    | none =>
      refine ⟨[], by rw [hhead, hnode]; rfl, Nat.zero_le 1, fun hunlink ↦ ?_⟩
      have turn := h.customerTurn rfl (Customer.between_of_unlinking hunlink)
      exact absurd (hhead.trans hnode) (turn.head_ne hunlink)
    | some n =>
      have htail : s.next n = none := h.tail (Or.inl hfull) n hnode
      exact ⟨[n], ⟨by rw [hhead, hnode], htail⟩, le_refl 1, fun _ ↦ List.cons_ne_nil n []⟩
  · refine ⟨[], by rw [h.list, if_neg hfull]; rfl, Nat.zero_le 1, fun hunlink ↦ ?_⟩
    rw [State.full, hunlink, Bool.or_true] at hfull
    exact absurd rfl hfull

/-- **The hand-off is a strict alternation**, after any run of the two threads. -/
theorem handOff_alternates {data : κ → ℤ} {next : κ → Option κ} {labels : List (Label κ)}
    {s : State κ} (hrun : run step (init data next) labels = some s) :
    s.sem1 + s.sem2 + s.producer.between + s.customer.between = 1 ∧
    (∃ l, Chain.Linked s.next s.head l ∧ l.length ≤ 1 ∧
      (s.customer = .print ∨ s.customer = .unlink → l ≠ [])) ∧
    s.customer ≠ .crashed ∧
    s.printed <+: s.produced ∧ s.produced.length ≤ s.printed.length + 1 := by
  have h := alternating_of_reachable ⟨data, next, labels, hrun⟩
  refine ⟨h.baton, ?_, h.alive, ?_, ?_⟩
  · obtain ⟨l, hlinked, hlen, hne⟩ := h.linked
    refine ⟨l, hlinked, hlen, fun hc ↦ hne ?_⟩
    rcases hc with hc | hc <;> rw [hc] <;> rfl
  · rw [h.values]
    exact List.prefix_append _ _
  · rw [h.values, List.length_append]
    split
    · cases s.newNode <;> simp
    · simp

/-- Both threads have gone through one round, and the producer has handed over its second value. -/
def secondHandOff : List (Label ℕ) :=
  [.readHead, .malloc 0, .waitProducer, .lockProducer, .setData 0 7, .setNext 0, .setHead,
    .printProducer 0, .unlockProducer, .postProducer, .waitCustomer, .lockCustomer, .print 0,
    .unlink 0, .free, .unlockCustomer, .postCustomer, .waitProducer, .lockProducer, .setData 0 8,
    .setNext 0, .setHead, .printProducer 0, .unlockProducer, .postProducer]

/-- The second value is outstanding, and the baton lies in `sem2`. -/
theorem handOff_alternates_round :
    ∃ s, run step (init (κ := ℕ) (fun _ ↦ 0) fun _ ↦ none) secondHandOff = some s ∧
      s.produced = [7, 8] ∧ s.printed = [7] ∧ s.sem1 = 0 ∧ s.sem2 = 1 ∧
      s.sem1 + s.sem2 + s.producer.between + s.customer.between = 1 ∧
      s.printed <+: s.produced ∧ s.produced.length ≤ s.printed.length + 1 := by
  have hvalues : (run step (init (κ := ℕ) (fun _ ↦ 0) fun _ ↦ none) secondHandOff).map
      (fun s ↦ ((s.produced, s.printed), (s.sem1, s.sem2))) = some (([7, 8], [7]), (0, 1)) := rfl
  obtain ⟨s, hs, hv⟩ := Option.map_eq_some_iff.mp hvalues
  obtain ⟨⟨hproduced, hprinted⟩, hsem1, hsem2⟩ : (_ ∧ _) ∧ _ ∧ _ := by
    simpa only [Prod.mk.injEq] using hv
  have h := handOff_alternates hs
  exact ⟨s, hs, hproduced, hprinted, hsem1, hsem2, h.1, h.2.2.2⟩

/-! ## The unsynchronised read -/

/-- The step is not a `tmp = head` that finds the node. -/
def ReadsNull (s : State κ) (a : Label κ) : Prop := a = .readHead → s.head = none

instance (s : State κ) (a : Label κ) : Decidable (ReadsNull s a) :=
  inferInstanceAs (Decidable (_ → _))

/-- The customer has read no node, and frees none. -/
structure Unfreed (s : State κ) : Prop where
  /-- `tmp` is NULL. -/
  tmp : s.tmp = none
  /-- Nothing was freed. -/
  freed : s.freed = ∅
  /-- Nothing was used after it was freed. -/
  misused : s.misused = false

theorem Unfreed.step {s t : State κ} {a : Label κ} (h : Unfreed s) (hcond : ReadsNull s a)
    (hst : step s a = some t) : Unfreed t := by
  obtain ⟨htmp, hfreed, hmisused⟩ := h
  cases a with
  | readHead =>
    obtain ⟨-, rfl⟩ := guarded_eq_some.mp hst
    exact ⟨hcond rfl, hfreed, hmisused⟩
  | _ =>
    obtain ⟨-, rfl⟩ := guarded_eq_some.mp hst
    constructor <;> simp [State.touch, State.freeTmp, htmp, hfreed, hmisused]

/-- The customer has the node in `tmp` and will free it. -/
structure Doomed (s : State κ) (n : κ) : Prop where
  /-- He has read it. -/
  tmp : s.tmp = some n
  /-- It is the producer's only one. -/
  newNode : s.newNode = some n
  /-- It is in the list. -/
  head : s.head = some n
  /-- He is about to enter his loop. -/
  customer : s.customer = .wait

/-- Once the node is handed over, he frees it and the producer writes into it. -/
theorem Doomed.misused_of_posted {s : State κ} {n : κ} (h : Doomed s n) (hp : s.producer = .wait)
    (hs : 0 < s.sem2) (hm : s.mutex = none) :
    ∃ labels t, run step s labels = some t ∧ t.misused = true := by
  refine ⟨[.waitCustomer, .lockCustomer, .print n, .unlink n, .free, .unlockCustomer,
    .postCustomer, .waitProducer, .lockProducer, .setData n 0], _,
    run_cons_of (guarded_of ⟨h.customer, hs⟩ _) <| run_cons_of (guarded_of ⟨rfl, hm⟩ _) <|
    run_cons_of (guarded_of ⟨rfl, h.head⟩ _) <| run_cons_of (guarded_of ⟨rfl, h.head⟩ _) <|
    run_cons_of (guarded_of rfl _) <| run_cons_of (guarded_of rfl _) <|
    run_cons_of (guarded_of rfl _) <| run_cons_of (guarded_of ⟨hp, Nat.succ_pos _⟩ _) <|
    run_cons_of (guarded_of ⟨rfl, rfl⟩ _) <| run_cons_of (guarded_of ⟨rfl, h.newNode⟩ _) <|
    run_nil _, ?_⟩
  simp [State.touch, State.freeTmp, h.tmp]

theorem Doomed.misused_of_post {s : State κ} {n : κ} (h : Doomed s n) (hp : s.producer = .post)
    (hm : s.mutex = none) : ∃ labels t, run step s labels = some t ∧ t.misused = true := by
  obtain ⟨labels, t, hrun, ht⟩ := Doomed.misused_of_posted
    (s := { s with producer := .wait, sem2 := s.sem2 + 1 })
    ⟨h.tmp, h.newNode, h.head, h.customer⟩ rfl (Nat.succ_pos _) hm
  exact ⟨.postProducer :: labels, t, run_cons_of (guarded_of hp _) hrun, ht⟩

/-- A producer that has linked the node goes on to hand it over. -/
theorem Doomed.misused_of_pushed {s : State κ} {n : κ} (h : Doomed s n)
    (hp : s.producer.pushed = true) (hm : s.producer = .post → s.mutex = none) :
    ∃ labels t, run step s labels = some t ∧ t.misused = true := by
  obtain ⟨htmp, hnode, hhead, hc⟩ := id h
  cases hpc : s.producer with
  | post => exact h.misused_of_post hpc (hm hpc)
  | unlock =>
    obtain ⟨labels, t, hrun, ht⟩ := Doomed.misused_of_post (n := n)
      (s := { s with producer := .post, mutex := none }) ⟨htmp, hnode, hhead, hc⟩ rfl rfl
    exact ⟨.unlockProducer :: labels, t, run_cons_of (guarded_of hpc _) hrun, ht⟩
  | print =>
    obtain ⟨labels, t, hrun, ht⟩ := Doomed.misused_of_post (n := n)
      (s := { s.touch n with producer := .post, mutex := none }) ⟨htmp, hnode, hhead, hc⟩ rfl rfl
    exact ⟨.printProducer n :: .unlockProducer :: labels, t,
      run_cons_of (guarded_of ⟨hpc, hnode⟩ _) <| run_cons_of (guarded_of rfl _) hrun, ht⟩
  | _ => rw [hpc] at hp; cases hp

/-- **When memory is misused.** In no run in which the customer's initial `tmp = head` reads NULL;
and whenever that read finds the node, the schedule can go on to a use of the freed node. -/
theorem misused_only_after_late_read :
    (∀ (data : κ → ℤ) (next : κ → Option κ) (labels : List (Label κ)) (s : State κ),
      Along step ReadsNull (init data next) labels → run step (init data next) labels = some s →
        s.misused = false ∧ s.freed = ∅) ∧
    ∀ s t : State κ, Reachable s → s.head ≠ none → step s .readHead = some t →
      ∃ labels u, run step t labels = some u ∧ u.misused = true := by
  constructor
  · intro data next labels s halong hrun
    have h := invariant_of_along (fun s a t hs hcond hst ↦ hs.step hcond hst)
      (⟨rfl, rfl, rfl⟩ : Unfreed (init data next)) halong hrun
    exact ⟨h.misused, h.freed⟩
  · intro s t hs hhead hst
    have halt := alternating_of_reachable hs
    obtain ⟨n, hn⟩ := Option.ne_none_iff_exists'.mp hhead
    obtain ⟨hc, rfl⟩ := guarded_eq_some.mp hst
    have hfull : s.full = true := by
      by_contra hfull
      rw [halt.list, if_neg hfull] at hn
      cases hn
    have hnode : s.newNode = some n := by rw [← hn, halt.list, if_pos hfull]
    have hdoomed : Doomed { s with customer := .wait, tmp := s.head } n := ⟨hn, hnode, hn, rfl⟩
    have hfree : s.producer.holds = false → s.mutex = none := fun hp ↦ by
      rw [halt.mutex, hp, hc]
      rfl
    by_cases hpushed : s.producer.pushed = true
    · refine hdoomed.misused_of_pushed hpushed fun hp ↦ hfree ?_
      rw [show s.producer = .post from hp]
      rfl
    · -- the producer has posted, so the baton lies in `sem2`
      have hsem2 : 0 < s.sem2 := by
        rw [State.full, hc, Bool.eq_false_iff.mpr hpushed] at hfull
        simpa [Customer.unlinking] using hfull
      have turn := halt.filled hsem2
      exact hdoomed.misused_of_posted turn.producer hsem2 turn.mutex

/-- The customer reads `head` before there is a node, one round is played, and the producer writes
to its node again. -/
theorem not_misused_after_round :
    ∃ s, run step (init (κ := ℕ) (fun _ ↦ 0) fun _ ↦ none) secondHandOff = some s ∧
      s.misused = false ∧ s.freed = ∅ := by
  have hrun : (run step (init (κ := ℕ) (fun _ ↦ 0) fun _ ↦ none) secondHandOff).isSome = true := rfl
  obtain ⟨s, hs⟩ := Option.isSome_iff_exists.mp hrun
  exact ⟨s, hs, misused_only_after_late_read.1 _ _ _ s (by decide) hs⟩

/-- The producer links its node before the customer's `tmp = head`; the node is freed in the first
round and written in the second. -/
def lateRead : List (Label ℕ) :=
  [.malloc 0, .waitProducer, .lockProducer, .setData 0 7, .setNext 0, .setHead, .printProducer 0,
    .unlockProducer, .postProducer, .readHead, .waitCustomer, .lockCustomer, .print 0, .unlink 0,
    .free, .unlockCustomer, .postCustomer, .waitProducer, .lockProducer, .setData 0 8]

theorem misused_after_lateRead :
    ¬∀ (labels : List (Label ℕ)) (s : State ℕ),
      run step (init (fun _ ↦ 0) fun _ ↦ none) labels = some s → s.misused = false :=
  fun h ↦ absurd (h lateRead _ rfl) (by decide)

end SemaphoreSync

end CodeOnLinux
