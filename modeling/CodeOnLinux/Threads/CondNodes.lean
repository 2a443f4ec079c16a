import CodeOnLinux.Foundation.Chain
import CodeOnLinux.Foundation.Transition
import Mathlib.Data.List.Nodup
import Mathlib.Data.Int.Notation
import Mathlib.Tactic.Common

/-!
# The nodes of `cond.c`

`Cond` asks where the customer can follow the null pointer; this module asks what becomes of the
nodes. So each memory access is a step of its own here, the customer may wake up without a signal,
and `malloc` may return a cell that was freed before.

## Nodes and cells

Since cells are used again, a node is not its address. Nodes are numbered in the order of their
`malloc`, and a pointer remembers the number of the node it was made for; the program does not look
at the number. `linked`, `unlinked` and `freed` list what was done to the nodes so far, and
`misused` records an access to a node that was freed. With the numbers the question whether a node
is used after it was freed has an answer even where its cell belongs to a new node by then.

## Who a node belongs to

Between its `malloc` and its link a node belongs to the producer, between its unlink and its `free`
to the customer, and in between to the list. `Sound` is about the list: the pointers from `head` on
lead to the nodes that were linked and not unlinked, the last one first. `Pointers` is about the two
threads: which node each has in his hand, and at which of his steps. A step of one thread can touch
the part of the other only under the mutex (`Locked`), which keeps them apart.

So nothing is lost, and nothing is used after it was freed (`nodes_conserved`). This holds even in
runs in which the customer crashes, since a crash writes nothing.

## What a step can do

A step changes the cells in one of seven ways (`Heap.touch`, `Heap.allocate`, `Heap.setData`,
`Heap.setNext`, `Heap.link`, `Heap.unlink`, `Heap.free`), or leaves them and moves one thread on.
Each way has a lemma for `Sound`, and the steps that leave the cells alone have one lemma for each
thread (`Kept.of_producer`, `Kept.of_customer`).
-/

namespace CodeOnLinux

namespace CondNodes

open Transition Chain

/-! ## The program -/

inductive Thread
  | producer
  | customer
  deriving DecidableEq

/-- What the producer does next; `data`, `next` and `head` are its three stores. -/
inductive Producer
  | malloc
  | lock
  | data
  | next
  | head
  | print
  | unlock
  | signal
  deriving DecidableEq

/-- What the customer does next; `temp` is `temp = head`, and `advance` is `head = head->next`. -/
inductive Customer
  | lock
  | test
  | wait
  | waiting
  | retake
  | print
  | temp
  | advance
  | free
  | unlock
  | crashed
  deriving DecidableEq

/-- A pointer that is not null. -/
structure Ptr (κ : Type*) where
  /-- The cell. -/
  cell : κ
  /-- The node that it was made for. -/
  node : ℕ
  deriving DecidableEq

/-- The cells, and what was done with them so far. -/
structure Heap (κ : Type*) where
  /-- The `data` of each cell. -/
  data : κ → ℤ
  /-- The `next` of each cell. -/
  next : κ → Option (Ptr κ)
  /-- The node that `malloc` has handed out the cell for. -/
  owner : κ → Option ℕ
  /-- `head` -/
  head : Option (Ptr κ)
  /-- The number of the next node. -/
  made : ℕ
  /-- The nodes that were linked, in order. -/
  linked : List ℕ
  /-- The nodes that were taken off, in order. -/
  unlinked : List ℕ
  /-- The nodes that were freed, in order. -/
  freed : List ℕ
  /-- A node was read, written or freed after it had been freed. -/
  misused : Bool

/-- The two threads over the cells. -/
structure State (κ : Type*) extends Heap κ where
  /-- The thread that has the mutex. -/
  mutex : Option Thread
  /-- What the producer does next. -/
  producer : Producer
  /-- `new_node` -/
  newNode : Option (Ptr κ)
  /-- What the customer does next. -/
  customer : Customer
  /-- `temp` -/
  temp : Option (Ptr κ)

inductive Label (κ : Type*)
  | malloc (c : κ)
  | lockProducer
  | setData (p : Ptr κ) (value : ℤ)
  | setNext (p : Ptr κ)
  | setHead (p : Ptr κ)
  | printProducer (p : Ptr κ)
  | unlockProducer
  | signal
  | lockCustomer
  | test
  | wait
  /-- `pthread_cond_wait` wakes up, although nobody has signalled. -/
  | spurious
  | retake
  | print (p : Ptr κ)
  /-- `head->data` or `head->next` with the null pointer in `head` -/
  | crash
  | readHead
  | advance (p : Ptr κ)
  | free
  | unlockCustomer
  deriving DecidableEq

variable {κ : Type*}

/-- Both threads at the top of their loop and an empty list; the cells hold anything. -/
def init (data : κ → ℤ) (next : κ → Option (Ptr κ)) : State κ where
  data := data
  next := next
  owner := fun _ ↦ none
  head := none
  made := 0
  linked := []
  unlinked := []
  freed := []
  misused := false
  mutex := none
  producer := .malloc
  newNode := none
  customer := .lock
  temp := none

/-- An access to a node. -/
def Heap.touch (h : Heap κ) (p : Ptr κ) : Heap κ :=
  { h with misused := h.misused || decide (p.node ∈ h.freed) }

/-- `head = new_node` -/
def Heap.link (h : Heap κ) (p : Ptr κ) : Heap κ :=
  { h with head := some p, linked := h.linked ++ [p.node] }

/-- `head = head->next` -/
def Heap.unlink (h : Heap κ) (p : Ptr κ) : Heap κ :=
  { h.touch p with head := h.next p.cell, unlinked := h.unlinked ++ [p.node] }

variable [DecidableEq κ]

/-- `new_node = malloc(..)`, with a cell that is free. -/
def Heap.allocate (h : Heap κ) (c : κ) : Heap κ :=
  { h with owner := Function.update h.owner c (some h.made), made := h.made + 1 }

def Heap.setData (h : Heap κ) (p : Ptr κ) (value : ℤ) : Heap κ :=
  { h.touch p with data := Function.update h.data p.cell value }

/-- `new_node->next = head` -/
def Heap.setNext (h : Heap κ) (p : Ptr κ) : Heap κ :=
  { h.touch p with next := Function.update h.next p.cell h.head }

/-- `free`, which ignores the null pointer. -/
def Heap.free (h : Heap κ) : Option (Ptr κ) → Heap κ
  | none => h
  | some p =>
    { h.touch p with
      owner := Function.update h.owner p.cell none
      freed := h.freed ++ [p.node] }

def step (s : State κ) : Label κ → Option (State κ)
  | .malloc c =>
    guarded (s.producer = .malloc ∧ s.owner c = none)
      { s with
        toHeap := s.allocate c
        producer := .lock
        newNode := some ⟨c, s.made⟩ }
  | .lockProducer =>
    guarded (s.producer = .lock ∧ s.mutex = none)
      { s with producer := .data, mutex := some .producer }
  | .setData p value =>
    guarded (s.producer = .data ∧ s.newNode = some p)
      { s with toHeap := s.setData p value, producer := .next }
  | .setNext p =>
    guarded (s.producer = .next ∧ s.newNode = some p)
      { s with toHeap := s.setNext p, producer := .head }
  | .setHead p =>
    guarded (s.producer = .head ∧ s.newNode = some p)
      { s with toHeap := s.link p, producer := .print }
  | .printProducer p =>
    guarded (s.producer = .print ∧ s.newNode = some p)
      { s with toHeap := s.touch p, producer := .unlock }
  | .unlockProducer =>
    guarded (s.producer = .unlock) { s with producer := .signal, mutex := none }
  | .signal =>
    -- it unblocks the customer if he waits, and is lost otherwise
    guarded (s.producer = .signal)
      { s with
        producer := .malloc
        customer := if s.customer = .waiting then .retake else s.customer }
  | .lockCustomer =>
    guarded (s.customer = .lock ∧ s.mutex = none)
      { s with customer := .test, mutex := some .customer }
  | .test =>
    guarded (s.customer = .test)
      { s with customer := if s.head = none then .wait else .print }
  | .wait => guarded (s.customer = .wait) { s with customer := .waiting, mutex := none }
  | .spurious => guarded (s.customer = .waiting) { s with customer := .retake }
  | .retake =>
    guarded (s.customer = .retake ∧ s.mutex = none)
      { s with customer := .print, mutex := some .customer }
  | .print p =>
    guarded (s.customer = .print ∧ s.head = some p)
      { s with toHeap := s.touch p, customer := .temp }
  | .crash =>
    guarded ((s.customer = .print ∨ s.customer = .advance) ∧ s.head = none)
      { s with customer := .crashed }
  | .readHead => guarded (s.customer = .temp) { s with customer := .advance, temp := s.head }
  | .advance p =>
    guarded (s.customer = .advance ∧ s.head = some p)
      { s with toHeap := s.unlink p, customer := .free }
  | .free =>
    guarded (s.customer = .free) { s with toHeap := s.toHeap.free s.temp, customer := .unlock }
  | .unlockCustomer =>
    guarded (s.customer = .unlock) { s with customer := .lock, mutex := none }

/-! ## The mutex -/

def Producer.holds : Producer → Bool
  | .data | .next | .head | .print | .unlock => true
  | _ => false

def Customer.holds : Customer → Bool
  | .test | .wait | .print | .temp | .advance | .free | .unlock | .crashed => true
  | _ => false

/-- The mutex is held by the thread that is in its critical section. -/
structure Locked (s : State κ) : Prop where
  /-- The producer has it in his. -/
  producer : s.mutex = some .producer ↔ s.producer.holds = true
  /-- The customer has it in his. -/
  customer : s.mutex = some .customer ↔ s.customer.holds = true

section

omit [DecidableEq κ]

theorem locked_init (data : κ → ℤ) (next : κ → Option (Ptr κ)) : Locked (init data next) where
  producer := by simp [init, Producer.holds]
  customer := by simp [init, Customer.holds]

variable {s t : State κ}

theorem Locked.not_both (h : Locked s) (hp : s.producer.holds = true)
    (hc : s.customer.holds = true) : False := by
  have hmutex := (h.producer.mpr hp).symm.trans (h.customer.mpr hc)
  cases hmutex

/-- A step that neither enters nor leaves a critical section. -/
theorem Locked.of_eq (h : Locked s) (hmutex : t.mutex = s.mutex)
    (hp : t.producer.holds = s.producer.holds) (hc : t.customer.holds = s.customer.holds) :
    Locked t where
  producer := by rw [hmutex, hp, h.producer]
  customer := by rw [hmutex, hc, h.customer]

theorem Locked.of_none (h : Locked s) (hfree : s.mutex = none) :
    s.producer.holds = false ∧ s.customer.holds = false := by
  constructor
  · refine eq_false_of_ne_true fun hp ↦ ?_
    have hmutex := hfree.symm.trans (h.producer.mpr hp)
    cases hmutex
  · refine eq_false_of_ne_true fun hc ↦ ?_
    have hmutex := hfree.symm.trans (h.customer.mpr hc)
    cases hmutex

theorem locked_of_producer (hmutex : t.mutex = some .producer) (hp : t.producer.holds = true)
    (hc : t.customer.holds = false) : Locked t where
  producer := iff_of_true hmutex hp
  customer := by rw [hmutex, hc]; simp

theorem locked_of_customer (hmutex : t.mutex = some .customer) (hp : t.producer.holds = false)
    (hc : t.customer.holds = true) : Locked t where
  producer := by rw [hmutex, hp]; simp
  customer := iff_of_true hmutex hc

theorem locked_of_none (hmutex : t.mutex = none) (hp : t.producer.holds = false)
    (hc : t.customer.holds = false) : Locked t where
  producer := by rw [hmutex, hp]; simp
  customer := by rw [hmutex, hc]; simp

/-- While one thread is in its critical section, the other is not. -/
theorem Locked.customer_out (h : Locked s) (hp : s.producer.holds = true) :
    s.customer.holds = false := eq_false_of_ne_true fun hc ↦ h.not_both hp hc

theorem Locked.producer_out (h : Locked s) (hc : s.customer.holds = true) :
    s.producer.holds = false := eq_false_of_ne_true fun hp ↦ h.not_both hp hc

end

theorem Locked.step {s t : State κ} {a : Label κ} (h : Locked s) (hst : step s a = some t) :
    Locked t := by
  cases a with
  | malloc c =>
    obtain ⟨⟨hpc, -⟩, rfl⟩ := guarded_eq_some.mp hst
    exact h.of_eq rfl (by rw [hpc]; rfl) rfl
  | lockProducer =>
    obtain ⟨⟨hpc, hfree⟩, rfl⟩ := guarded_eq_some.mp hst
    exact locked_of_producer rfl rfl (h.of_none hfree).2
  | setData p value =>
    obtain ⟨⟨hpc, -⟩, rfl⟩ := guarded_eq_some.mp hst
    exact h.of_eq rfl (by rw [hpc]; rfl) rfl
  | setNext p =>
    obtain ⟨⟨hpc, -⟩, rfl⟩ := guarded_eq_some.mp hst
    exact h.of_eq rfl (by rw [hpc]; rfl) rfl
  | setHead p =>
    obtain ⟨⟨hpc, -⟩, rfl⟩ := guarded_eq_some.mp hst
    exact h.of_eq rfl (by rw [hpc]; rfl) rfl
  | printProducer p =>
    obtain ⟨⟨hpc, -⟩, rfl⟩ := guarded_eq_some.mp hst
    exact h.of_eq rfl (by rw [hpc]; rfl) rfl
  | unlockProducer =>
    obtain ⟨hpc, rfl⟩ := guarded_eq_some.mp hst
    exact locked_of_none rfl rfl (h.customer_out (by rw [hpc]; rfl))
  | signal =>
    -- a customer that is woken does not hold the mutex yet
    obtain ⟨hpc, rfl⟩ := guarded_eq_some.mp hst
    refine h.of_eq rfl (by rw [hpc]; rfl) ?_
    by_cases hwaiting : s.customer = .waiting
    · simp only [if_pos hwaiting]
      rw [hwaiting]
      rfl
    · simp only [if_neg hwaiting]
  | lockCustomer =>
    obtain ⟨⟨hpc, hfree⟩, rfl⟩ := guarded_eq_some.mp hst
    exact locked_of_customer rfl (h.of_none hfree).1 rfl
  | test =>
    obtain ⟨hpc, rfl⟩ := guarded_eq_some.mp hst
    refine h.of_eq rfl rfl ?_
    rw [hpc]
    dsimp only
    split <;> rfl
  | wait =>
    obtain ⟨hpc, rfl⟩ := guarded_eq_some.mp hst
    exact locked_of_none rfl (h.producer_out (by rw [hpc]; rfl)) rfl
  | spurious =>
    obtain ⟨hpc, rfl⟩ := guarded_eq_some.mp hst
    exact h.of_eq rfl rfl (by rw [hpc]; rfl)
  | retake =>
    obtain ⟨⟨hpc, hfree⟩, rfl⟩ := guarded_eq_some.mp hst
    exact locked_of_customer rfl (h.of_none hfree).1 rfl
  | print p =>
    obtain ⟨⟨hpc, -⟩, rfl⟩ := guarded_eq_some.mp hst
    exact h.of_eq rfl rfl (by rw [hpc]; rfl)
  | crash =>
    obtain ⟨⟨hpc, -⟩, rfl⟩ := guarded_eq_some.mp hst
    exact h.of_eq rfl rfl (by rcases hpc with hpc | hpc <;> rw [hpc] <;> rfl)
  | readHead =>
    obtain ⟨hpc, rfl⟩ := guarded_eq_some.mp hst
    exact h.of_eq rfl rfl (by rw [hpc]; rfl)
  | advance p =>
    obtain ⟨⟨hpc, -⟩, rfl⟩ := guarded_eq_some.mp hst
    exact h.of_eq rfl rfl (by rw [hpc]; rfl)
  | free =>
    obtain ⟨hpc, rfl⟩ := guarded_eq_some.mp hst
    exact h.of_eq rfl rfl (by rw [hpc]; rfl)
  | unlockCustomer =>
    obtain ⟨hpc, rfl⟩ := guarded_eq_some.mp hst
    exact locked_of_none rfl (h.producer_out (by rw [hpc]; rfl)) rfl

/-! ## The list and the nodes -/

/-- `chain` are the pointers from `head` to null, and the nodes are treated as they should be. -/
structure Sound (h : Heap κ) (chain : List (Ptr κ)) : Prop where
  /-- The links are those of the chain. -/
  chained : Linked (fun p ↦ h.next p.cell) h.head chain
  /-- Its nodes are those that were linked and not unlinked, the last one produced first. -/
  nodes : chain.map Ptr.node = h.linked.reverse.filter (· ∉ h.unlinked)
  /-- Each lies in the cell that was handed out for it. -/
  occupied : ∀ p ∈ chain, h.owner p.cell = some p.node
  /-- The nodes were linked in the order of their numbers. -/
  order : h.linked.Pairwise (· < ·)
  /-- They were handed out before. -/
  lt_made : ∀ n ∈ h.linked, n < h.made
  /-- No node is taken off twice. -/
  unlinked_nodup : h.unlinked.Nodup
  /-- Those that were taken off were linked. -/
  unlinked_subset : h.unlinked ⊆ h.linked
  /-- Those that were freed were taken off. -/
  freed_subset : h.freed ⊆ h.unlinked
  /-- None was used after it was freed. -/
  not_misused : h.misused = false

/-- A node that was handed out and is not linked yet. -/
structure Fresh (h : Heap κ) (p : Ptr κ) : Prop where
  /-- Its cell was handed out for it. -/
  occupied : h.owner p.cell = some p.node
  /-- All that are linked are older. -/
  newer : ∀ n ∈ h.linked, n < p.node
  /-- Its number was given out. -/
  lt_made : p.node < h.made

section

omit [DecidableEq κ]

variable {h : Heap κ} {chain : List (Ptr κ)} {p : Ptr κ}

theorem Heap.touch_of_notMem (hp : p.node ∉ h.freed) : h.touch p = h := by
  simp [Heap.touch, hp]

theorem Fresh.notMem_linked (hp : Fresh h p) : p.node ∉ h.linked := fun hmem ↦
  absurd (hp.newer p.node hmem) (Nat.lt_irrefl _)

theorem Sound.mem_linked (hs : Sound h chain) (hp : p ∈ chain) :
    p.node ∈ h.linked ∧ p.node ∉ h.unlinked := by
  have hmem : p.node ∈ chain.map Ptr.node := List.mem_map_of_mem hp
  rw [hs.nodes, List.mem_filter, List.mem_reverse] at hmem
  exact ⟨hmem.1, of_decide_eq_true hmem.2⟩

theorem Sound.notMem_freed (hs : Sound h chain) (hp : p ∈ chain) : p.node ∉ h.freed :=
  fun hmem ↦ (hs.mem_linked hp).2 (hs.freed_subset hmem)

theorem Fresh.notMem_freed (hp : Fresh h p) (hs : Sound h chain) : p.node ∉ h.freed :=
  fun hmem ↦ hp.notMem_linked (hs.unlinked_subset (hs.freed_subset hmem))

/-- A node that the producer still keeps to himself is in a cell that no node of the list is in. -/
theorem Fresh.cell_ne (hp : Fresh h p) (hs : Sound h chain) {q : Ptr κ} (hq : q ∈ chain) :
    q.cell ≠ p.cell := fun he ↦ by
  have hnode : q.node = p.node :=
    Option.some_inj.mp ((hs.occupied q hq).symm.trans (he ▸ hp.occupied))
  exact hp.notMem_linked (hnode ▸ (hs.mem_linked hq).1)

/-- Two pointers of the list do not share a cell. -/
theorem Sound.nodup_cells (hs : Sound h chain) : (chain.map Ptr.cell).Nodup := by
  refine List.Nodup.map_on (fun p hp q hq hcell ↦ ?_) hs.chained.nodup
  have hnode : p.node = q.node :=
    Option.some_inj.mp ((hs.occupied p hp).symm.trans (hcell ▸ hs.occupied q hq))
  cases p
  cases q
  exact congrArg₂ Ptr.mk hcell hnode

theorem sound_init (data : κ → ℤ) (next : κ → Option (Ptr κ)) :
    Sound (init data next).toHeap [] where
  chained := rfl
  nodes := rfl
  occupied := fun _ hp ↦ absurd hp List.not_mem_nil
  order := List.Pairwise.nil
  lt_made := fun _ hn ↦ absurd hn List.not_mem_nil
  unlinked_nodup := List.nodup_nil
  unlinked_subset := List.nil_subset _
  freed_subset := List.nil_subset _
  not_misused := rfl

/-- The node becomes the first of the list. -/
theorem Sound.link (hs : Sound h chain) (hp : Fresh h p)
    (hnext : h.next p.cell = h.head) : Sound (h.link p) (p :: chain) where
  chained := by
    have hrest : Linked (fun q ↦ h.next q.cell) (h.next p.cell) chain := by
      rw [hnext]
      exact hs.chained
    exact ⟨rfl, hrest⟩
  nodes := by
    have hnew : p.node ∉ h.unlinked := fun hmem ↦ hp.notMem_linked (hs.unlinked_subset hmem)
    rw [List.map_cons, hs.nodes, Heap.link, List.reverse_append, List.reverse_singleton,
      List.singleton_append, List.filter_cons_of_pos (by simpa using hnew)]
  occupied := List.forall_mem_cons.mpr ⟨hp.occupied, hs.occupied⟩
  order := by
    refine List.pairwise_append.mpr ⟨hs.order, List.pairwise_singleton _ _, fun n hn m hm ↦ ?_⟩
    rw [List.mem_singleton.mp hm]
    exact hp.newer n hn
  lt_made := fun n hn ↦ by
    rcases List.mem_append.mp hn with hn | hn
    · exact hs.lt_made n hn
    · exact List.mem_singleton.mp hn ▸ hp.lt_made
  unlinked_nodup := hs.unlinked_nodup
  unlinked_subset := fun n hn ↦ List.mem_append_left _ (hs.unlinked_subset hn)
  freed_subset := hs.freed_subset
  not_misused := hs.not_misused

/-- The first node leaves the list. -/
theorem Sound.unlink (hs : Sound h (p :: chain)) : Sound (h.unlink p) chain := by
  have hmem : p ∈ p :: chain := List.mem_cons_self
  have hnodup : ((p :: chain).map Ptr.node).Nodup := by
    rw [hs.nodes]
    exact (List.nodup_reverse.mpr (hs.order.imp Nat.ne_of_lt)).filter _
  rw [Heap.unlink, Heap.touch_of_notMem (hs.notMem_freed hmem)]
  refine ⟨hs.chained.2, ?_, fun q hq ↦ hs.occupied q (List.mem_cons_of_mem p hq), hs.order,
    hs.lt_made, ?_, ?_, fun n hn ↦ List.mem_append_left _ (hs.freed_subset hn), hs.not_misused⟩
  · have hsplit : h.linked.reverse.filter (· ∉ h.unlinked ++ [p.node]) =
        (h.linked.reverse.filter (· ∉ h.unlinked)).filter (· ≠ p.node) := by
      rw [List.filter_filter]
      refine List.filter_congr fun n _ ↦ ?_
      simp [not_or, and_comm]
    have hrest : (chain.map Ptr.node).filter (· ≠ p.node) = chain.map Ptr.node := by
      refine List.filter_eq_self.mpr fun n hn ↦ decide_eq_true fun he ↦ ?_
      exact (List.nodup_cons.mp hnodup).1 (he ▸ hn)
    rw [hsplit, ← hs.nodes, List.map_cons, List.filter_cons_of_neg (by simp), hrest]
  · refine List.nodup_append.mpr ⟨hs.unlinked_nodup, List.nodup_singleton _, fun n hn m hm he ↦ ?_⟩
    rw [List.mem_singleton.mp hm] at he
    exact (hs.mem_linked hmem).2 (he ▸ hn)
  · refine List.append_subset.mpr ⟨hs.unlinked_subset, fun n hn ↦ ?_⟩
    rw [List.mem_singleton.mp hn]
    exact (hs.mem_linked hmem).1

end

section

variable {h : Heap κ} {chain : List (Ptr κ)} {p : Ptr κ}

/-- `malloc` returns a cell that is in no list. -/
theorem Sound.allocate (hs : Sound h chain) {c : κ} (hc : h.owner c = none) :
    Sound (h.allocate c) chain where
  chained := hs.chained
  nodes := hs.nodes
  occupied := fun q hq ↦ by
    have hne : q.cell ≠ c := fun he ↦ by
      have howner := hs.occupied q hq
      rw [he, hc] at howner
      cases howner
    exact (Function.update_of_ne hne _ _).trans (hs.occupied q hq)
  order := hs.order
  lt_made := fun n hn ↦ Nat.lt_succ_of_lt (hs.lt_made n hn)
  unlinked_nodup := hs.unlinked_nodup
  unlinked_subset := hs.unlinked_subset
  freed_subset := hs.freed_subset
  not_misused := hs.not_misused

theorem Sound.setData (hs : Sound h chain) (hp : Fresh h p) (value : ℤ) :
    Sound (h.setData p value) chain := by
  rw [Heap.setData, Heap.touch_of_notMem (hp.notMem_freed hs)]
  exact ⟨hs.chained, hs.nodes, hs.occupied, hs.order, hs.lt_made, hs.unlinked_nodup,
    hs.unlinked_subset, hs.freed_subset, hs.not_misused⟩

theorem Sound.setNext (hs : Sound h chain) (hp : Fresh h p) : Sound (h.setNext p) chain := by
  rw [Heap.setNext, Heap.touch_of_notMem (hp.notMem_freed hs)]
  refine ⟨hs.chained.congr fun q hq ↦ ?_, hs.nodes, hs.occupied, hs.order, hs.lt_made,
    hs.unlinked_nodup, hs.unlinked_subset, hs.freed_subset, hs.not_misused⟩
  exact Function.update_of_ne (hp.cell_ne hs hq) _ _

/-- The node that was unlinked last is freed, and its cell is in no list. -/
theorem Sound.free (hs : Sound h chain) (howner : h.owner p.cell = some p.node)
    (howed : h.unlinked = h.freed ++ [p.node]) :
    Sound (h.free (some p)) chain ∧ (h.free (some p)).unlinked = (h.free (some p)).freed := by
  have hmem : p.node ∈ h.unlinked := by
    rw [howed]
    exact List.mem_append_right _ (List.mem_singleton_self _)
  have hfreed : p.node ∉ h.freed := by
    have hnodup := hs.unlinked_nodup
    rw [howed] at hnodup
    exact fun hin ↦ List.disjoint_of_nodup_append hnodup hin (List.mem_singleton_self _)
  rw [Heap.free, Heap.touch_of_notMem hfreed]
  refine ⟨⟨hs.chained, hs.nodes, fun q hq ↦ ?_, hs.order, hs.lt_made, hs.unlinked_nodup,
    hs.unlinked_subset, by rw [howed]; exact List.Subset.refl _, hs.not_misused⟩, howed⟩
  have hne : q.cell ≠ p.cell := fun he ↦ by
    have hnode : q.node = p.node :=
      Option.some_inj.mp ((hs.occupied q hq).symm.trans (he ▸ howner))
    exact (hs.mem_linked hq).2 (hnode ▸ hmem)
  exact (Function.update_of_ne hne _ _).trans (hs.occupied q hq)

end

/-! ## Steps -/

/-- The producer has a node that is not linked yet. -/
def Producer.keeps : Producer → Bool
  | .lock | .data | .next | .head => true
  | _ => false

/-- What the threads know of their own pointers. -/
structure Pointers (s : State κ) : Prop where
  /-- The producer's node is not linked yet. -/
  fresh : s.producer.keeps = true → ∃ p, s.newNode = some p ∧ Fresh s.toHeap p
  /-- Before the last of his stores it points to the list. -/
  hooked : s.producer = .head → ∀ p ∈ s.newNode, s.next p.cell = s.head
  /-- He prints the node at the front. -/
  shown : s.producer = .print → s.newNode = s.head
  /-- The customer takes the node at the front. -/
  caught : s.customer = .advance → s.temp = s.head
  /-- Between unlink and `free` the node is the customer's. -/
  owed : s.customer = .free →
    ∃ p, s.temp = some p ∧ s.owner p.cell = some p.node ∧ s.unlinked = s.freed ++ [p.node]
  /-- Otherwise every node that was taken off was freed. -/
  settled : s.customer ≠ .free → s.unlinked = s.freed

/-- What holds in every state. -/
structure Kept (s : State κ) (chain : List (Ptr κ)) : Prop where
  /-- The chain is sound. -/
  sound : Sound s.toHeap chain
  /-- So are the pointers of the threads. -/
  pointers : Pointers s

section

omit [DecidableEq κ]

theorem kept_init (data : κ → ℤ) (next : κ → Option (Ptr κ)) : Kept (init data next) [] where
  sound := sound_init data next
  pointers := by
    refine ⟨?_, ?_, ?_, ?_, ?_, fun _ ↦ rfl⟩ <;> simp [init, Producer.keeps]

variable {s t : State κ} {chain : List (Ptr κ)}

theorem Kept.fresh (h : Kept s chain) (hpc : s.producer.keeps = true) {p : Ptr κ}
    (hp : s.newNode = some p) : Fresh s.toHeap p := by
  obtain ⟨q, hq, hfresh⟩ := h.pointers.fresh hpc
  obtain rfl : q = p := Option.some_inj.mp (hq.symm.trans hp)
  exact hfresh

/-- The first node of the list can be used. -/
theorem Kept.touch_head (h : Kept s chain) {p : Ptr κ} (hp : s.head = some p) :
    s.touch p = s.toHeap := by
  obtain ⟨rest, rfl, -⟩ := Linked.eq_cons (hp ▸ h.sound.chained)
  exact Heap.touch_of_notMem (h.sound.notMem_freed List.mem_cons_self)

/-- A step of the producer that leaves the heap alone. -/
theorem Kept.of_producer (h : Kept s chain) (hheap : t.toHeap = s.toHeap)
    (hcustomer : t.customer = s.customer) (htemp : t.temp = s.temp) (hnew : t.newNode = s.newNode)
    (hkeeps : t.producer.keeps = true → s.producer.keeps = true) (hhead : t.producer ≠ .head)
    (hprint : t.producer ≠ .print) : Kept t chain := by
  refine ⟨hheap ▸ h.sound, fun hpc ↦ ?_, fun hpc ↦ absurd hpc hhead, fun hpc ↦ absurd hpc hprint,
    ?_, ?_, ?_⟩
  · rw [hheap, hnew]
    exact h.pointers.fresh (hkeeps hpc)
  · rw [hcustomer, htemp, hheap]
    exact h.pointers.caught
  · rw [hcustomer, htemp, hheap]
    exact h.pointers.owed
  · rw [hcustomer, hheap]
    exact h.pointers.settled

/-- A step of the customer that leaves the heap alone and does not come from, or go to, the place
where he has a node of his own. -/
theorem Kept.of_customer (h : Kept s chain) (hheap : t.toHeap = s.toHeap)
    (hproducer : t.producer = s.producer) (hnew : t.newNode = s.newNode)
    (hfree : s.customer ≠ .free) (hfree' : t.customer ≠ .free)
    (hadvance : t.customer = .advance → t.temp = t.head) : Kept t chain := by
  refine ⟨hheap ▸ h.sound, ?_, ?_, ?_, hadvance, fun hpc ↦ absurd hpc hfree', fun _ ↦ ?_⟩
  · rw [hproducer, hnew, hheap]
    exact h.pointers.fresh
  · rw [hproducer, hnew, hheap]
    exact h.pointers.hooked
  · rw [hproducer, hnew, hheap]
    exact h.pointers.shown
  · rw [hheap]
    exact h.pointers.settled hfree

/-- The customer is not in his critical section while the producer is in his, so nothing that he
knows is concerned. -/
theorem Kept.setHead (h : Kept s chain) (hlocked : Locked s) (hpc : s.producer = .head) {p : Ptr κ}
    (hp : s.newNode = some p) :
    Kept { s with toHeap := s.link p, producer := .print } (p :: chain) := by
  have hout := hlocked.customer_out (by rw [hpc]; rfl)
  have hfresh := h.fresh (by rw [hpc]; rfl) hp
  refine ⟨h.sound.link hfresh (h.pointers.hooked hpc p hp),
    fun hpc' ↦ absurd hpc' (by simp [Producer.keeps]), fun hpc' ↦ absurd hpc' (by simp),
    fun _ ↦ hp, fun hc ↦ ?_, fun hc ↦ ?_, h.pointers.settled⟩
  · rw [show s.customer = .advance from hc] at hout
    cases hout
  · rw [show s.customer = .free from hc] at hout
    cases hout

theorem Kept.advance (h : Kept s chain) (hlocked : Locked s) (hpc : s.customer = .advance)
    {p : Ptr κ} (hp : s.head = some p) :
    ∃ chain', Kept { s with toHeap := s.unlink p, customer := .free } chain' := by
  obtain ⟨rest, rfl, -⟩ := Linked.eq_cons (hp ▸ h.sound.chained)
  have hout := hlocked.producer_out (by rw [hpc]; rfl)
  have hsettled := h.pointers.settled (by rw [hpc]; simp)
  refine ⟨rest, h.sound.unlink, fun hkeeps ↦ ?_, fun hhead ↦ ?_, fun hprint ↦ ?_,
    fun hc ↦ absurd hc (by simp), fun _ ↦ ?_, fun hc ↦ absurd rfl hc⟩
  · obtain ⟨q, hq, hfresh⟩ := h.pointers.fresh hkeeps
    exact ⟨q, hq, hfresh.occupied, hfresh.newer, hfresh.lt_made⟩
  · rw [show s.producer = .head from hhead] at hout
    cases hout
  · rw [show s.producer = .print from hprint] at hout
    cases hout
  · refine ⟨p, (h.pointers.caught hpc).trans hp, h.sound.occupied p List.mem_cons_self, ?_⟩
    exact congrArg (· ++ [p.node]) hsettled

end

section

variable {s : State κ} {chain : List (Ptr κ)}

theorem Kept.malloc (h : Kept s chain) {c : κ} (hc : s.owner c = none) :
    Kept { s with
      toHeap := s.allocate c
      producer := .lock
      newNode := some ⟨c, s.made⟩ } chain := by
  refine ⟨h.sound.allocate hc, fun _ ↦ ⟨_, rfl, Function.update_self _ _ _, h.sound.lt_made,
    Nat.lt_succ_self _⟩, fun hpc ↦ absurd hpc (by simp), fun hpc ↦ absurd hpc (by simp),
    h.pointers.caught, fun hpc ↦ ?_, h.pointers.settled⟩
  obtain ⟨p, htemp, howner, howed⟩ := h.pointers.owed hpc
  have hne : p.cell ≠ c := fun he ↦ by
    rw [he, hc] at howner
    cases howner
  exact ⟨p, htemp, (Function.update_of_ne hne _ _).trans howner, howed⟩

theorem Kept.free (h : Kept s chain) (hpc : s.customer = .free) :
    Kept { s with toHeap := s.toHeap.free s.temp, customer := .unlock } chain := by
  obtain ⟨p, htemp, howner, howed⟩ := h.pointers.owed hpc
  obtain ⟨hsound, hsettled⟩ := h.sound.free howner howed
  rw [htemp]
  refine ⟨hsound, fun hkeeps ↦ ?_, h.pointers.hooked, h.pointers.shown,
    fun hc ↦ absurd hc (by simp), fun hc ↦ absurd hc (by simp), fun _ ↦ hsettled⟩
  obtain ⟨q, hq, hfresh⟩ := h.pointers.fresh hkeeps
  refine ⟨q, hq, ?_, hfresh.newer, hfresh.lt_made⟩
  -- the producer's node is not linked yet, the customer's was
  have hmem : p.node ∈ s.linked := by
    refine h.sound.unlinked_subset ?_
    rw [howed]
    exact List.mem_append_right _ (List.mem_singleton_self _)
  have hne : q.cell ≠ p.cell := fun he ↦ by
    have hnode : q.node = p.node :=
      Option.some_inj.mp (hfresh.occupied.symm.trans (he ▸ howner))
    exact hfresh.notMem_linked (hnode ▸ hmem)
  exact (Function.update_of_ne hne _ _).trans hfresh.occupied

theorem Kept.step {t : State κ} {a : Label κ} (h : Kept s chain) (hlocked : Locked s)
    (hst : step s a = some t) : ∃ chain', Kept t chain' := by
  cases a with
  | malloc c =>
    obtain ⟨⟨-, hc⟩, rfl⟩ := guarded_eq_some.mp hst
    exact ⟨chain, h.malloc hc⟩
  | lockProducer =>
    obtain ⟨⟨hpc, -⟩, rfl⟩ := guarded_eq_some.mp hst
    exact ⟨chain, h.of_producer rfl rfl rfl rfl (fun _ ↦ by rw [hpc]; rfl) (by simp) (by simp)⟩
  | setData p value =>
    obtain ⟨⟨hpc, hp⟩, rfl⟩ := guarded_eq_some.mp hst
    have hfresh := h.fresh (by rw [hpc]; rfl) hp
    refine ⟨chain, h.sound.setData hfresh value, fun _ ↦ ⟨p, hp, hfresh.occupied, hfresh.newer,
      hfresh.lt_made⟩, fun hpc' ↦ absurd hpc' (by simp), fun hpc' ↦ absurd hpc' (by simp),
      h.pointers.caught, h.pointers.owed, h.pointers.settled⟩
  | setNext p =>
    obtain ⟨⟨hpc, hp⟩, rfl⟩ := guarded_eq_some.mp hst
    have hfresh := h.fresh (by rw [hpc]; rfl) hp
    refine ⟨chain, h.sound.setNext hfresh, fun _ ↦ ⟨p, hp, hfresh.occupied, hfresh.newer,
      hfresh.lt_made⟩, fun _ q hq ↦ ?_, fun hpc' ↦ absurd hpc' (by simp), h.pointers.caught,
      h.pointers.owed, h.pointers.settled⟩
    obtain rfl : p = q := Option.some_inj.mp (hp.symm.trans hq)
    exact Function.update_self _ _ _
  | setHead p =>
    obtain ⟨⟨hpc, hp⟩, rfl⟩ := guarded_eq_some.mp hst
    exact ⟨p :: chain, h.setHead hlocked hpc hp⟩
  | printProducer p =>
    obtain ⟨⟨hpc, hp⟩, rfl⟩ := guarded_eq_some.mp hst
    have hhead : s.head = some p := (h.pointers.shown hpc).symm.trans hp
    exact ⟨chain, h.of_producer (h.touch_head hhead) rfl rfl rfl (by simp [Producer.keeps])
      (by simp) (by simp)⟩
  | unlockProducer =>
    obtain ⟨-, rfl⟩ := guarded_eq_some.mp hst
    exact ⟨chain, h.of_producer rfl rfl rfl rfl (by simp [Producer.keeps]) (by simp) (by simp)⟩
  | signal =>
    obtain ⟨-, rfl⟩ := guarded_eq_some.mp hst
    have hproducer : Kept { s with producer := .malloc } chain :=
      h.of_producer rfl rfl rfl rfl (by simp [Producer.keeps]) (by simp) (by simp)
    by_cases hwaiting : s.customer = .waiting
    · simp only [if_pos hwaiting]
      exact ⟨chain, hproducer.of_customer rfl rfl rfl (by simp [hwaiting]) (by simp) (by simp)⟩
    · simp only [if_neg hwaiting]
      exact ⟨chain, hproducer⟩
  | lockCustomer =>
    obtain ⟨⟨hpc, -⟩, rfl⟩ := guarded_eq_some.mp hst
    exact ⟨chain, h.of_customer rfl rfl rfl (by simp [hpc]) (by simp) (by simp)⟩
  | test =>
    obtain ⟨hpc, rfl⟩ := guarded_eq_some.mp hst
    refine ⟨chain, h.of_customer rfl rfl rfl (by simp [hpc]) ?_ ?_⟩
    · dsimp only
      split <;> simp
    · dsimp only
      split <;> simp
  | wait =>
    obtain ⟨hpc, rfl⟩ := guarded_eq_some.mp hst
    exact ⟨chain, h.of_customer rfl rfl rfl (by simp [hpc]) (by simp) (by simp)⟩
  | spurious =>
    obtain ⟨hpc, rfl⟩ := guarded_eq_some.mp hst
    exact ⟨chain, h.of_customer rfl rfl rfl (by simp [hpc]) (by simp) (by simp)⟩
  | retake =>
    obtain ⟨⟨hpc, -⟩, rfl⟩ := guarded_eq_some.mp hst
    exact ⟨chain, h.of_customer rfl rfl rfl (by simp [hpc]) (by simp) (by simp)⟩
  | print p =>
    obtain ⟨⟨hpc, hp⟩, rfl⟩ := guarded_eq_some.mp hst
    exact ⟨chain, h.of_customer (h.touch_head hp) rfl rfl (by simp [hpc]) (by simp) (by simp)⟩
  | crash =>
    obtain ⟨⟨hpc, -⟩, rfl⟩ := guarded_eq_some.mp hst
    have hfree : s.customer ≠ .free := by rcases hpc with hpc | hpc <;> simp [hpc]
    exact ⟨chain, h.of_customer rfl rfl rfl hfree (by simp) (by simp)⟩
  | readHead =>
    obtain ⟨hpc, rfl⟩ := guarded_eq_some.mp hst
    exact ⟨chain, h.of_customer rfl rfl rfl (by simp [hpc]) (by simp) fun _ ↦ rfl⟩
  | advance p =>
    obtain ⟨⟨hpc, hp⟩, rfl⟩ := guarded_eq_some.mp hst
    exact h.advance hlocked hpc hp
  | free =>
    obtain ⟨hpc, rfl⟩ := guarded_eq_some.mp hst
    exact ⟨chain, h.free hpc⟩
  | unlockCustomer =>
    obtain ⟨hpc, rfl⟩ := guarded_eq_some.mp hst
    exact ⟨chain, h.of_customer rfl rfl rfl (by simp [hpc]) (by simp) (by simp)⟩

end

/-! ## Runs -/

/-- **No node is lost or duplicated.** In every state that the threads reach, whatever the schedule,
whichever cells `malloc` returns and however often `pthread_cond_wait` wakes up without a signal:
the pointers from `head` to null form a chain without a repeated cell, and its nodes are those that
were linked and not yet unlinked, the last one produced first. Each node was unlinked at most once
and freed at most once, none was used after it was freed, and none that was freed is on the
chain. -/
theorem nodes_conserved {data : κ → ℤ} {next : κ → Option (Ptr κ)} {labels : List (Label κ)}
    {s : State κ} (hrun : run step (init data next) labels = some s) :
    ∃ chain, Linked (fun p ↦ s.next p.cell) s.head chain ∧ (chain.map Ptr.cell).Nodup ∧
      chain.map Ptr.node = s.linked.reverse.filter (· ∉ s.unlinked) ∧
      s.linked.Pairwise (· < ·) ∧ s.unlinked ⊆ s.linked ∧ s.unlinked.Nodup ∧
      s.freed ⊆ s.unlinked ∧ s.freed.Nodup ∧ s.misused = false ∧ ∀ p ∈ chain, p.node ∉ s.freed := by
  have hstep : ∀ (s : State κ) a t, (Locked s ∧ ∃ chain, Kept s chain) → step s a = some t →
      Locked t ∧ ∃ chain, Kept t chain := by
    rintro s a t ⟨hlocked, chain, hkept⟩ hst
    exact ⟨hlocked.step hst, hkept.step hlocked hst⟩
  obtain ⟨-, chain, ⟨hsound, hpointers⟩⟩ := invariant_of_run (I := fun s ↦ Locked s ∧ ∃ chain,
    Kept s chain) hstep ⟨locked_init data next, [], kept_init data next⟩ hrun
  refine ⟨chain, hsound.chained, hsound.nodup_cells, hsound.nodes, hsound.order,
    hsound.unlinked_subset, hsound.unlinked_nodup, hsound.freed_subset, ?_, hsound.not_misused,
    fun p hp ↦ hsound.notMem_freed hp⟩
  -- the freed nodes are the unlinked ones, but for the one that the customer is about to free
  by_cases hpc : s.customer = .free
  · obtain ⟨p, -, -, howed⟩ := hpointers.owed hpc
    have hnodup := hsound.unlinked_nodup
    rw [howed] at hnodup
    exact hnodup.of_append_left
  · exact hpointers.settled hpc ▸ hsound.unlinked_nodup

/-- The customer waits and wakes up by himself, the first node is consumed and its cell is used for
the second one. -/
def reuse : List (Label ℕ) :=
  [.lockCustomer, .test, .wait, .malloc 5, .lockProducer, .setData ⟨5, 0⟩ 7, .setNext ⟨5, 0⟩,
    .setHead ⟨5, 0⟩, .printProducer ⟨5, 0⟩, .unlockProducer, .spurious, .retake, .print ⟨5, 0⟩,
    .readHead, .advance ⟨5, 0⟩, .free, .signal, .malloc 5, .unlockCustomer, .lockProducer,
    .setData ⟨5, 1⟩ 8, .setNext ⟨5, 1⟩, .setHead ⟨5, 1⟩]

theorem nodes_conserved_reuse :
    ∃ s, run step (init (fun _ ↦ 0) fun _ ↦ none) reuse = some s ∧ s.freed = [0] ∧
      ∃ chain, Linked (fun p ↦ s.next p.cell) s.head chain ∧ chain.map Ptr.node = [1] := by
  obtain ⟨s, hrun, hhistory⟩ : ∃ s, run step (init (fun _ ↦ 0) fun _ ↦ none) reuse = some s ∧
      s.linked = [0, 1] ∧ s.unlinked = [0] ∧ s.freed = [0] := ⟨_, rfl, rfl, rfl, rfl⟩
  obtain ⟨hlinked, hunlinked, hfreed⟩ := hhistory
  obtain ⟨chain, hchain, -, hnodes, -⟩ := nodes_conserved hrun
  rw [hlinked, hunlinked] at hnodes
  exact ⟨s, hrun, hfreed, chain, hchain, hnodes⟩

end CondNodes

end CodeOnLinux
