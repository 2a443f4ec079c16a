import CodeOnLinux.Threads.CondNodes
import Mathlib.Data.List.Perm.Subperm

/-!
# When the producer of `cond.c` pauses

In front of every `malloc` the producer sleeps, and while he does so, the customer goes on. This
module says how far. He consumes what is there and waits, so that the program comes to rest after a
number of steps that the nodes of the list bound; and at rest every node has been freed, unless the
customer has followed the null pointer (`comes_to_rest`). In particular no node stays in the list
because a signal was lost: he tests the list before he waits, and while he waits, a node without a
signal behind it is not linked (`Woken`).
-/

namespace CodeOnLinux

namespace CondNodes

open Transition Chain

variable {κ : Type*}

/-! ## What the producer owes -/

/-- The producer has linked his node and not signalled yet. -/
def Producer.tells : Producer → Bool
  | .print | .unlock | .signal => true
  | _ => false

/-- The customer waits for nodes only, and is told of each. -/
structure Woken (s : State κ) : Prop where
  /-- He goes to wait on an empty list. -/
  wait : s.customer = .wait → s.head = none
  /-- While he waits the list is empty, or the producer is about to tell him. -/
  waiting : s.customer = .waiting → s.head = none ∨ s.producer.tells = true

/-- Every node is linked, or is the one that the producer has in his hand. -/
structure Numbered (s : State κ) : Prop where
  /-- The nodes are numbered in the order in which they are linked. -/
  nodes : List.range s.made =
    s.linked ++ if s.producer.keeps then s.newNode.toList.map Ptr.node else []
  /-- The producer has a node to print. -/
  shown : s.producer = .print → s.newNode.isSome = true

theorem woken_init (data : κ → ℤ) (next : κ → Option (Ptr κ)) : Woken (init data next) :=
  ⟨nofun, nofun⟩

theorem numbered_init (data : κ → ℤ) (next : κ → Option (Ptr κ)) : Numbered (init data next) :=
  ⟨rfl, nofun⟩

section

variable {s t : State κ}

/-- A step to where the customer does not wait. -/
theorem woken_of_ne (hwait : t.customer ≠ .wait) (hwaiting : t.customer ≠ .waiting) : Woken t :=
  ⟨fun hpc ↦ absurd hpc hwait, fun hpc ↦ absurd hpc hwaiting⟩

/-- A step of the producer that does not come from, or goes on to, where he owes a signal. -/
theorem Woken.of_producer (h : Woken s) (hhead : t.head = s.head)
    (hcustomer : t.customer = s.customer)
    (htells : s.producer.tells = true → t.producer.tells = true) : Woken t := by
  refine ⟨fun hpc ↦ ?_, fun hpc ↦ ?_⟩
  · rw [hhead]
    exact h.wait (hcustomer ▸ hpc)
  · rw [hhead]
    exact (h.waiting (hcustomer ▸ hpc)).imp_right htells

/-- A step that neither hands out a node nor links one. -/
theorem Numbered.congr (h : Numbered s) (hmade : t.made = s.made) (hlinked : t.linked = s.linked)
    (hnew : t.newNode = s.newNode) (hkeeps : t.producer.keeps = s.producer.keeps)
    (hprint : t.producer = .print → s.producer = .print) : Numbered t := by
  refine ⟨?_, fun hpc ↦ ?_⟩
  · rw [hmade, hlinked, hnew, hkeeps]
    exact h.nodes
  · rw [hnew]
    exact h.shown (hprint hpc)

end

variable [DecidableEq κ]

@[simp] theorem Heap.free_made (h : Heap κ) (p : Option (Ptr κ)) : (h.free p).made = h.made := by
  cases p <;> rfl

@[simp] theorem Heap.free_linked (h : Heap κ) (p : Option (Ptr κ)) :
    (h.free p).linked = h.linked := by
  cases p <;> rfl

@[simp] theorem Heap.free_unlinked (h : Heap κ) (p : Option (Ptr κ)) :
    (h.free p).unlinked = h.unlinked := by
  cases p <;> rfl

theorem Woken.step {s t : State κ} {a : Label κ} (h : Woken s) (hlocked : Locked s)
    (hst : step s a = some t) : Woken t := by
  cases a with
  | malloc c =>
    obtain ⟨⟨hpc, -⟩, rfl⟩ := guarded_eq_some.mp hst
    exact h.of_producer rfl rfl (by rw [hpc]; nofun)
  | lockProducer =>
    obtain ⟨⟨hpc, -⟩, rfl⟩ := guarded_eq_some.mp hst
    exact h.of_producer rfl rfl (by rw [hpc]; nofun)
  | setData p value =>
    obtain ⟨⟨hpc, -⟩, rfl⟩ := guarded_eq_some.mp hst
    exact h.of_producer rfl rfl (by rw [hpc]; nofun)
  | setNext p =>
    obtain ⟨⟨hpc, -⟩, rfl⟩ := guarded_eq_some.mp hst
    exact h.of_producer rfl rfl (by rw [hpc]; nofun)
  | setHead p =>
    -- the customer is not between his test and his wait, which need the lock
    obtain ⟨⟨hpc, -⟩, rfl⟩ := guarded_eq_some.mp hst
    have hout := hlocked.customer_out (by rw [hpc]; rfl)
    refine ⟨fun hwait ↦ ?_, fun _ ↦ Or.inr rfl⟩
    rw [show s.customer = .wait from hwait] at hout
    cases hout
  | printProducer p =>
    obtain ⟨-, rfl⟩ := guarded_eq_some.mp hst
    exact h.of_producer rfl rfl fun _ ↦ rfl
  | unlockProducer =>
    obtain ⟨-, rfl⟩ := guarded_eq_some.mp hst
    exact h.of_producer rfl rfl fun _ ↦ rfl
  | signal =>
    obtain ⟨-, rfl⟩ := guarded_eq_some.mp hst
    by_cases hwaiting : s.customer = .waiting
    · refine woken_of_ne ?_ ?_ <;> simp [hwaiting]
    · simp only [if_neg hwaiting]
      exact ⟨h.wait, fun hpc ↦ absurd hpc hwaiting⟩
  | test =>
    obtain ⟨-, rfl⟩ := guarded_eq_some.mp hst
    by_cases hhead : s.head = none
    · simp only [if_pos hhead]
      exact ⟨fun _ ↦ hhead, nofun⟩
    · simp only [if_neg hhead]
      exact woken_of_ne nofun nofun
  | wait =>
    obtain ⟨hpc, rfl⟩ := guarded_eq_some.mp hst
    exact ⟨nofun, fun _ ↦ Or.inl (h.wait hpc)⟩
  | _ =>
    obtain ⟨-, rfl⟩ := guarded_eq_some.mp hst
    exact woken_of_ne nofun nofun

theorem Numbered.step {s t : State κ} {a : Label κ} (h : Numbered s)
    (hst : step s a = some t) : Numbered t := by
  cases a with
  | malloc c =>
    obtain ⟨⟨hpc, -⟩, rfl⟩ := guarded_eq_some.mp hst
    have hnodes : List.range s.made = s.linked ++ [] := by
      rw [h.nodes, hpc]
      rfl
    refine ⟨?_, nofun⟩
    simp only [Heap.allocate, List.range_succ, hnodes, List.append_nil]
    rfl
  | setHead p =>
    obtain ⟨⟨hpc, hp⟩, rfl⟩ := guarded_eq_some.mp hst
    refine ⟨?_, fun _ ↦ by simp only [hp, Option.isSome_some]⟩
    have hnodes : List.range s.made = s.linked ++ [p.node] := by
      rw [h.nodes, hpc, hp]
      rfl
    exact hnodes.trans (List.append_nil _).symm
  | lockProducer =>
    obtain ⟨⟨hpc, -⟩, rfl⟩ := guarded_eq_some.mp hst
    exact h.congr rfl rfl rfl (by rw [hpc]; rfl) nofun
  | setData p value =>
    obtain ⟨⟨hpc, -⟩, rfl⟩ := guarded_eq_some.mp hst
    exact h.congr rfl rfl rfl (by rw [hpc]; rfl) nofun
  | setNext p =>
    obtain ⟨⟨hpc, -⟩, rfl⟩ := guarded_eq_some.mp hst
    exact h.congr rfl rfl rfl (by rw [hpc]; rfl) nofun
  | printProducer p =>
    obtain ⟨⟨hpc, -⟩, rfl⟩ := guarded_eq_some.mp hst
    exact h.congr rfl rfl rfl (by rw [hpc]; rfl) nofun
  | unlockProducer =>
    obtain ⟨hpc, rfl⟩ := guarded_eq_some.mp hst
    exact h.congr rfl rfl rfl (by rw [hpc]; rfl) nofun
  | signal =>
    obtain ⟨hpc, rfl⟩ := guarded_eq_some.mp hst
    exact h.congr rfl rfl rfl (by rw [hpc]; rfl) nofun
  | free =>
    obtain ⟨-, rfl⟩ := guarded_eq_some.mp hst
    exact h.congr (Heap.free_made _ _) (Heap.free_linked _ _) rfl rfl id
  | _ =>
    obtain ⟨-, rfl⟩ := guarded_eq_some.mp hst
    exact h.congr rfl rfl rfl rfl id

/-! ## What is left to do -/

/-- The steps that the producer is away from his next `malloc`. -/
def Producer.left : Producer → ℕ
  | .malloc => 0
  | .lock => 7
  | .data => 6
  | .next => 5
  | .head => 4
  | .print => 3
  | .unlock => 2
  | .signal => 1

/-- A round of the customer, from the place where a node leaves the list to the one before it. -/
def Customer.left : Customer → ℕ
  | .free => 10
  | .unlock => 9
  | .lock => 8
  | .test => 7
  | .wait => 6
  | .waiting => 5
  | .retake => 4
  | .print => 3
  | .temp => 2
  | .advance => 1
  | .crashed => 0

/-- The nodes that have to leave the list count for a round each. -/
def State.left (s : State κ) : ℕ :=
  10 * (s.made - s.unlinked.length) + s.producer.left + s.customer.left

section

omit [DecidableEq κ]

theorem Producer.left_le (p : Producer) : p.left ≤ 7 := by cases p <;> decide

theorem Customer.left_le (c : Customer) : c.left ≤ 10 := by cases c <;> decide

theorem Sound.length_unlinked_le {h : Heap κ} {chain : List (Ptr κ)} (hs : Sound h chain) :
    h.unlinked.length ≤ h.made := by
  have hsub : h.unlinked ⊆ List.range h.made := fun n hn ↦
    List.mem_range.mpr (hs.lt_made n (hs.unlinked_subset hn))
  have hle := (hs.unlinked_nodup.subperm hsub).length_le
  rwa [List.length_range] at hle

end

/-- What holds in every state that the threads reach. -/
structure Inv (s : State κ) : Prop where
  /-- The mutex is held as it should be. -/
  locked : Locked s
  /-- The list is sound. -/
  kept : ∃ chain, Kept s chain
  /-- The customer is told of each node. -/
  woken : Woken s
  /-- No node is lost. -/
  numbered : Numbered s

omit [DecidableEq κ] in
theorem inv_init (data : κ → ℤ) (next : κ → Option (Ptr κ)) : Inv (init data next) :=
  ⟨locked_init data next, ⟨[], kept_init data next⟩, woken_init data next, numbered_init data next⟩

theorem Inv.step {s t : State κ} {a : Label κ} (h : Inv s)
    (hst : CondNodes.step s a = some t) : Inv t := by
  obtain ⟨chain, hkept⟩ := h.kept
  exact ⟨h.locked.step hst, hkept.step h.locked hst, h.woken.step h.locked hst,
    h.numbered.step hst⟩

omit [DecidableEq κ] in
theorem Inv.length_unlinked_le {s : State κ} (h : Inv s) : s.unlinked.length ≤ s.made := by
  obtain ⟨chain, hkept⟩ := h.kept
  exact hkept.sound.length_unlinked_le

/-- Whatever is done but `malloc` uses up a step. -/
theorem left_lt_of_step {s t : State κ} {a : Label κ} (hle : t.unlinked.length ≤ t.made)
    (ha : ∀ c, a ≠ .malloc c) (hst : step s a = some t) : t.left < s.left := by
  cases a with
  | malloc c => exact absurd rfl (ha c)
  | signal =>
    obtain ⟨hpc, rfl⟩ := guarded_eq_some.mp hst
    by_cases hwaiting : s.customer = .waiting
    · simp only [State.left, hpc, hwaiting, ↓reduceIte, Producer.left, Customer.left]
      omega
    · simp only [State.left, hpc, if_neg hwaiting, Producer.left]
      omega
  | test =>
    obtain ⟨hpc, rfl⟩ := guarded_eq_some.mp hst
    by_cases hhead : s.head = none
    · simp only [State.left, hpc, if_pos hhead, Customer.left]
      omega
    · simp only [State.left, hpc, if_neg hhead, Customer.left]
      omega
  | advance p =>
    -- the node that leaves pays for the round
    obtain ⟨⟨hpc, -⟩, rfl⟩ := guarded_eq_some.mp hst
    simp only [Heap.unlink, Heap.touch, List.length_append, List.length_singleton] at hle
    simp only [State.left, hpc, Heap.unlink, Heap.touch, List.length_append, List.length_singleton,
      Customer.left]
    omega
  | free =>
    obtain ⟨hpc, rfl⟩ := guarded_eq_some.mp hst
    simp only [State.left, hpc, Heap.free_made, Heap.free_unlinked, Customer.left]
    omega
  | crash =>
    obtain ⟨⟨hpc, -⟩, rfl⟩ := guarded_eq_some.mp hst
    rcases hpc with hpc | hpc
    · simp only [State.left, hpc, Customer.left]
      omega
    · simp only [State.left, hpc, Customer.left]
      omega
  | lockProducer | setData | setNext | setHead | printProducer =>
    obtain ⟨⟨hpc, -⟩, rfl⟩ := guarded_eq_some.mp hst
    simp only [State.left, hpc, Heap.setData, Heap.setNext, Heap.link, Heap.touch, Producer.left]
    omega
  | unlockProducer =>
    obtain ⟨hpc, rfl⟩ := guarded_eq_some.mp hst
    simp only [State.left, hpc, Producer.left]
    omega
  | lockCustomer | retake | print =>
    obtain ⟨⟨hpc, -⟩, rfl⟩ := guarded_eq_some.mp hst
    simp only [State.left, hpc, Heap.touch, Customer.left]
    omega
  | wait | spurious | readHead | unlockCustomer =>
    obtain ⟨hpc, rfl⟩ := guarded_eq_some.mp hst
    simp only [State.left, hpc, Customer.left]
    omega

/-! ## At rest -/

/-- Nothing can happen, unless the producer goes on or the customer wakes up without a signal. -/
def Rests (s : State κ) : Prop :=
  ∀ a t, step s a = some t → a = .spurious ∨ ∃ c, a = .malloc c

section

variable {s : State κ} {chain : List (Ptr κ)}

theorem Rests.false_of {a : Label κ} {t : State κ} (h : Rests s) (hst : step s a = some t)
    (hspurious : a ≠ .spurious) (hmalloc : ∀ c, a ≠ .malloc c) : False := by
  rcases h a t hst with ha | ⟨c, ha⟩
  · exact hspurious ha
  · exact hmalloc c ha

theorem rests_of_waiting (hp : s.producer = .malloc) (hc : s.customer = .waiting) : Rests s := by
  intro a t hst
  cases a with
  | spurious => exact Or.inl rfl
  | malloc c => exact Or.inr ⟨c, rfl⟩
  | _ =>
    obtain ⟨hpc, -⟩ := guarded_eq_some.mp hst
    simp [hp, hc] at hpc

omit [DecidableEq κ] in
/-- A thread that waits for the mutex waits for the other one. -/
theorem Locked.mutex_eq_none (h : Locked s) (hp : s.producer.holds = false)
    (hc : s.customer.holds = false) : s.mutex = none := by
  cases hmutex : s.mutex with
  | none => rfl
  | some thread =>
    cases thread with
    | producer => rw [h.producer.mp hmutex] at hp; cases hp
    | customer => rw [h.customer.mp hmutex] at hc; cases hc

/-- A customer who has the mutex, or could have it, has crashed. -/
theorem Rests.customer (h : Rests s) (hlocked : Locked s) (hp : s.producer.holds = false) :
    s.customer = .crashed ∨ s.customer = .waiting := by
  have hmutex : s.customer.holds = false → s.mutex = none := hlocked.mutex_eq_none hp
  cases hpc : s.customer with
  | waiting => exact Or.inr rfl
  | crashed => exact Or.inl rfl
  | lock =>
    exact (h.false_of (a := .lockCustomer) (guarded_of ⟨hpc, hmutex (by rw [hpc]; rfl)⟩ _)
      nofun nofun).elim
  | retake =>
    exact (h.false_of (a := .retake) (guarded_of ⟨hpc, hmutex (by rw [hpc]; rfl)⟩ _)
      nofun nofun).elim
  | test => exact (h.false_of (a := .test) (guarded_of hpc _) nofun nofun).elim
  | wait => exact (h.false_of (a := .wait) (guarded_of hpc _) nofun nofun).elim
  | temp => exact (h.false_of (a := .readHead) (guarded_of hpc _) nofun nofun).elim
  | free => exact (h.false_of (a := .free) (guarded_of hpc _) nofun nofun).elim
  | unlock => exact (h.false_of (a := .unlockCustomer) (guarded_of hpc _) nofun nofun).elim
  | print =>
    cases hhead : s.head with
    | none => exact (h.false_of (a := .crash) (guarded_of ⟨Or.inl hpc, hhead⟩ _) nofun nofun).elim
    | some p => exact (h.false_of (a := .print p) (guarded_of ⟨hpc, hhead⟩ _) nofun nofun).elim
  | advance =>
    cases hhead : s.head with
    | none => exact (h.false_of (a := .crash) (guarded_of ⟨Or.inr hpc, hhead⟩ _) nofun nofun).elim
    | some p => exact (h.false_of (a := .advance p) (guarded_of ⟨hpc, hhead⟩ _) nofun nofun).elim

/-- The producer is at his `malloc`, or in front of a mutex that a crashed customer has. -/
theorem Rests.producer (h : Rests s) (hlocked : Locked s) (hkept : Kept s chain)
    (hnumbered : Numbered s) :
    s.producer = .malloc ∨ s.producer = .lock ∧ s.customer.holds = true := by
  have hnode : s.producer.keeps = true → ∃ p, s.newNode = some p := fun hkeeps ↦ by
    obtain ⟨p, hp, -⟩ := hkept.pointers.fresh hkeeps
    exact ⟨p, hp⟩
  cases hpc : s.producer with
  | malloc => exact Or.inl rfl
  | lock =>
    refine Or.inr ⟨rfl, ?_⟩
    by_contra hout
    have hmutex := hlocked.mutex_eq_none (by rw [hpc]; rfl) (eq_false_of_ne_true hout)
    exact h.false_of (a := .lockProducer) (guarded_of ⟨hpc, hmutex⟩ _) nofun nofun
  | data =>
    obtain ⟨p, hp⟩ := hnode (by rw [hpc]; rfl)
    exact (h.false_of (a := .setData p 0) (guarded_of ⟨hpc, hp⟩ _) nofun nofun).elim
  | next =>
    obtain ⟨p, hp⟩ := hnode (by rw [hpc]; rfl)
    exact (h.false_of (a := .setNext p) (guarded_of ⟨hpc, hp⟩ _) nofun nofun).elim
  | head =>
    obtain ⟨p, hp⟩ := hnode (by rw [hpc]; rfl)
    exact (h.false_of (a := .setHead p) (guarded_of ⟨hpc, hp⟩ _) nofun nofun).elim
  | print =>
    obtain ⟨p, hp⟩ := Option.isSome_iff_exists.mp (hnumbered.shown hpc)
    exact (h.false_of (a := .printProducer p) (guarded_of ⟨hpc, hp⟩ _) nofun nofun).elim
  | unlock => exact (h.false_of (a := .unlockProducer) (guarded_of hpc _) nofun nofun).elim
  | signal => exact (h.false_of (a := .signal) (guarded_of hpc _) nofun nofun).elim

omit [DecidableEq κ] in
/-- A list that is empty while nobody has a node has been freed. -/
theorem Kept.freed_perm (h : Kept s chain) (hnumbered : Numbered s) (hhead : s.head = none)
    (hkeeps : s.producer.keeps = false) (hfree : s.customer ≠ .free) :
    s.freed.Perm (List.range s.made) := by
  have hsettled := h.pointers.settled hfree
  have hlinked : List.range s.made = s.linked := by
    rw [hnumbered.nodes, hkeeps]
    exact List.append_nil _
  have hchain : chain = [] := by
    have hlist := h.sound.chained
    rw [hhead] at hlist
    exact hlist.unique (linked_nil.mpr rfl)
  have hall : ∀ n ∈ s.linked, n ∈ s.unlinked := fun n hn ↦ by
    have hnodes := h.sound.nodes
    rw [hchain, List.map_nil, eq_comm, List.filter_eq_nil_iff] at hnodes
    simpa using hnodes n (List.mem_reverse.mpr hn)
  rw [← hsettled, hlinked]
  refine (List.perm_ext_iff_of_nodup h.sound.unlinked_nodup ?_).mpr fun n ↦
    ⟨fun hn ↦ h.sound.unlinked_subset hn, hall n⟩
  exact h.sound.order.imp Nat.ne_of_lt

theorem Inv.rests (h : Inv s) (hrests : Rests s) : s.customer = .crashed ∨
    s.customer = .waiting ∧ s.head = none ∧ s.freed.Perm (List.range s.made) := by
  obtain ⟨chain, hkept⟩ := h.kept
  rcases hrests.producer h.locked hkept h.numbered with hp | ⟨hp, hholds⟩
  · refine (hrests.customer h.locked (by rw [hp]; rfl)).imp_right fun hc ↦ ?_
    have hhead : s.head = none := (h.woken.waiting hc).resolve_right (by rw [hp]; nofun)
    refine ⟨hc, hhead, hkept.freed_perm h.numbered hhead (by rw [hp]; rfl) ?_⟩
    rw [hc]
    nofun
  · -- a customer who has the mutex does not wait
    refine (hrests.customer h.locked (by rw [hp]; rfl)).imp_right fun hc ↦ ?_
    rw [hc] at hholds
    cases hholds

end

/-! ## Runs -/

/-- **The program comes to rest when the producer pauses.** However the threads got to where they
are, they take at most ten steps for each node that is not consumed, and seventeen more, before one
of them has to be a `malloc`. And when nothing else can happen any more, all nodes have been freed
and the customer waits for the next one, or he has followed the null pointer. -/
theorem comes_to_rest {data : κ → ℤ} {next : κ → Option (Ptr κ)} {labels more : List (Label κ)}
    {s t : State κ} (hrun : run step (init data next) labels = some s)
    (hmore : run step s more = some t) (hpause : ∀ c, Label.malloc c ∉ more) :
    more.length ≤ 10 * (s.made - s.unlinked.length) + 17 ∧
      (Rests t → t.customer = .crashed ∨
        t.customer = .waiting ∧ t.head = none ∧ t.freed.Perm (List.range t.made)) := by
  have hs : Inv s := invariant_of_run (fun s a t h hst ↦ h.step hst) (inv_init data next) hrun
  have ht : Inv t := invariant_of_run (fun s a t h hst ↦ h.step hst) hs hmore
  constructor
  · have halong : Along step (fun _ a ↦ ∀ c, a ≠ .malloc c) s more :=
      (along_iff_forall hmore).mpr fun a ha c hac ↦ hpause c (hac ▸ ha)
    have hle := length_add_le_of_along (μ := State.left) (fun s a t h hst ↦ h.step hst)
      (fun s a t h ha hst ↦ left_lt_of_step (h.step hst).length_unlinked_le ha hst) hs halong hmore
    have hproducer := s.producer.left_le
    have hcustomer := s.customer.left_le
    have hleft : s.left =
      10 * (s.made - s.unlinked.length) + s.producer.left + s.customer.left := rfl
    omega
  · exact fun hrests ↦ ht.rests hrests

/-- The customer waits, and the producer has just got the cell for the first node. -/
def awaited : List (Label ℕ) := [.lockCustomer, .test, .wait, .malloc 5]

/-- He links it and signals; the customer consumes it and waits again. -/
def served : List (Label ℕ) :=
  [.lockProducer, .setData ⟨5, 0⟩ 7, .setNext ⟨5, 0⟩, .setHead ⟨5, 0⟩, .printProducer ⟨5, 0⟩,
    .unlockProducer, .signal, .retake, .print ⟨5, 0⟩, .readHead, .advance ⟨5, 0⟩, .free,
    .unlockCustomer, .lockCustomer, .test, .wait]

theorem comes_to_rest_served :
    ∃ s t, run step (init (fun _ ↦ 0) fun _ ↦ none) awaited = some s ∧
      run step s served = some t ∧ s.made = 1 ∧ served.length ≤ 10 * (1 - 0) + 17 ∧ Rests t ∧
      (t.customer = .crashed ∨
        t.customer = .waiting ∧ t.head = none ∧ t.freed.Perm (List.range t.made)) := by
  obtain ⟨s, hs, hmade, hunlinked, hserved⟩ :
      ∃ s, run step (init (fun _ ↦ 0) fun _ ↦ none) awaited = some s ∧ s.made = 1 ∧
        s.unlinked.length = 0 ∧ ∃ t, run step s served = some t ∧ t.producer = .malloc ∧
          t.customer = .waiting := ⟨_, rfl, rfl, rfl, _, rfl, rfl, rfl⟩
  obtain ⟨t, ht, hproducer, hcustomer⟩ := hserved
  obtain ⟨hlength, hrests⟩ := comes_to_rest hs ht (by simp [served])
  rw [hmade, hunlinked] at hlength
  have hrest := rests_of_waiting hproducer hcustomer
  exact ⟨s, t, hs, ht, hmade, hlength, hrest, hrests hrest⟩

end CondNodes

end CodeOnLinux
