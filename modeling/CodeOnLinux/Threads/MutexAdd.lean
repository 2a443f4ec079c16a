import CodeOnLinux.Foundation.Machine
import CodeOnLinux.Foundation.Threads

/-!
# Counting under a mutex: `mutex_add.c`

`fun1` and `fun2` are the same loop: each round takes the mutex, does `NUM++`, which is a load and a
store, and gives the mutex back; `main` joins the threads and prints `NUM`. Whatever the order of
the steps, the program comes to an end, and prints the number of all rounds
(`printed_eq_all_rounds`): no round is lost between the load and the store of another.

## Progress

Nothing in the program waits but for the mutex, and whoever has it can go on. So a state in which no
step is possible is one in which all threads have ended and `main` has printed; and every step uses
up something of what the rounds allow, which bounds the runs. Both hold for any number of threads
and rounds, and the order of the steps is not restricted.
-/

namespace CodeOnLinux

namespace MutexAdd

open Transition

/-! ## The program -/

/-- Where a thread is in a round; with the value of `NUM` it is about to count up. -/
inductive Pc
  | lock
  | load
  | store (num : ℤ)
  | unlock
  deriving DecidableEq

/-- The threads `ι` and the thread that waits for them. -/
structure State (ι : Type*) where
  /-- The thread that has the mutex. -/
  mutex : Option ι
  /-- `NUM` -/
  num : ℤ
  /-- What each thread does next. -/
  pc : ι → Pc
  /-- The rounds that a thread still has to finish. -/
  left : ι → ℕ
  /-- What was printed, once it was. -/
  printed : Option ℤ

inductive Label (ι : Type*)
  | lock (i : ι)
  | load (i : ι)
  | store (i : ι)
  | unlock (i : ι)
  /-- `main` has joined all threads. -/
  | print

variable {ι : Type*}

/-- All threads are created for as many rounds. -/
def init (rounds : ℕ) : State ι where
  mutex := none
  num := 0
  pc _ := .lock
  left _ := rounds
  printed := none

variable [DecidableEq ι] [Fintype ι]

/-- A store that would overflow has no meaning; it is not enabled. -/
def step (s : State ι) : Label ι → Option (State ι)
  | .lock i => guarded (s.pc i = .lock ∧ 0 < s.left i ∧ s.mutex = none)
      { s with mutex := some i, pc := Function.update s.pc i .load }
  | .load i => guarded (s.pc i = .load)
      { s with pc := Function.update s.pc i (.store s.num) }
  | .store i =>
    match s.pc i with
    | .store num => (checkInt (num + 1)).toOption.map fun num ↦
        { s with num := num, pc := Function.update s.pc i .unlock }
    | _ => none
  | .unlock i => guarded (s.pc i = .unlock)
      { s with
        mutex := none
        pc := Function.update s.pc i .lock
        left := Function.update s.left i (s.left i - 1) }
  | .print => guarded ((∀ i, s.pc i = .lock ∧ s.left i = 0) ∧ s.printed = none)
      { s with printed := some s.num }

/-! ## Rounds that are still to be counted -/

variable {s t : State ι} {a : Label ι} {i : ι} {rounds : ℕ}

/-- After the store a round is counted. -/
def todo (pc : Pc) (left : ℕ) : ℕ :=
  match pc with
  | .unlock => left - 1
  | _ => left

/-- The mutex is held by the thread that is inside, `NUM` cannot change between its load and its
store, and every round is counted once. -/
structure Inv (rounds : ℕ) (s : State ι) : Prop where
  /-- The mutex is held by the thread that is inside. -/
  inside : Inside .lock (s.mutex = some ·) s.pc
  /-- Who is inside has a round to finish. -/
  left : ∀ i, s.pc i ≠ .lock → 0 < s.left i
  /-- `NUM` does not change between its load and its store. -/
  load : ∀ i num, s.pc i = .store num → num = s.num
  /-- It was counted up from `0`. -/
  nonneg : 0 ≤ s.num
  /-- It fits into an `int`. -/
  le : s.num ≤ intMax
  /-- Every round is counted once. -/
  count : s.num + (∑ i, todo (s.pc i) (s.left i) : ℕ) = (Fintype.card ι * rounds : ℕ)
  /-- What was printed is the number of all rounds. -/
  printed : ∀ num, s.printed = some num → num = (Fintype.card ι * rounds : ℕ)

omit [DecidableEq ι] in
theorem inv_init (rounds : ℕ) : Inv rounds (init rounds : State ι) where
  inside _ := iff_of_false (by simp [init]) (not_not_intro rfl)
  left _ h := absurd rfl h
  load _ _ h := by cases h
  nonneg := le_refl 0
  le := by simp [init, intMax]
  count := by simp [init, todo]
  printed _ h := by cases h

namespace Inv

omit [DecidableEq ι] in
theorem mutex_of_inside (hs : Inv rounds s) (hi : s.pc i ≠ .lock) : s.mutex = some i :=
  (hs.inside i).mpr hi

omit [DecidableEq ι] in
/-- While a thread is inside, no other is. -/
theorem alone (hs : Inv rounds s) (hi : s.pc i ≠ .lock) {j : ι} (hj : j ≠ i) :
    s.pc j = .lock := by
  by_contra hpc
  exact hj (Option.some_inj.mp ((hs.mutex_of_inside hpc).symm.trans (hs.mutex_of_inside hi)))

omit [Fintype ι] in
/-- A thread that is alone inside goes on with `x`. -/
theorem load_update (halone : ∀ j, j ≠ i → s.pc j = .lock) {x : Pc} {n : ℤ}
    (hx : ∀ num, x = .store num → num = n) :
    ∀ j num, Function.update s.pc i x j = .store num → num = n := by
  intro j num hj
  by_cases hji : j = i
  · subst hji
    rw [Function.update_self] at hj
    exact hx num hj
  · rw [Function.update_of_ne hji, halone j hji] at hj
    cases hj

theorem left_update (hs : Inv rounds s) (hi : 0 < s.left i) (x : Pc) :
    ∀ j, Function.update s.pc i x j ≠ .lock → 0 < s.left j := by
  intro j hj
  by_cases hji : j = i
  · exact hji ▸ hi
  · rw [Function.update_of_ne hji] at hj
    exact hs.left j hj

/-- Where thread `i` goes on with `x`, the rounds to be counted change by its own. -/
theorem sum_todo_update (i : ι) (x : Pc) :
    ∑ j, todo (Function.update s.pc i x j) (s.left j) + todo (s.pc i) (s.left i) =
      ∑ j, todo (s.pc j) (s.left j) + todo x (s.left i) := by
  have h := sum_add_eq_sum_add (f := fun j ↦ todo (Function.update s.pc i x j) (s.left j))
    (g := fun j ↦ todo (s.pc j) (s.left j)) i
    fun j hj ↦ by simp only [Function.update_of_ne hj]
  simpa only [Function.update_self] using h

/-- A step inside the mutex that neither counts nor leaves. -/
theorem move (hs : Inv rounds s) {x : Pc} (hi : s.pc i ≠ .lock) (hx : x ≠ .lock)
    (hload : ∀ num, x = .store num → num = s.num)
    (htodo : todo x (s.left i) = todo (s.pc i) (s.left i)) :
    Inv rounds { s with pc := Function.update s.pc i x } where
  inside := hs.inside.move hi hx
  left := hs.left_update (hs.left i hi) x
  load := load_update (fun _ hj ↦ hs.alone hi hj) hload
  nonneg := hs.nonneg
  le := hs.le
  count := by
    have hsum := sum_todo_update (s := s) i x
    have hcount := hs.count
    rw [htodo] at hsum
    simp only at hsum ⊢
    omega
  printed := hs.printed

/-- Nobody is inside when a thread takes the mutex. -/
theorem lock (hs : Inv rounds s) (hpc : s.pc i = .lock) (hleft : 0 < s.left i)
    (hmutex : s.mutex = none) :
    Inv rounds { s with mutex := some i, pc := Function.update s.pc i .load } where
  inside := by
    refine hs.inside.enter (by decide) rfl fun j hj ↦ ?_
    simp only [hmutex, Option.some_inj, reduceCtorEq, iff_false]
    exact Ne.symm hj
  left := hs.left_update hleft .load
  load := by
    have hout : ∀ j, s.pc j = .lock := by
      intro j
      by_contra hj
      have hheld := hs.mutex_of_inside hj
      rw [hmutex] at hheld
      cases hheld
    exact load_update (fun j _ ↦ hout j) fun _ h ↦ by cases h
  nonneg := hs.nonneg
  le := hs.le
  count := by
    have hsum := sum_todo_update (s := s) i .load
    have hcount := hs.count
    simp only [hpc] at hsum ⊢
    change _ + s.left i = _ + s.left i at hsum
    omega
  printed := hs.printed

/-- The round is counted here. -/
theorem store (hs : Inv rounds s) {num : ℤ} (hpc : s.pc i = .store num) (hle : num + 1 ≤ intMax) :
    Inv rounds { s with num := num + 1, pc := Function.update s.pc i .unlock } := by
  have hi : s.pc i ≠ .lock := by
    rw [hpc]
    exact fun h ↦ by cases h
  have hleft := hs.left i hi
  have hnonneg := hs.nonneg
  obtain rfl := hs.load i num hpc
  constructor
  case inside => exact hs.inside.move hi (by decide)
  case left => exact hs.left_update hleft .unlock
  case load => exact load_update (fun _ hj ↦ hs.alone hi hj) fun _ h ↦ by cases h
  case nonneg => exact le_trans hnonneg (by simp)
  case le => exact hle
  case count =>
    have hsum := sum_todo_update (s := s) i .unlock
    have hcount := hs.count
    simp only [hpc] at hsum ⊢
    change _ + s.left i = _ + (s.left i - 1) at hsum
    omega
  case printed => exact hs.printed

theorem unlock (hs : Inv rounds s) (hpc : s.pc i = .unlock) :
    Inv rounds { s with
      mutex := none
      pc := Function.update s.pc i .lock
      left := Function.update s.left i (s.left i - 1) } := by
  have hi : s.pc i ≠ .lock := by
    rw [hpc]
    decide
  constructor
  case inside =>
    refine hs.inside.leave (fun h ↦ by cases h) fun j hj ↦ ?_
    simp only [hs.mutex_of_inside hi, Option.some_inj, reduceCtorEq, false_iff]
    exact Ne.symm hj
  case left =>
    intro j hj
    by_cases hji : j = i
    · simp only [hji, Function.update_self, ne_eq, not_true_eq_false] at hj
    · simp only [Function.update_of_ne hji] at hj ⊢
      exact hs.left j hj
  case load => exact load_update (fun _ hj ↦ hs.alone hi hj) fun _ h ↦ by cases h
  case count =>
    have hsame : ∀ j, todo (Function.update s.pc i .lock j)
        (Function.update s.left i (s.left i - 1) j) = todo (s.pc j) (s.left j) := by
      intro j
      by_cases hji : j = i
      · simp only [hji, Function.update_self, hpc, todo]
      · simp only [Function.update_of_ne hji]
    simp only [hsame]
    exact hs.count
  case nonneg => exact hs.nonneg
  case le => exact hs.le
  case printed => exact hs.printed

theorem step (hs : Inv rounds s) (h : MutexAdd.step s a = some t) : Inv rounds t := by
  cases a with
  | lock i =>
    obtain ⟨⟨hpc, hleft, hmutex⟩, rfl⟩ := guarded_eq_some.mp h
    exact hs.lock hpc hleft hmutex
  | load i =>
    obtain ⟨hpc, rfl⟩ := guarded_eq_some.mp h
    exact hs.move (by rw [hpc]; decide) (fun h ↦ by cases h) (fun _ h ↦ by cases h; rfl)
      (by rw [hpc]; rfl)
  | store i =>
    rw [MutexAdd.step] at h
    split at h
    · next num hpc =>
      obtain ⟨n, hn, rfl⟩ := Option.map_eq_some_iff.mp h
      obtain ⟨⟨-, hle⟩, rfl⟩ := toOption_checkInt.mp hn
      exact hs.store hpc hle
    · cases h
  | unlock i =>
    obtain ⟨hpc, rfl⟩ := guarded_eq_some.mp h
    exact hs.unlock hpc
  | print =>
    obtain ⟨⟨hout, -⟩, rfl⟩ := guarded_eq_some.mp h
    refine ⟨hs.inside, hs.left, hs.load, hs.nonneg, hs.le, hs.count, fun num hnum ↦ ?_⟩
    have hnone : ∀ i, todo (s.pc i) (s.left i) = 0 := by
      intro i
      rw [(hout i).1, (hout i).2, todo]
      exact fun h ↦ by cases h
    have hcount := hs.count
    simp only [hnone, Finset.sum_const_zero, Nat.cast_zero, add_zero] at hcount
    rw [← Option.some_inj.mp hnum, hcount]

/-- Where no thread can make a step, `main` has printed. -/
theorem printed_of_stuck (hs : Inv rounds s) (hstuck : ∀ a, MutexAdd.step s a = none)
    (hmax : ((Fintype.card ι * rounds : ℕ) : ℤ) ≤ intMax) :
    s.printed = some ((Fintype.card ι * rounds : ℕ) : ℤ) := by
  have hgo : ∀ a t, MutexAdd.step s a ≠ some t := by
    intro a t h
    rw [hstuck a] at h
    cases h
  have hout : ∀ i, s.pc i = .lock := by
    intro i
    cases hpc : s.pc i with
    | lock => rfl
    | load => exact absurd (guarded_of hpc _) (hgo (.load i) _)
    | unlock => exact absurd (guarded_of hpc _) (hgo (.unlock i) _)
    | store num =>
      -- the round that is about to be counted keeps `NUM` below its maximum
      exfalso
      have hi : s.pc i ≠ .lock := by
        rw [hpc]
        exact fun h ↦ by cases h
      have htodo : todo (s.pc i) (s.left i) = s.left i := by
        rw [hpc, todo]
        exact fun h ↦ by cases h
      have hsum : s.left i ≤ ∑ j, todo (s.pc j) (s.left j) :=
        htodo ▸ Finset.single_le_sum (f := fun j ↦ todo (s.pc j) (s.left j))
          (fun _ _ ↦ Nat.zero_le _) (Finset.mem_univ i)
      have hleft := hs.left i hi
      have hcount := hs.count
      have hnonneg := hs.nonneg
      have hnum := hs.load i num hpc
      have hok : (checkInt (num + 1)).toOption = some (num + 1) :=
        toOption_checkInt.mpr ⟨⟨by rw [intMin]; omega, by omega⟩, rfl⟩
      have hstore := hstuck (.store i)
      simp only [MutexAdd.step, hpc, hok, Option.map_some, reduceCtorEq] at hstore
  have hmutex : s.mutex = none := by
    cases hheld : s.mutex with
    | none => rfl
    | some i => exact absurd (hout i) ((hs.inside i).mp hheld)
  have hleft : ∀ i, s.left i = 0 := by
    intro i
    by_contra hne
    exact hgo (.lock i) _ (guarded_of ⟨hout i, Nat.pos_of_ne_zero hne, hmutex⟩ _)
  cases hprinted : s.printed with
  | none => exact absurd (guarded_of ⟨fun i ↦ ⟨hout i, hleft i⟩, hprinted⟩ _) (hgo .print _)
  | some num => rw [hs.printed num hprinted]

end Inv

theorem inv_of_run {labels : List (Label ι)} (hrun : run step (init rounds) labels = some s) :
    Inv rounds s :=
  invariant_of_run (fun _ _ _ hs h ↦ hs.step h) (inv_init rounds) hrun

/-! ## The program comes to an end -/

/-- What a thread still has to do: four steps a round. -/
def steps (pc : Pc) (left : ℕ) : ℕ :=
  match pc with
  | .lock => 4 * left
  | .load => 4 * (left - 1) + 3
  | .store _ => 4 * (left - 1) + 2
  | .unlock => 4 * (left - 1) + 1

/-- `main` is the thread `none`. -/
def remaining (s : State ι) : Option ι → ℕ
  | none => if s.printed = none then 1 else 0
  | some i => steps (s.pc i) (s.left i)

omit [DecidableEq ι] [Fintype ι] in
theorem remaining_some (s : State ι) (i : ι) :
    remaining s (some i) = steps (s.pc i) (s.left i) := rfl

theorem remaining_of_step (h : step s a = some t) :
    ∃ i, remaining t i < remaining s i ∧ ∀ j, j ≠ i → remaining t j = remaining s j := by
  have hothers : ∀ {i : ι} {pc : ι → Pc} {left : ι → ℕ} {mutex num},
      (∀ j, j ≠ i → pc j = s.pc j) → (∀ j, j ≠ i → left j = s.left j) → ∀ j, j ≠ some i →
        remaining ⟨mutex, num, pc, left, s.printed⟩ j = remaining s j := by
    rintro i pc left mutex num hpc hleft (- | j) hj
    · rfl
    · have hji : j ≠ i := fun h ↦ hj (congrArg some h)
      rw [remaining_some, remaining_some]
      simp only [hpc j hji, hleft j hji]
  cases a with
  | lock i =>
    obtain ⟨⟨hpc, hleft, -⟩, rfl⟩ := guarded_eq_some.mp h
    refine ⟨some i, ?_, hothers (fun j hj ↦ Function.update_of_ne hj _ _) fun _ _ ↦ rfl⟩
    simp only [remaining_some, Function.update_self, hpc, steps]
    omega
  | load i =>
    obtain ⟨hpc, rfl⟩ := guarded_eq_some.mp h
    refine ⟨some i, ?_, hothers (fun j hj ↦ Function.update_of_ne hj _ _) fun _ _ ↦ rfl⟩
    simp only [remaining_some, Function.update_self, hpc, steps]
    omega
  | store i =>
    rw [step] at h
    split at h
    · next num hpc =>
      obtain ⟨n, -, rfl⟩ := Option.map_eq_some_iff.mp h
      refine ⟨some i, ?_, hothers (fun j hj ↦ Function.update_of_ne hj _ _) fun _ _ ↦ rfl⟩
      simp only [remaining_some, Function.update_self, hpc, steps]
      omega
    · cases h
  | unlock i =>
    obtain ⟨hpc, rfl⟩ := guarded_eq_some.mp h
    refine ⟨some i, ?_, hothers (fun j hj ↦ Function.update_of_ne hj _ _)
      fun j hj ↦ Function.update_of_ne hj _ _⟩
    simp only [remaining_some, Function.update_self, hpc, steps]
    omega
  | print =>
    obtain ⟨⟨-, hnone⟩, rfl⟩ := guarded_eq_some.mp h
    refine ⟨none, ?_, ?_⟩
    · simp only [remaining, hnone, if_true, reduceCtorEq, if_false, zero_lt_one]
    · rintro (- | j) hj
      · exact absurd rfl hj
      · rfl

theorem length_run_le {labels : List (Label ι)} (hrun : run step (init rounds) labels = some s) :
    labels.length ≤ 4 * (Fintype.card ι * rounds) + 1 := by
  have hsum : ∑ i, remaining (init rounds : State ι) i = 4 * (Fintype.card ι * rounds) + 1 := by
    have hthread : ∀ i : ι, remaining (init rounds : State ι) (some i) = 4 * rounds := fun _ ↦ rfl
    have hmain : remaining (init rounds : State ι) none = 1 := rfl
    rw [Fintype.sum_option, hmain]
    simp only [hthread, Finset.sum_const, Finset.card_univ, smul_eq_mul]
    ring
  exact hsum ▸ length_le_sum_of_decreasing (fun _ _ _ h ↦ remaining_of_step h) hrun

/-- **All rounds are counted.** Where the number of all rounds is an `int`, the program comes to an
end whatever the order of the steps, and what `main` prints at the end is that number. -/
theorem printed_eq_all_rounds (rounds : ℕ)
    (hmax : ((Fintype.card ι * rounds : ℕ) : ℤ) ≤ intMax) (labels : List (Label ι)) (s : State ι)
    (hrun : run step (init rounds) labels = some s) :
    labels.length ≤ 4 * (Fintype.card ι * rounds) + 1 ∧
      ((∀ a, step s a = none) → s.printed = some ((Fintype.card ι * rounds : ℕ) : ℤ)) :=
  ⟨length_run_le hrun, fun hstuck ↦ (inv_of_run hrun).printed_of_stuck hstuck hmax⟩

/-- A schedule of two threads with one round each. -/
def oneRoundEach : List (Label (Fin 2)) :=
  [.lock 1, .load 1, .store 1, .unlock 1, .lock 0, .load 0, .store 0, .unlock 0, .print]

theorem two_printed : ∃ s, run step (init 1) oneRoundEach = some s ∧ (∀ a, step s a = none) ∧
    s.printed = some 2 := by
  obtain ⟨s, hs⟩ : ∃ s, run step (init 1) oneRoundEach = some s := ⟨_, rfl⟩
  have hstuck : ∀ a, step s a = none := by
    obtain rfl := Option.some_inj.mp hs
    rintro (i | i | i | i | -)
    · exact if_neg fun h ↦ absurd h.2.1 (by revert i; decide)
    · exact if_neg fun h ↦ absurd h (by revert i; decide)
    · revert i
      decide
    · exact if_neg fun h ↦ absurd h (by revert i; decide)
    · rfl
  exact ⟨s, hs, hstuck, (printed_eq_all_rounds 1 (by decide) _ s hs).2 hstuck⟩

end MutexAdd

end CodeOnLinux
