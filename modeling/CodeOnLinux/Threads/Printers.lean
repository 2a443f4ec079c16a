import CodeOnLinux.Foundation.Merge
import CodeOnLinux.Foundation.Threads

/-!
# Printing under a semaphore: `semaphore.c`

Each thread calls `printer` with its own string, and the loop in `printer` takes the semaphore for
one character at a time. So the output is a merge of the strings, and since nothing else orders the
threads, every merge is possible (`printed_iff_isMerge`): the semaphore keeps the characters of a
string in order and loses none, and does no more. No thread is ever kept from going on for good.
-/

namespace CodeOnLinux

namespace Printers

open Transition Merge

/-! ## The program -/

/-- Where a thread is in the loop: at `sem_wait`, or, with the semaphore, at `putchar` or at
`sem_post`. -/
inductive Pc
  | wait
  | put
  | post
  deriving DecidableEq

/-- The threads `ι`, each with a string. -/
structure State (ι α : Type*) where
  /-- The semaphore. -/
  sem : ℕ
  /-- What each thread does next. -/
  pc : ι → Pc
  /-- What `str` points to in each thread. -/
  rest : ι → List α
  /-- What was printed. -/
  printed : List α

inductive Label (ι : Type*)
  | wait (i : ι)
  /-- `putchar(*str); str++;` -/
  | put (i : ι)
  | post (i : ι)

variable {ι α : Type*}

/-- `sem_init(&sem, 0, 1)` -/
def init (str : ι → List α) : State ι α where
  sem := 1
  pc _ := .wait
  rest := str
  printed := []

variable [DecidableEq ι]

def step (s : State ι α) : Label ι → Option (State ι α)
  | .wait i => guarded (s.pc i = .wait ∧ (s.rest i).isEmpty = false ∧ 0 < s.sem)
      { s with sem := s.sem - 1, pc := Function.update s.pc i .put }
  | .put i =>
    match s.rest i with
    | [] => none
    | c :: str => guarded (s.pc i = .put)
        { s with
          pc := Function.update s.pc i .post
          rest := Function.update s.rest i str
          printed := s.printed ++ [c] }
  | .post i => guarded (s.pc i = .post)
      { s with sem := s.sem + 1, pc := Function.update s.pc i .wait }

/-- All threads have returned from `printer`. -/
def Finished (s : State ι α) : Prop := ∀ i, s.pc i = .wait ∧ s.rest i = []

/-! ## The threads take turns -/

variable {str : ι → List α} {s t : State ι α} {a : Label ι} {i : ι}

/-- The semaphore is free and all threads are in front of it, or one thread has it and all others
are in front of it; a thread that is about to print has something to print. -/
structure Inv (str : ι → List α) (s : State ι α) : Prop where
  /-- The semaphore is free and all wait, or one thread has it and all others wait. -/
  turn : (s.sem = 1 ∧ ∀ i, s.pc i = .wait) ∨
    s.sem = 0 ∧ ∃ i, s.pc i ≠ .wait ∧ ∀ j, j ≠ i → s.pc j = .wait
  /-- A thread that is about to print has something to print. -/
  put : ∀ i, s.pc i = .put → s.rest i ≠ []
  /-- What was printed is a merge of what each thread has printed. -/
  merging : Merging str s.rest s.printed

theorem inv_init (str : ι → List α) : Inv str (init str) where
  turn := Or.inl ⟨rfl, fun _ ↦ rfl⟩
  put i h := by cases h
  merging := merging_nil str

theorem Inv.wait_of_sem (hs : Inv str s) (hsem : 0 < s.sem) : s.sem = 1 ∧ ∀ i, s.pc i = .wait := by
  rcases hs.turn with h | ⟨hzero, -⟩
  · exact h
  · omega

/-- The thread that has the semaphore is the only one. -/
theorem Inv.alone (hs : Inv str s) (hi : s.pc i ≠ .wait) :
    s.sem = 0 ∧ ∀ j, j ≠ i → s.pc j = .wait := by
  rcases hs.turn with ⟨-, hwait⟩ | ⟨hsem, k, -, hothers⟩
  · exact absurd (hwait i) hi
  · obtain rfl : i = k := by
      by_contra hne
      exact hi (hothers i hne)
    exact ⟨hsem, hothers⟩

theorem Inv.step (hs : Inv str s) (h : Printers.step s a = some t) : Inv str t := by
  cases a with
  | wait i =>
    obtain ⟨⟨-, hrest, hsem⟩, rfl⟩ := guarded_eq_some.mp h
    obtain ⟨hone, hwait⟩ := hs.wait_of_sem hsem
    refine ⟨Or.inr ⟨?_, i, ?_, fun j hj ↦ ?_⟩, fun j hput ↦ ?_, hs.merging⟩
    · simp only [hone]
    · simp only [Function.update_self]
      decide
    · simp only [Function.update_of_ne hj, hwait j]
    · by_cases hj : j = i
      · subst hj
        simpa using hrest
      · simp only [Function.update_of_ne hj] at hput
        exact hs.put j hput
  | put i =>
    rw [Printers.step] at h
    split at h
    · cases h
    · next c tail hrest =>
      obtain ⟨hpc, rfl⟩ := guarded_eq_some.mp h
      obtain ⟨hsem, hothers⟩ := hs.alone (i := i) (by rw [hpc]; decide)
      refine ⟨Or.inr ⟨hsem, i, ?_, fun j hj ↦ ?_⟩, fun j hput ↦ ?_, hs.merging.snoc hrest⟩
      · simp only [Function.update_self]
        decide
      · simp only [Function.update_of_ne hj, hothers j hj]
      · by_cases hj : j = i
        · subst hj
          simp only [Function.update_self] at hput
          cases hput
        · simp only [Function.update_of_ne hj] at hput ⊢
          exact hs.put j hput
  | post i =>
    obtain ⟨hpc, rfl⟩ := guarded_eq_some.mp h
    obtain ⟨hsem, hothers⟩ := hs.alone (i := i) (by rw [hpc]; decide)
    have hwait : ∀ j, Function.update s.pc i .wait j = .wait := by
      intro j
      by_cases hj : j = i
      · rw [hj, Function.update_self]
      · rw [Function.update_of_ne hj, hothers j hj]
    refine ⟨Or.inl ⟨?_, hwait⟩, fun j hput ↦ ?_, hs.merging⟩
    · simp only [hsem]
    · exact absurd ((hwait j).symm.trans hput) (by decide)

theorem inv_of_run {labels : List (Label ι)} (hrun : run step (init str) labels = some s) :
    Inv str s :=
  invariant_of_run (fun _ _ _ hs h ↦ hs.step h) (inv_init str) hrun

/-! ## No thread is kept from going on -/

/-- Where no thread can make a step, all have returned. -/
theorem Inv.finished (hs : Inv str s) (hstuck : ∀ a, Printers.step s a = none) : Finished s := by
  rcases hs.turn with ⟨hsem, hwait⟩ | ⟨-, i, hi, -⟩
  · intro i
    refine ⟨hwait i, ?_⟩
    by_contra hrest
    have hgo : Printers.step s (.wait i) = some _ :=
      guarded_of ⟨hwait i, List.isEmpty_eq_false_iff.mpr hrest, by rw [hsem]; exact one_pos⟩ _
    exact absurd ((hstuck _).symm.trans hgo) (by simp)
  · -- the thread that has the semaphore can go on
    exfalso
    cases hpc : s.pc i with
    | wait => exact hi hpc
    | put =>
      obtain ⟨c, tail, hrest⟩ := List.exists_cons_of_ne_nil (hs.put i hpc)
      have hnone := hstuck (.put i)
      rw [Printers.step, hrest] at hnone
      simp only [guarded, if_pos hpc, reduceCtorEq] at hnone
    | post =>
      have hgo : Printers.step s (.post i) = some _ := guarded_of hpc _
      exact absurd ((hstuck _).symm.trans hgo) (by simp)

theorem Finished.stuck (hs : Finished s) (a : Label ι) : step s a = none := by
  cases a with
  | wait i => exact if_neg fun h ↦ absurd h.2.1 (by rw [(hs i).2]; simp)
  | put i => rw [step, (hs i).2]
  | post i => exact if_neg fun h ↦ absurd ((hs i).1.symm.trans h) (by decide)

/-- What a thread still has to do: three steps for a character. -/
def steps (pc : Pc) (rest : List α) : ℕ :=
  match pc with
  | .wait => 3 * rest.length
  | .put => 3 * rest.length - 1
  | .post => 3 * rest.length + 1

/-- A step of thread `i` is one step less for it, and no other thread has more to do. -/
theorem steps_of_step (h : step s a = some t) :
    ∃ i, steps (t.pc i) (t.rest i) < steps (s.pc i) (s.rest i) ∧
      ∀ j, j ≠ i → steps (t.pc j) (t.rest j) = steps (s.pc j) (s.rest j) := by
  cases a with
  | wait i =>
    obtain ⟨⟨hpc, hrest, -⟩, rfl⟩ := guarded_eq_some.mp h
    have hpos := List.length_pos_iff.mpr (List.isEmpty_eq_false_iff.mp hrest)
    refine ⟨i, ?_, fun j hj ↦ by simp only [Function.update_of_ne hj]⟩
    simp only [Function.update_self, hpc, steps]
    omega
  | put i =>
    rw [step] at h
    split at h
    · cases h
    · next c tail hrest =>
      obtain ⟨hpc, rfl⟩ := guarded_eq_some.mp h
      refine ⟨i, ?_, fun j hj ↦ by simp only [Function.update_of_ne hj]⟩
      simp only [Function.update_self, hpc, hrest, steps, List.length_cons]
      omega
  | post i =>
    obtain ⟨hpc, rfl⟩ := guarded_eq_some.mp h
    refine ⟨i, ?_, fun j hj ↦ by simp only [Function.update_of_ne hj]⟩
    simp only [Function.update_self, hpc, steps]
    omega

theorem length_run_le [Fintype ι] {labels : List (Label ι)}
    (hrun : run step (init str) labels = some s) : labels.length ≤ 3 * ∑ i, (str i).length := by
  calc labels.length ≤ ∑ i, steps Pc.wait (str i) :=
      length_le_sum_of_decreasing (μ := fun s i ↦ steps (s.pc i) (s.rest i))
        (fun _ _ _ h ↦ steps_of_step h) hrun
    _ = 3 * ∑ i, (str i).length := (Finset.mul_sum _ _ _).symm

/-! ## What is printed -/

/-- With the semaphore free a thread can take it, print its next character and give it back. -/
theorem run_print {c : α} {tail : List α} (hsem : s.sem = 1) (hpc : s.pc i = .wait)
    (hrest : s.rest i = c :: tail) :
    run step s [.wait i, .put i, .post i] = some { s with
      rest := Function.update s.rest i tail
      printed := s.printed ++ [c] } := by
  have hwait : step s (.wait i) = some _ := guarded_of ⟨hpc, by rw [hrest]; rfl, by omega⟩ _
  refine run_cons_of hwait ?_
  rw [run, step]
  simp only [hrest]
  rw [guarded_of (Function.update_self i Pc.put s.pc), Option.bind_some, run, step,
    guarded_of (Function.update_self (β := fun _ ↦ Pc) i Pc.post _), Option.bind_some, run_nil]
  congr 2
  · simp only [hsem]
  · rw [Function.update_idem, Function.update_idem, ← hpc, Function.update_eq_self]

/-- One after the other, the characters of `w` can be printed by the threads they are tagged
with. -/
theorem exists_run_of_merge (w : List (ι × α)) : ∀ s : State ι α, s.sem = 1 →
    (∀ i, s.pc i = .wait) → (∀ i, part i w = s.rest i) →
    ∃ labels t, run step s labels = some t ∧ Finished t ∧
      t.printed = s.printed ++ w.map Prod.snd := by
  induction w with
  | nil =>
    intro s _ hpc hrest
    exact ⟨[], s, rfl, fun i ↦ ⟨hpc i, (hrest i).symm⟩, (List.append_nil _).symm⟩
  | cons p w ih =>
    intro s hsem hpc hrest
    obtain ⟨i, c⟩ := p
    have hi : s.rest i = c :: part i w := by rw [← hrest i, part_cons_self]
    have hothers : ∀ j, part j w = Function.update s.rest i (part i w) j := by
      intro j
      by_cases hj : j = i
      · rw [hj, Function.update_self]
      · rw [Function.update_of_ne hj, ← hrest j, part_cons_of_ne (Ne.symm hj)]
    obtain ⟨labels, t, hrun, hfin, hprinted⟩ :=
      ih { s with rest := Function.update s.rest i (part i w), printed := s.printed ++ [c] }
        hsem hpc hothers
    refine ⟨[.wait i, .put i, .post i] ++ labels, t, ?_, hfin, ?_⟩
    · exact run_append_eq_some.mpr ⟨_, run_print hsem (hpc i) hi, hrun⟩
    · rw [hprinted, List.map_cons, List.append_assoc]
      rfl

/-- **What the threads print together.** The threads always come to an end, whatever the order of
their steps; then all have returned, and the output is a merge of their strings. Every merge is the
output of some run. -/
theorem printed_iff_isMerge [Fintype ι] (str : ι → List α) :
    (∀ labels (s : State ι α), run step (init str) labels = some s →
      labels.length ≤ 3 * ∑ i, (str i).length ∧ ((∀ a, step s a = none) → Finished s)) ∧
    ∀ zs, (∃ labels s, run step (init str) labels = some s ∧ (∀ a, step s a = none) ∧
      s.printed = zs) ↔ IsMerge str zs := by
  refine ⟨fun labels s hrun ↦ ⟨length_run_le hrun, (inv_of_run hrun).finished⟩, fun zs ↦ ?_⟩
  constructor
  · rintro ⟨labels, s, hrun, hstuck, rfl⟩
    have hs := inv_of_run hrun
    exact hs.merging.isMerge fun i ↦ (hs.finished hstuck i).2
  · rintro ⟨w, rfl, hw⟩
    obtain ⟨labels, t, hrun, hfin, hprinted⟩ :=
      exists_run_of_merge w (init str) rfl (fun _ ↦ rfl) hw
    exact ⟨labels, t, hrun, hfin.stuck, hprinted⟩

end Printers

end CodeOnLinux
