import CodeOnLinux.Foundation.Transition
import Mathlib.Algebra.BigOperators.Ring.Finset
import Mathlib.Algebra.Order.BigOperators.Group.Finset

/-!
# Threads and locks

A read/write lock is a value that cannot be in a wrong state: where a writer has it, no reader
does (`RwLock.exclusive`). A mutex is the `Option` of its holder.

Who is inside a lock can also be told from the program counters of the threads. That the two agree
(`Inside`) is kept by all moves of one thread: into the lock, out of it, and on between.

A step of a program with threads is a step of one of them. Where it brings this one nearer to its
end and leaves the others where they are, all runs are bounded (`length_le_sum_of_decreasing`).
-/

namespace CodeOnLinux

/-- A read/write lock. -/
structure RwLock (ρ ω : Type*) where
  /-- The threads that have it for reading. -/
  readers : Finset ρ
  /-- The thread that has it for writing. -/
  writer : Option ω
  /-- Not both. -/
  exclusive : ∀ j, writer = some j → readers = ∅

namespace RwLock

variable {ρ ω : Type*} {l m : RwLock ρ ω} {i : ρ} {j : ω}

/-- A lock that nobody has. -/
def free : RwLock ρ ω := ⟨∅, none, fun _ _ ↦ rfl⟩

/-- Where a reader has the lock, no writer does. -/
theorem writer_eq_none_of_mem (h : i ∈ l.readers) : l.writer = none := by
  cases hw : l.writer with
  | none => rfl
  | some j =>
    rw [l.exclusive j hw] at h
    cases h

variable [DecidableEq ρ]

def rdlock (l : RwLock ρ ω) (i : ρ) : Option (RwLock ρ ω) :=
  if l.writer.isNone then some ⟨insert i l.readers, none, fun _ h ↦ by cases h⟩ else none

def rdunlock (l : RwLock ρ ω) (i : ρ) : RwLock ρ ω :=
  ⟨l.readers.erase i, l.writer, fun j h ↦ by rw [l.exclusive j h, Finset.erase_empty]⟩

def wrlock (l : RwLock ρ ω) (j : ω) : Option (RwLock ρ ω) :=
  if l.writer.isNone ∧ l.readers = ∅ then some ⟨∅, some j, fun _ _ ↦ rfl⟩ else none

def wrunlock (l : RwLock ρ ω) : RwLock ρ ω := ⟨l.readers, none, fun _ h ↦ by cases h⟩

theorem rdlock_eq_some (h : l.rdlock i = some m) :
    l.writer = none ∧ m.readers = insert i l.readers ∧ m.writer = none := by
  rw [rdlock, Option.ite_none_right_eq_some, Option.some_inj, Option.isNone_iff_eq_none] at h
  obtain ⟨hnone, rfl⟩ := h
  exact ⟨hnone, rfl, rfl⟩

theorem wrlock_eq_some (h : l.wrlock j = some m) :
    l.writer = none ∧ l.readers = ∅ ∧ m.readers = ∅ ∧ m.writer = some j := by
  rw [wrlock, Option.ite_none_right_eq_some, Option.some_inj, Option.isNone_iff_eq_none] at h
  obtain ⟨⟨hnone, hempty⟩, rfl⟩ := h
  exact ⟨hnone, hempty, rfl, rfl⟩

theorem exists_rdlock (h : l.writer = none) (i : ρ) : ∃ m, l.rdlock i = some m :=
  ⟨_, if_pos (by rw [h, Option.isNone_none])⟩

theorem exists_wrlock (h : l.writer = none) (hr : l.readers = ∅) (j : ω) :
    ∃ m, l.wrlock j = some m :=
  ⟨_, if_pos ⟨by rw [h, Option.isNone_none], hr⟩⟩

end RwLock

/-! ## Inside and outside -/

/-- The threads in `p` are those whose program counter is not `out`. -/
def Inside {ι π : Type*} (out : π) (p : ι → Prop) (pc : ι → π) : Prop := ∀ i, p i ↔ pc i ≠ out

namespace Inside

variable {ι π : Type*} [DecidableEq ι] {out x : π} {p q : ι → Prop} {pc : ι → π} {i : ι}

theorem enter (h : Inside out p pc) (hx : x ≠ out) (hi : q i) (hq : ∀ k, k ≠ i → (q k ↔ p k)) :
    Inside out q (Function.update pc i x) := by
  intro k
  by_cases hk : k = i
  · rw [hk, Function.update_self]
    exact iff_of_true hi hx
  · rw [Function.update_of_ne hk, hq k hk, h k]

theorem move (h : Inside out p pc) (hi : pc i ≠ out) (hx : x ≠ out) :
    Inside out p (Function.update pc i x) :=
  h.enter hx ((h i).mpr hi) fun _ _ ↦ Iff.rfl

theorem leave (h : Inside out p pc) (hi : ¬q i) (hq : ∀ k, k ≠ i → (q k ↔ p k)) :
    Inside out q (Function.update pc i out) := by
  intro k
  by_cases hk : k = i
  · rw [hk, Function.update_self]
    exact iff_of_false hi (not_not_intro rfl)
  · rw [Function.update_of_ne hk, hq k hk, h k]

end Inside

/-! ## Threads that come to an end -/

section

variable {σ α ι : Type*} [Fintype ι] {step : σ → α → Option σ}

/-- What each thread still has to do bounds what they do together. -/
theorem length_le_sum_of_decreasing {μ : σ → ι → ℕ}
    (hμ : ∀ s a t, step s a = some t → ∃ i, μ t i < μ s i ∧ ∀ j, j ≠ i → μ t j = μ s j)
    {as : List α} {s t : σ} (hrun : Transition.run step s as = some t) :
    as.length ≤ ∑ i, μ s i := by
  have hdecr : ∀ s a t, True → step s a = some t → ∑ i, μ t i < ∑ i, μ s i := by
    intro s a t _ h
    obtain ⟨i, hi, hothers⟩ := hμ s a t h
    refine Finset.sum_lt_sum (fun j _ ↦ ?_) ⟨i, Finset.mem_univ i, hi⟩
    by_cases hj : j = i
    · exact hj ▸ hi.le
    · exact (hothers j hj).le
  have hbound := Transition.length_add_le_of_decreasing (I := fun _ ↦ True)
    (fun _ _ _ _ _ ↦ trivial) hdecr trivial hrun
  exact (Nat.le_add_right _ _).trans hbound

/-- Two sums that differ in the part of one thread. -/
theorem sum_add_eq_sum_add [DecidableEq ι] {f g : ι → ℕ} (i : ι)
    (h : ∀ j, j ≠ i → f j = g j) : ∑ j, f j + g i = ∑ j, g j + f i := by
  have hrest : ∑ j ∈ {i}ᶜ, f j = ∑ j ∈ {i}ᶜ, g j :=
    Finset.sum_congr rfl fun j hj ↦ h j (by simpa using hj)
  rw [Fintype.sum_eq_add_sum_compl i f, Fintype.sum_eq_add_sum_compl i g, hrest]
  omega

end

end CodeOnLinux
