import CodeOnLinux.Foundation.Merge
import CodeOnLinux.Foundation.Transition

/-!
# Independent components

Many copies of one machine run side by side, and each label says which copy it is for. A run of all
is a run of each on its own part of the labels, in whatever order the parts were put together.
-/

namespace CodeOnLinux

namespace Transition

open Merge

variable {ι σ α : Type*} [DecidableEq ι]

/-- A step of the copy that the label is for. -/
def stepAt (step : σ → α → Option σ) (s : ι → σ) (label : ι × α) : Option (ι → σ) :=
  (step (s label.1) label.2).map (Function.update s label.1)

variable {step : σ → α → Option σ} {s t : ι → σ} {labels : List (ι × α)}

theorem stepAt_eq_some {i : ι} {a : α} :
    stepAt step s (i, a) = some t ↔ ∃ u, step (s i) a = some u ∧ Function.update s i u = t := by
  rw [stepAt, Option.map_eq_some_iff]

/-- **Side by side**: each copy makes its own run. -/
theorem run_stepAt_eq_some : run (stepAt step) s labels = some t ↔
    ∀ i, run step (s i) (part i labels) = some (t i) := by
  induction labels generalizing s with
  | nil =>
    simp only [run_nil, part_nil, Option.some_inj]
    exact funext_iff
  | cons label labels ih =>
    obtain ⟨j, a⟩ := label
    rw [run_cons_eq_some]
    constructor
    · rintro ⟨u, hu, htail⟩ i
      obtain ⟨v, hv, rfl⟩ := stepAt_eq_some.mp hu
      have hi := ih.mp htail i
      by_cases hij : i = j
      · subst hij
        rw [Function.update_self] at hi
        rw [part_cons_self]
        exact run_cons_of hv hi
      · rw [Function.update_of_ne hij] at hi
        rw [part_cons_of_ne (Ne.symm hij)]
        exact hi
    · intro h
      have hj := h j
      rw [part_cons_self] at hj
      obtain ⟨v, hv, hrest⟩ := run_cons_eq_some.mp hj
      refine ⟨_, stepAt_eq_some.mpr ⟨v, hv, rfl⟩, ih.mpr fun i ↦ ?_⟩
      by_cases hij : i = j
      · subst hij
        rw [Function.update_self]
        exact hrest
      · have hi := h i
        rw [part_cons_of_ne (Ne.symm hij)] at hi
        rw [Function.update_of_ne hij]
        exact hi

end Transition

end CodeOnLinux
