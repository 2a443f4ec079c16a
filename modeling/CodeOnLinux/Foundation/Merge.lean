import Mathlib.Data.List.Basic
import Mathlib.Tactic.Common

/-!
# Merging sequences

Several parties put elements into one sequence, each its own in order. What comes out is a merge of
what they put in: one can say of each element whose it is, so that everyone finds his own sequence
(`IsMerge`). A merge grows at its end by the next element of one of the parties.
-/

namespace CodeOnLinux

namespace Merge

variable {ι α : Type*} [DecidableEq ι]

/-- The part of one party in a sequence that says of each element whose it is. -/
def part (i : ι) (w : List (ι × α)) : List α := (w.filter fun p ↦ p.1 = i).map Prod.snd

/-- `zs` was put together from what the sequences `xs i` have in front of `rest i`. -/
def Merging (xs rest : ι → List α) (zs : List α) : Prop :=
  ∃ w : List (ι × α), w.map Prod.snd = zs ∧ ∀ i, part i w ++ rest i = xs i

/-- `zs` was put together from the sequences `xs i`. -/
def IsMerge (xs : ι → List α) (zs : List α) : Prop :=
  ∃ w : List (ι × α), w.map Prod.snd = zs ∧ ∀ i, part i w = xs i

variable {i j : ι} {a : α} {w : List (ι × α)} {xs rest : ι → List α} {zs tail : List α}

@[simp] theorem part_nil (i : ι) : part i ([] : List (ι × α)) = [] := rfl

@[simp] theorem part_cons_self : part i ((i, a) :: w) = a :: part i w := by
  rw [part, List.filter_cons, if_pos (decide_eq_true rfl), List.map_cons, part]

theorem part_cons_of_ne (h : j ≠ i) : part i ((j, a) :: w) = part i w := by
  rw [part, List.filter_cons, if_neg (by simpa using h), part]

theorem part_append (i : ι) (v w : List (ι × α)) : part i (v ++ w) = part i v ++ part i w := by
  rw [part, List.filter_append, List.map_append, part, part]

/-- Where a part is cut in two, the sequence can be cut too. -/
theorem exists_append_of_part {u v : List α} (h : part i w = u ++ v) :
    ∃ w₁ w₂, w = w₁ ++ w₂ ∧ part i w₁ = u ∧ part i w₂ = v := by
  obtain ⟨p, q, hpq, hu, hv⟩ := List.map_eq_append_iff.mp h
  obtain ⟨w₁, w₂, hw, rfl, rfl⟩ := List.filter_eq_append_iff.mp hpq
  exact ⟨w₁, w₂, hw, hu, hv⟩

theorem part_mono {v : List (ι × α)} (h : v <+: w) (i : ι) : part i v <+: part i w :=
  (h.filter _).map _

/-- Before anything was put in, everything is to come. -/
theorem merging_nil (xs : ι → List α) : Merging xs xs [] := ⟨[], rfl, fun _ ↦ rfl⟩

/-- **One more element**, the next one of party `j`. -/
theorem Merging.snoc (h : Merging xs rest zs) (hj : rest j = a :: tail) :
    Merging xs (Function.update rest j tail) (zs ++ [a]) := by
  obtain ⟨w, rfl, hw⟩ := h
  refine ⟨w ++ [(j, a)], by rw [List.map_append]; rfl, fun i ↦ ?_⟩
  rw [part_append, ← hw i]
  by_cases hi : i = j
  · rw [hi, part_cons_self, part_nil, Function.update_self, hj, List.append_assoc]
    rfl
  · rw [part_cons_of_ne (Ne.symm hi), part_nil, List.append_nil, Function.update_of_ne hi]

/-- When nothing is to come, what came out is a merge. -/
theorem Merging.isMerge (h : Merging xs rest zs) (hrest : ∀ i, rest i = []) : IsMerge xs zs := by
  obtain ⟨w, hzs, hw⟩ := h
  refine ⟨w, hzs, fun i ↦ ?_⟩
  rw [← hw i, hrest i, List.append_nil]

/-- One more element, of party `j`. -/
theorem IsMerge.snoc (h : IsMerge xs zs) (j : ι) (a : α) :
    IsMerge (Function.update xs j (xs j ++ [a])) (zs ++ [a]) := by
  obtain ⟨w, rfl, hw⟩ := h
  refine ⟨w ++ [(j, a)], by rw [List.map_append]; rfl, fun i ↦ ?_⟩
  rw [part_append, hw i]
  by_cases hi : i = j
  · rw [hi, part_cons_self, part_nil, Function.update_self]
  · rw [part_cons_of_ne (Ne.symm hi), part_nil, List.append_nil, Function.update_of_ne hi]

end Merge

end CodeOnLinux
