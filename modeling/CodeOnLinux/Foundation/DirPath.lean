import Mathlib.Data.List.Infix
import Mathlib.Tactic

/-!
# Paths read component by component

A path is cut at the separators, and each component is a `Step`: an empty one and `.` stay where
they are, `..` goes up, any other name goes down. A position is the list of names that lead to it,
the innermost first, so `walk` is over when `..` would leave the directory it started in.

Whether it is depends on counts alone: along the walk, no more components may have gone up than
down (`walk_isSome_iff`).
-/

namespace CodeOnLinux

namespace DirPath

/-! ## Steps -/

inductive Step (N : Type)
  | stay
  | up
  | down (name : N)
  deriving DecidableEq

section

variable {N : Type}

/-- The position after a step, or `none` for a step up from the directory of the start. -/
def move : List N → Step N → Option (List N)
  | dir, .stay => some dir
  | [], .up => none
  | _ :: dir, .up => some dir
  | dir, .down name => some (name :: dir)

def walk : List N → List (Step N) → Option (List N)
  | dir, [] => some dir
  | dir, s :: steps => (move dir s).bind fun dir ↦ walk dir steps

def ups : List (Step N) → ℕ
  | [] => 0
  | .up :: steps => ups steps + 1
  | .stay :: steps => ups steps
  | .down _ :: steps => ups steps

def downs : List (Step N) → ℕ
  | [] => 0
  | .down _ :: steps => downs steps + 1
  | .stay :: steps => downs steps
  | .up :: steps => downs steps

/-- In every initial part of the walk, no more steps go up than `n` and those that go down. -/
def Covered (n : ℕ) (steps : List (Step N)) : Prop := ∀ l, l <+: steps → ups l ≤ n + downs l

theorem covered_cons {n : ℕ} {s : Step N} {steps : List (Step N)} :
    Covered n (s :: steps) ↔ ∀ l, l <+: steps → ups (s :: l) ≤ n + downs (s :: l) := by
  constructor
  · intro h l hl
    exact h (s :: l) (List.cons_prefix_cons.mpr ⟨rfl, hl⟩)
  · intro h l hl
    rcases List.prefix_cons_iff.mp hl with rfl | ⟨t, rfl, ht⟩
    · exact Nat.zero_le _
    · exact h t ht

theorem covered_stay {n : ℕ} {steps : List (Step N)} :
    Covered n (.stay :: steps) ↔ Covered n steps := covered_cons

theorem covered_down {n : ℕ} {name : N} {steps : List (Step N)} :
    Covered n (.down name :: steps) ↔ Covered (n + 1) steps := by
  rw [covered_cons, Covered]
  refine forall₂_congr fun l _ ↦ ?_
  rw [ups, downs, Nat.add_right_comm, Nat.add_assoc]

theorem covered_succ_up {n : ℕ} {steps : List (Step N)} :
    Covered (n + 1) (.up :: steps) ↔ Covered n steps := by
  rw [covered_cons, Covered]
  refine forall₂_congr fun l _ ↦ ?_
  rw [ups, downs, Nat.add_right_comm, Nat.add_le_add_iff_right]

theorem not_covered_zero_up {steps : List (Step N)} : ¬Covered 0 (.up :: steps) := fun h ↦
  absurd (h [.up] (List.cons_prefix_cons.mpr ⟨rfl, List.nil_prefix⟩)) (Nat.not_succ_le_zero 0)

/-- **A walk stays inside** if and only if its steps up are covered by those down. -/
theorem walk_isSome_iff (dir : List N) (steps : List (Step N)) :
    (walk dir steps).isSome ↔ Covered dir.length steps := by
  induction steps generalizing dir with
  | nil =>
    refine iff_of_true rfl fun l hl ↦ ?_
    rw [List.prefix_nil.mp hl]
    exact Nat.zero_le _
  | cons s steps ih =>
    match s, dir with
    | .stay, dir => exact (ih dir).trans covered_stay.symm
    | .down name, dir => exact (ih (name :: dir)).trans covered_down.symm
    | .up, [] => exact iff_of_false Bool.false_ne_true not_covered_zero_up
    | .up, _ :: dir => exact (ih dir).trans covered_succ_up.symm

end

/-! ## The components of a path -/

variable {α : Type} [DecidableEq α] (sep dot : α)

/-- How a component is read. -/
def stepOf (component : List α) : Step (List α) :=
  if component = [] ∨ component = [dot] then .stay
  else if component = [dot, dot] then .up
  else .down component

def steps (path : List α) : List (Step (List α)) := (path.splitOn sep).map (stepOf dot)

/-- The path is relative, and read component by component it does not leave the directory it
starts in. -/
def Confined (path : List α) : Prop :=
  path.head? ≠ some sep ∧ (walk [] (steps sep dot path)).isSome

theorem confined_iff (path : List α) : Confined sep dot path ↔
    path.head? ≠ some sep ∧ Covered 0 (steps sep dot path) :=
  and_congr_right fun _ ↦ walk_isSome_iff [] (steps sep dot path)

instance (path : List α) : Decidable (Confined sep dot path) :=
  inferInstanceAs (Decidable (_ ∧ _))

end DirPath

end CodeOnLinux
