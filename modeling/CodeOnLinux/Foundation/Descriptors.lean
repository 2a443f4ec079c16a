import Mathlib.Data.List.Basic
import Mathlib.Tactic.Common

/-!
# Descriptor tables

A process has a table that says what its descriptors refer to: one end of a pipe, of a connection,
or something else (`ε`). `fork` copies the table, so an end may be open in many processes and under
many descriptors of one. What the processes on the other side can see is only whether the end is
open anywhere (`Held`): a read at the end of a stream returns if and only if the end that is written
to is held no more.
-/

namespace CodeOnLinux

namespace Descriptors

variable {π ε : Type*}

/-- What each descriptor of each process refers to. -/
abbrev Tables (π ε : Type*) := π → ℕ → Option ε

/-- The process has the end open. -/
def Holds (T : Tables π ε) (p : π) (e : ε) : Prop := ∃ fd, T p fd = some e

/-- Some process has the end open. -/
def Held (T : Tables π ε) (e : ε) : Prop := ∃ p, Holds T p e

theorem Holds.held {T : Tables π ε} {p : π} {e : ε} (h : Holds T p e) : Held T e := ⟨p, h⟩

section

variable [DecidableEq π]

/-! ## The calls -/

/-- The descriptor `fd` of the process refers to `o` from now on. -/
def assign (T : Tables π ε) (p : π) (fd : ℕ) (o : Option ε) : Tables π ε :=
  Function.update T p (Function.update (T p) fd o)

/-- A new descriptor. -/
def install (T : Tables π ε) (p : π) (fd : ℕ) (e : ε) : Tables π ε := assign T p fd (some e)

def close (T : Tables π ε) (p : π) (fd : ℕ) : Tables π ε := assign T p fd none

/-- `dup2(old, new)` -/
def dup2 (T : Tables π ε) (p : π) (old new : ℕ) : Tables π ε := assign T p new (T p old)

/-- The new process `q` has a copy of the table of `p`. -/
def fork (T : Tables π ε) (p q : π) : Tables π ε := Function.update T q (T p)

/-- The process ends, and all its descriptors are closed. -/
def exit (T : Tables π ε) (p : π) : Tables π ε := Function.update T p fun _ ↦ none

variable {T : Tables π ε} {p q r : π} {fd fd' old new : ℕ} {o : Option ε}

theorem assign_of_fd_ne (h : fd' ≠ fd) : assign T p fd o p fd' = T p fd' := by
  rw [assign, Function.update_self, Function.update_of_ne h]

theorem assign_of_ne (h : q ≠ p) : assign T p fd o q = T q := Function.update_of_ne h ..

theorem dup2_of_fd_ne (h : fd ≠ new) : dup2 T p old new p fd = T p fd := assign_of_fd_ne h

theorem dup2_of_ne (h : q ≠ p) : dup2 T p old new q = T q := assign_of_ne h

theorem fork_self : fork T p q q = T p := Function.update_self ..

theorem fork_of_ne (h : r ≠ q) : fork T p q r = T r := Function.update_of_ne h ..

theorem exit_self : exit T p p = fun _ ↦ none := Function.update_self ..

theorem exit_of_ne (h : q ≠ p) : exit T p q = T q := Function.update_of_ne h ..

end

/-! ## Looking for an end -/

/-- Some descriptor of these processes, below the limit, refers to the end. -/
def isHeld [DecidableEq ε] (ps : List π) (limit : ℕ) (T : Tables π ε) (e : ε) : Bool :=
  ps.any fun p ↦ (List.range limit).any fun fd ↦ T p fd = some e

theorem isHeld_of_mem [DecidableEq ε] {ps : List π} {limit fd : ℕ} {T : Tables π ε} {p : π} {e : ε}
    (hp : p ∈ ps) (hfd : fd < limit) (h : T p fd = some e) : isHeld ps limit T e = true :=
  List.any_eq_true.mpr ⟨p, hp, List.any_eq_true.mpr
    ⟨fd, List.mem_range.mpr hfd, decide_eq_true h⟩⟩

/-! ## The lowest free descriptor -/

/-- The lowest descriptor that is not in use, if the limit allows one more. -/
def free (limit : ℕ) (t : ℕ → Option ε) : Option ℕ :=
  (List.range limit).find? fun fd ↦ (t fd).isNone

section

variable {limit fd : ℕ} {t : ℕ → Option ε}

theorem eq_none_of_free (h : free limit t = some fd) : t fd = none :=
  Option.isNone_iff_eq_none.mp (List.find?_some (p := fun fd ↦ (t fd).isNone) h)

/-- Where exactly the descriptors below `n` are in use, `n` is next. -/
theorem free_eq {n : ℕ} (h : ∀ fd, t fd = none ↔ n ≤ fd) :
    free limit t = if n < limit then some n else none := by
  split_ifs with hn
  · rw [free, List.find?_range_eq_some, Option.isNone_iff_eq_none, List.mem_range]
    refine ⟨(h n).mpr (Nat.le_refl n), hn, fun fd hfd ↦ ?_⟩
    rw [Bool.not_eq_true', Option.isNone_eq_false_iff, Option.isSome_iff_ne_none, Ne, h]
    exact Nat.not_le.mpr hfd
  · rw [free, List.find?_range_eq_none]
    intro fd hfd
    rw [Bool.not_eq_true', Option.isNone_eq_false_iff, Option.isSome_iff_ne_none, Ne, h]
    omega

end

end Descriptors

end CodeOnLinux
