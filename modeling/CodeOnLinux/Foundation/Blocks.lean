import Mathlib.Data.List.Basic
import Mathlib.Order.Nat
import Mathlib.Tactic.Common

/-!
# A list in blocks, each offered once

A list is taken apart into blocks whose lengths are given by a sequence `step`: `block step s i` is
the `i`-th of them, and empty behind the end of the list.

The blocks are offered to a receiver that takes of the `i`-th at most `room i` elements, and what it
does not take is not offered again; where it takes nothing, the offering ends. What gets through is
`offered`. It is the whole list if and only if each block fits (`offered_eq_iff`).
-/

namespace CodeOnLinux

namespace Blocks

variable {α : Type*}

/-! ## The blocks -/

/-- Where the `i`-th block starts. -/
def offset (step : ℕ → ℕ) : ℕ → ℕ
  | 0 => 0
  | i + 1 => offset step i + step i

def block (step : ℕ → ℕ) (s : List α) (i : ℕ) : List α := (s.drop (offset step i)).take (step i)

variable {step : ℕ → ℕ} {s : List α} {i j : ℕ}

theorem block_append (step : ℕ → ℕ) (s : List α) (i : ℕ) :
    block step s i ++ s.drop (offset step (i + 1)) = s.drop (offset step i) := by
  rw [block, offset, ← List.drop_drop, List.take_append_drop]

theorem drop_drop_offset (step : ℕ → ℕ) (s : List α) (i : ℕ) :
    (s.drop (offset step i)).drop (step i) = s.drop (offset step (i + 1)) := List.drop_drop

/-- Behind a block there is less of the list. -/
theorem length_drop_offset_lt (h : block step s i ≠ []) :
    (s.drop (offset step (i + 1))).length < (s.drop (offset step i)).length := by
  have hpos := List.length_pos_of_ne_nil h
  rw [← block_append step s i, List.length_append]
  omega

theorem offset_mono (step : ℕ → ℕ) (h : i ≤ j) : offset step i ≤ offset step j := by
  induction h with
  | refl => exact le_refl _
  | step _ ih => exact ih.trans (Nat.le_add_right _ _)

/-- The blocks are over where the list is. -/
theorem drop_offset_eq_nil (hstep : 0 < step i) (h : block step s i = []) :
    s.drop (offset step i) = [] := by
  rcases List.take_eq_nil_iff.mp h with hzero | hnil
  · exact absurd hzero hstep.ne'
  · exact hnil

theorem block_eq_nil (h : s.drop (offset step i) = []) (hij : i ≤ j) : block step s j = [] := by
  have hlen := List.drop_eq_nil_iff.mp h
  rw [block, List.drop_eq_nil_of_le (hlen.trans (offset_mono step hij)), List.take_nil]

/-- A part of at most `size` elements that may be shorter than that, but is not empty. -/
def partLength (size wanted : ℕ) : ℕ := max 1 (min wanted size)

theorem partLength_pos (size wanted : ℕ) : 0 < partLength size wanted := Nat.le_max_left _ _

/-! ## Offering them -/

/-- What gets through of the `n` blocks from the `i`-th on. -/
def offered (step room : ℕ → ℕ) (s : List α) : ℕ → ℕ → List α
  | 0, _ => []
  | n + 1, i =>
    if room i = 0 then [] else (block step s i).take (room i) ++ offered step room s n (i + 1)

variable {room : ℕ → ℕ}

theorem offered_of_room (hroom : room i ≠ 0) (n : ℕ) : offered step room s (n + 1) i =
    (block step s i).take (room i) ++ offered step room s n (i + 1) := if_neg hroom

/-- Behind the end of the list nothing gets through. -/
theorem offered_of_nil (h : s.drop (offset step i) = []) (n : ℕ) :
    offered step room s n i = [] := by
  induction n generalizing i with
  | zero => rfl
  | succ n ih =>
    have hrest : s.drop (offset step (i + 1)) = [] := by
      rw [← block_append, List.append_eq_nil_iff] at h
      exact h.2
    rw [offered, block_eq_nil h (le_refl i), List.take_nil, List.nil_append, ih hrest, ite_self]

theorem length_offered_le (n : ℕ) :
    (offered step room s n i).length ≤ (s.drop (offset step i)).length := by
  induction n generalizing i with
  | zero => exact Nat.zero_le _
  | succ n ih =>
    rw [offered, ← block_append step s i]
    split
    · exact Nat.zero_le _
    · rw [List.length_append, List.length_append]
      exact Nat.add_le_add (List.length_take_le' _ _) ih

/-- More blocks than the list has make no difference. -/
theorem offered_eq_offered (hstep : ∀ i, 0 < step i) {n k : ℕ}
    (hn : (s.drop (offset step i)).length < n) (hk : (s.drop (offset step i)).length < k) :
    offered step room s n i = offered step room s k i := by
  induction n generalizing i k with
  | zero => exact absurd hn (Nat.not_lt_zero _)
  | succ n ih =>
    obtain ⟨k, rfl⟩ := Nat.exists_eq_succ_of_ne_zero (Nat.ne_of_gt (Nat.zero_lt_of_lt hk))
    by_cases hnil : s.drop (offset step i) = []
    · rw [offered_of_nil hnil, offered_of_nil hnil]
    · have hless := length_drop_offset_lt fun h ↦ hnil (drop_offset_eq_nil (hstep i) h)
      have hrest := ih (i := i + 1) (k := k) (by omega) (by omega)
      rw [offered, offered, hrest]

/-- **All of the list gets through**, exactly where each block fits. -/
theorem offered_eq_iff (hstep : ∀ i, 0 < step i) {n : ℕ}
    (hn : (s.drop (offset step i)).length < n) :
    offered step room s n i = s.drop (offset step i) ↔
      ∀ j, i ≤ j → (block step s j).length ≤ room j := by
  induction n generalizing i with
  | zero => exact absurd hn (Nat.not_lt_zero _)
  | succ n ih =>
    by_cases hnil : s.drop (offset step i) = []
    · rw [offered_of_nil hnil, hnil]
      refine iff_of_true rfl fun j hij ↦ ?_
      rw [block_eq_nil hnil hij]
      exact Nat.zero_le _
    · have hblock : block step s i ≠ [] := fun h ↦ hnil (drop_offset_eq_nil (hstep i) h)
      have hpos := List.length_pos_of_ne_nil hblock
      have hsum : (block step s i).length + (s.drop (offset step (i + 1))).length =
          (s.drop (offset step i)).length := by
        rw [← List.length_append, block_append]
      have hle : (offered step room s n (i + 1)).length ≤ (s.drop (offset step (i + 1))).length :=
        length_offered_le n
      have hrest := ih (i := i + 1) (by omega)
      constructor
      · intro h
        have hlen := congrArg List.length h
        rw [offered] at h hlen
        split_ifs at h hlen with hroom
        · exact absurd h.symm hnil
        · rw [List.length_append, List.length_take] at hlen
          -- a block that is cut leaves the result too short
          have hfits : (block step s i).length ≤ room i := by omega
          rw [List.take_of_length_le hfits, ← block_append step s i,
            List.append_cancel_left_eq] at h
          intro j hij
          rcases Nat.eq_or_lt_of_le hij with rfl | hlt
          · exact hfits
          · exact hrest.mp h j hlt
      · intro h
        have hfits := h i (le_refl i)
        have hroom : room i ≠ 0 := by omega
        rw [offered, if_neg hroom, List.take_of_length_le hfits,
          hrest.mpr fun j hij ↦ h j (Nat.le_of_succ_le hij), block_append]

end Blocks

end CodeOnLinux
