import CodeOnLinux.Foundation.Lines

/-!
# `fgets`

`fgets` hands out a stream in pieces: up to a newline, which belongs to the piece, or as many bytes
as there is room for. The pieces put together are the stream.
-/

namespace CodeOnLinux

namespace Lines

/-- At most `n` bytes of the stream, up to its first newline, and the rest of the stream. -/
def takeTyped : ℕ → Bytes → Bytes × Bytes
  | 0, s => ([], s)
  | _ + 1, [] => ([], [])
  | n + 1, b :: s => if b = lf then ([b], s) else (b :: (takeTyped n s).1, (takeTyped n s).2)

/-- `fgets(buffer, size, stream)`: what is stored in front of the NUL, and what is left in the
stream; `none` is the NULL at the end of the stream, where nothing is stored. -/
def fgets (size : ℕ) (stream : Bytes) : Option (Bytes × Bytes) :=
  if stream = [] then none else some (takeTyped (size - 1) stream)

/-- The line that `fgets` stores, nothing at the end of the input, and what is left. -/
def typedLine (size : ℕ) (stream : Bytes) : Bytes × Bytes :=
  (fgets size stream).getD ([], stream)

theorem takeTyped_append (n : ℕ) (s : Bytes) : (takeTyped n s).1 ++ (takeTyped n s).2 = s := by
  induction n generalizing s with
  | zero => rfl
  | succ n ih =>
    cases s with
    | nil => rfl
    | cons b s =>
      rw [takeTyped]
      split
      · rfl
      · rw [List.cons_append, ih]

theorem length_takeTyped_le (n : ℕ) (s : Bytes) : (takeTyped n s).1.length ≤ n := by
  induction n generalizing s with
  | zero => exact le_refl 0
  | succ n ih =>
    cases s with
    | nil => exact Nat.zero_le _
    | cons b s =>
      rw [takeTyped]
      split
      · exact Nat.succ_le_succ (Nat.zero_le n)
      · exact Nat.succ_le_succ (ih s)

/-- A newline stands in a piece at most as its last byte. -/
theorem lf_notMem_dropLast_takeTyped (n : ℕ) (s : Bytes) : lf ∉ (takeTyped n s).1.dropLast := by
  induction n generalizing s with
  | zero => exact List.not_mem_nil
  | succ n ih =>
    cases s with
    | nil => exact List.not_mem_nil
    | cons b s =>
      rw [takeTyped]
      split_ifs with hlf
      · exact List.not_mem_nil
      · cases ht : (takeTyped n s).1 with
        | nil => exact List.not_mem_nil
        | cons a t =>
          have hrest := ih s
          rw [ht] at hrest
          rw [List.dropLast_cons_cons, List.mem_cons, not_or]
          exact ⟨fun h ↦ hlf h.symm, hrest⟩

/-- There is enough for a piece of `n` bytes, or for a line: no more input is asked for. -/
def Complete (n : ℕ) (s : Bytes) : Prop := lf ∈ s.take n ∨ n ≤ s.length

instance decidableComplete (n : ℕ) (s : Bytes) : Decidable (Complete n s) :=
  inferInstanceAs (Decidable (lf ∈ s.take n ∨ n ≤ s.length))

section

variable {size : ℕ} (stream : Bytes)

theorem typedLine_eq (size : ℕ) : typedLine size stream = takeTyped (size - 1) stream := by
  rw [typedLine, fgets]
  split_ifs with hnil
  · rw [hnil]
    cases size - 1 <;> rfl
  · rfl

theorem typedLine_append (size : ℕ) :
    (typedLine size stream).1 ++ (typedLine size stream).2 = stream := by
  rw [typedLine_eq, takeTyped_append]

theorem length_typedLine_lt (hsize : 0 < size) : (typedLine size stream).1.length < size := by
  rw [typedLine_eq]
  exact Nat.lt_of_le_pred hsize (length_takeTyped_le (size - 1) stream)

theorem lf_notMem_dropLast_typedLine : lf ∉ (typedLine size stream).1.dropLast := by
  rw [typedLine_eq]
  exact lf_notMem_dropLast_takeTyped (size - 1) stream

end

end Lines

end CodeOnLinux
