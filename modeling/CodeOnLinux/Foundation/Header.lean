import CodeOnLinux.Foundation.Lines
import CodeOnLinux.Foundation.Stdio

/-!
# Header blocks

A message is a block of lines, each with its CRLF, then a blank line, then the body. `take` is the
receiver's way to read one: it takes lines up to the first empty one, and what is left is the body.
`render` is the sender's, and `take` gives back what it put together (`take_render`).

`field` is what stands behind a label in the first line that starts with it, and `number` the number
there, where it is one.
-/

namespace CodeOnLinux

namespace Header

open Lines Stdio

def render (lines : List Bytes) (body : Bytes) : Bytes := joinLines lines ++ (crlf ++ body)

theorem render_cons (line : Bytes) (lines : List Bytes) (body : Bytes) :
    render (line :: lines) body = line ++ (crlf ++ render lines body) := by
  rw [render, joinLines_cons, List.append_assoc, List.append_assoc, ← render]

/-! ## Reading -/

/-- At most `n` lines up to an empty one, and what follows that. -/
def takeLines : ℕ → Bytes → Option (List Bytes × Bytes)
  | 0, _ => none
  | n + 1, text =>
    match takeCrlf text with
    | none => none
    | some ([], body) => some ([], body)
    | some (b :: line, rest) => (takeLines n rest).map (Prod.map ((b :: line) :: ·) id)

/-- The lines of the header block and the body; a text has no more lines than bytes. -/
def take (text : Bytes) : Option (List Bytes × Bytes) := takeLines text.length text

theorem takeLines_render {lines : List Bytes} (hlines : ∀ l ∈ lines, l ≠ [] ∧ lf ∉ l)
    (body : Bytes) {n : ℕ} (hn : lines.length < n) :
    takeLines n (render lines body) = some (lines, body) := by
  induction lines generalizing n with
  | nil =>
    obtain ⟨n, rfl⟩ := Nat.exists_eq_succ_of_ne_zero (Nat.ne_of_gt hn)
    rfl
  | cons line lines ih =>
    obtain ⟨n, rfl⟩ := Nat.exists_eq_succ_of_ne_zero (Nat.ne_of_gt (Nat.zero_lt_of_lt hn))
    obtain ⟨⟨hne, hlf⟩, hrest⟩ := List.forall_mem_cons.mp hlines
    obtain ⟨b, line, rfl⟩ := List.exists_cons_of_ne_nil hne
    rw [render_cons, takeLines, takeCrlf_append hlf]
    simp only [ih hrest (Nat.lt_of_succ_lt_succ hn), Option.map_some, Prod.map, id]

theorem length_lt_render (lines : List Bytes) (body : Bytes) :
    lines.length < (render lines body).length := by
  induction lines with
  | nil =>
    rw [render, List.length_append, List.length_append]
    exact Nat.lt_add_left _ (Nat.lt_add_right _ Nat.zero_lt_two)
  | cons line lines ih =>
    rw [render_cons, List.length_append, List.length_append, List.length_cons]
    have hcrlf : crlf.length = 2 := rfl
    omega

/-- **The receiver reads what the sender put together.** -/
theorem take_render {lines : List Bytes} (hlines : ∀ l ∈ lines, l ≠ [] ∧ lf ∉ l) (body : Bytes) :
    take (render lines body) = some (lines, body) :=
  takeLines_render hlines body (length_lt_render lines body)

theorem render_of_takeLines {n : ℕ} {text body : Bytes} {lines : List Bytes}
    (h : takeLines n text = some (lines, body)) : render lines body = text := by
  induction n generalizing text lines with
  | zero => cases h
  | succ n ih =>
    rw [takeLines] at h
    split at h
    · cases h
    · next htake =>
      obtain ⟨rfl, rfl⟩ := Prod.mk.inj (Option.some_inj.mp h)
      exact eq_append_of_takeCrlf htake
    · next b line rest htake =>
      obtain ⟨⟨lines', body'⟩, htake', heq⟩ := Option.map_eq_some_iff.mp h
      obtain ⟨rfl, rfl⟩ := Prod.mk.inj heq
      have hrest : render lines' body' = rest := ih htake'
      rw [render_cons, id, hrest, eq_append_of_takeCrlf htake]

/-- What the receiver reads is all of the text. -/
theorem render_of_take {text body : Bytes} {lines : List Bytes}
    (h : take text = some (lines, body)) : render lines body = text := render_of_takeLines h

/-! ## Fields -/

/-- What stands behind the label in the first line that starts with it. -/
def field (label : Bytes) : List Bytes → Option Bytes
  | [] => none
  | line :: lines => if label <+: line then some (line.drop label.length) else field label lines

/-- The number in the field of a message. -/
def number (label text : Bytes) : Option ℤ := do
  let (lines, _) ← take text
  let value ← field label lines
  readInt value

theorem field_cons_self (label value : Bytes) (lines : List Bytes) :
    field label ((label ++ value) :: lines) = some value := by
  rw [field, if_pos (List.prefix_append label value), List.drop_left]

theorem field_cons_of_not_prefix {label line : Bytes} (h : ¬label <+: line) (lines : List Bytes) :
    field label (line :: lines) = field label lines := if_neg h

/-- Another label, that differs within its length. -/
theorem not_prefix_append {label other : Bytes} {n : ℕ} (hn : n ≤ other.length)
    (h : label.take n ≠ other.take n) (hlabel : n ≤ label.length) (value : Bytes) :
    ¬label <+: other ++ value := by
  intro hpre
  have htake := List.prefix_iff_eq_take.mp (hpre.take n)
  rw [List.take_append_of_le_length hn, List.take_take, List.length_take,
    Nat.min_eq_left hlabel, Nat.min_self] at htake
  exact h htake

end Header

end CodeOnLinux
