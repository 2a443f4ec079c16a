import CodeOnLinux.Foundation.Header
import CodeOnLinux.Pub.Mime

/-!
# The header block of an answer

The three web servers answer with the same four lines, each in a wording of its own: the status, the
media type, the length of the body and that the connection will be closed. The length that is
printed is the one that a client finds (`Wording.number_block`).
-/

namespace CodeOnLinux

namespace Pub

open Lines Stdio

/-- The texts of a header block. No other line starts like the one with the length. -/
structure Wording where
  /-- In front of the code. -/
  protocol : Bytes
  /-- In front of the media type. -/
  contentType : Bytes
  /-- In front of the length. -/
  contentLength : Bytes
  /-- The last line. -/
  connection : Bytes
  /-- The texts are printable and not empty. -/
  lines : ∀ s ∈ [protocol, contentType, contentLength, connection], s ≠ [] ∧ Printable s
  /-- A first line is no line with a length. -/
  protocol_ne : ∀ value, ¬contentLength <+: protocol ++ value
  /-- Nor is one with a media type. -/
  contentType_ne : ∀ value, ¬contentLength <+: contentType ++ value

namespace Wording

variable (W : Wording)

/-- The lines of the block, without their CRLF. -/
def block (code : ℤ) (status fileType : Bytes) (length : ℤ) : List Bytes :=
  [W.protocol ++ (formatInt code ++ (ascii " " ++ status)), W.contentType ++ fileType,
    W.contentLength ++ formatInt length, W.connection]

/-- What is sent for it: each line with its CRLF, and the blank line. -/
def texts (code : ℤ) (status fileType : Bytes) (length : ℤ) : List Bytes :=
  (W.block code status fileType length).map (· ++ crlf) ++ [crlf]

variable {W} {status fileType : Bytes}

theorem block_lines (hstatus : Printable status) (htype : Printable fileType) (code length : ℤ) :
    ∀ l ∈ W.block code status fileType length, l ≠ [] ∧ Printable l := by
  have hlabel : ∀ s ∈ [W.protocol, W.contentType, W.contentLength, W.connection],
      ∀ value, Printable value → s ++ value ≠ [] ∧ Printable (s ++ value) := by
    intro s hs value hvalue
    obtain ⟨hne, hprint⟩ := W.lines s hs
    exact ⟨List.append_ne_nil_of_left_ne_nil hne value, hprint.append hvalue⟩
  have hspace : Printable (ascii " ") := by decide
  have hvalue := (printable_formatInt code).append (hspace.append hstatus)
  intro l hl
  simp only [block, List.mem_cons, List.not_mem_nil, or_false] at hl
  rcases hl with rfl | rfl | rfl | rfl
  · exact hlabel _ (by simp) _ hvalue
  · exact hlabel _ (by simp) _ htype
  · exact hlabel _ (by simp) _ (printable_formatInt length)
  · exact W.lines _ (by simp)

theorem take_block (hstatus : Printable status) (htype : Printable fileType) (code length : ℤ)
    (body : Bytes) : Header.take (Header.render (W.block code status fileType length) body) =
      some (W.block code status fileType length, body) := by
  refine Header.take_render (fun l hl ↦ ?_) body
  obtain ⟨hne, hprint⟩ := block_lines hstatus htype code length l hl
  exact ⟨hne, hprint.notMem (by decide)⟩

/-- **The length that is printed** is the length that is found. -/
theorem number_block (hstatus : Printable status) (htype : Printable fileType) (code length : ℤ)
    (body : Bytes) :
    Header.number W.contentLength (Header.render (W.block code status fileType length) body) =
      some length := by
  have hfield : Header.field W.contentLength (W.block code status fileType length) =
      some (formatInt length) := by
    rw [block, Header.field_cons_of_not_prefix (W.protocol_ne _),
      Header.field_cons_of_not_prefix (W.contentType_ne _), Header.field_cons_self]
  rw [Header.number, take_block hstatus htype]
  simp only [Option.bind_eq_bind, Option.bind_some, hfield, readInt_formatInt]

/-! ## As it is sent -/

variable (W status fileType) in
theorem texts_eq (code length : ℤ) : W.texts code status fileType length =
    [W.protocol ++ (formatInt code ++ (ascii " " ++ (status ++ crlf))),
      W.contentType ++ (fileType ++ crlf), W.contentLength ++ (formatInt length ++ crlf),
      W.connection ++ crlf, crlf] := by
  simp only [texts, block, List.map_cons, List.map_nil, List.append_assoc, List.cons_append,
    List.nil_append]

theorem flatten_texts (code length : ℤ) (body : Bytes) :
    (W.texts code status fileType length).flatten ++ body =
      Header.render (W.block code status fileType length) body := by
  rw [texts, List.flatten_append, List.flatten_singleton, ← List.flatMap_def, List.append_assoc,
    Header.render, joinLines]

/-- `sprintf` leaves the texts as they are. -/
theorem flatMap_cString_texts (hstatus : Printable status) (htype : Printable fileType)
    (code length : ℤ) : (W.texts code status fileType length).flatMap cString =
      (W.texts code status fileType length).flatten := by
  have hcrlf : 0 ∉ crlf := by decide
  have hself : ∀ t ∈ W.texts code status fileType length, cString t = t := by
    intro t ht
    rcases List.mem_append.mp ht with ht | ht
    · obtain ⟨l, hl, rfl⟩ := List.mem_map.mp ht
      obtain ⟨-, hprint⟩ := block_lines hstatus htype code length l hl
      refine cString_eq_self ?_
      rw [List.mem_append, not_or]
      exact ⟨hprint.notMem (by decide), hcrlf⟩
    · rw [List.mem_singleton.mp ht]
      exact cString_eq_self hcrlf
  rw [List.flatMap_def, List.map_congr_left hself, List.map_id']

end Wording

end Pub

end CodeOnLinux
