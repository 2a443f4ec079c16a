import CodeOnLinux.Foundation.Header

/-!
# Responses

The grammar of an HTTP/1.x response is that of a header block whose first line is

```text
'HTTP/' digit '.' digit SP code SP reason
```

and whose other lines are `name: value`. A `Response` is what such a text says, and `render` writes
it down. Each reader cuts its line into parts and then compares the line with the one that the parts
are written as, so it accepts no other line. The whole text is read as one response or as none
(`parse_eq_some_iff`).
-/

namespace CodeOnLinux

open Lines Stdio

/-- A text that ends in no line. -/
def OneLine (s : Bytes) : Prop := cr ∉ s ∧ lf ∉ s

instance decidableOneLine (s : Bytes) : Decidable (OneLine s) :=
  inferInstanceAs (Decidable (cr ∉ s ∧ lf ∉ s))

theorem OneLine.append {s t : Bytes} (hs : OneLine s) (ht : OneLine t) : OneLine (s ++ t) := by
  refine ⟨?_, ?_⟩
  · rw [List.mem_append, not_or]
    exact ⟨hs.1, ht.1⟩
  · rw [List.mem_append, not_or]
    exact ⟨hs.2, ht.2⟩

theorem oneLine_of_printable {s : Bytes} (hs : Printable s) : OneLine s :=
  ⟨hs.notMem (by decide), hs.notMem (by decide)⟩

namespace Response

/-! ## The status line -/

/-- The first line. -/
structure StatusLine where
  /-- The first digit of the version. -/
  major : UInt8
  /-- The second digit of the version. -/
  minor : UInt8
  /-- The status code. -/
  code : ℕ
  /-- The reason phrase. -/
  reason : Bytes
  /-- The first is a digit. -/
  isdigit_major : isdigit major = true
  /-- So is the second. -/
  isdigit_minor : isdigit minor = true
  /-- The code has three digits. -/
  code_mem : 100 ≤ code ∧ code ≤ 999
  /-- The phrase ends where the line ends. -/
  oneLine_reason : OneLine reason

def StatusLine.render (l : StatusLine) : Bytes :=
  ascii "HTTP/" ++ (l.major :: byte '.' :: l.minor :: byte ' ' ::
    (digits l.code ++ (byte ' ' :: l.reason)))

/-- The parts of a line; the code ends at the first byte that is not a digit. -/
def cutStatusLine (line : Bytes) : Option StatusLine :=
  match line.drop 5 with
  | major :: _ :: minor :: _ :: rest =>
    if h : isdigit major = true ∧ isdigit minor = true ∧
        (100 ≤ decimal (rest.takeWhile isdigit) ∧ decimal (rest.takeWhile isdigit) ≤ 999) ∧
        OneLine (rest.drop ((rest.takeWhile isdigit).length + 1)) then
      some ⟨major, minor, _, _, h.1, h.2.1, h.2.2.1, h.2.2.2⟩
    else none
  | _ => none

def readStatusLine (line : Bytes) : Option StatusLine :=
  (cutStatusLine line).filter fun l ↦ l.render = line

theorem render_of_readStatusLine {line : Bytes} {l : StatusLine}
    (h : readStatusLine line = some l) : l.render = line :=
  of_decide_eq_true (Option.filter_eq_some_iff.mp h).2

theorem takeWhile_digits_append (n : ℕ) (s : Bytes) :
    (digits n ++ (byte ' ' :: s)).takeWhile isdigit = digits n := by
  have hspace : isdigit (byte ' ') = false := by decide
  rw [List.takeWhile_append_of_pos fun b hb ↦ isdigit_of_mem_digits hb, List.takeWhile_cons,
    hspace, if_neg Bool.false_ne_true, List.append_nil]

theorem readStatusLine_render (l : StatusLine) : readStatusLine l.render = some l := by
  have hnumber := takeWhile_digits_append l.code l.reason
  have hreason : (digits l.code ++ (byte ' ' :: l.reason)).drop ((digits l.code).length + 1) =
      l.reason := by
    rw [List.drop_append, List.drop_eq_nil_of_le (Nat.le_succ _), List.nil_append,
      Nat.add_sub_cancel_left, List.drop_one, List.tail_cons]
  have hdrop : l.render.drop 5 = l.major :: byte '.' :: l.minor :: byte ' ' ::
      (digits l.code ++ (byte ' ' :: l.reason)) := rfl
  have hdecimal := decimal_digits l.code
  have hcut : cutStatusLine l.render = some l := by
    rw [cutStatusLine, hdrop]
    simp only [hnumber, hreason, hdecimal]
    exact dif_pos ⟨l.isdigit_major, l.isdigit_minor, l.code_mem, l.oneLine_reason⟩
  rw [readStatusLine, hcut]
  exact Option.filter_some_pos (decide_eq_true rfl)

/-! ## Fields -/

/-- A byte of the name of a field. -/
def isNameByte (c : UInt8) : Bool := 32 < c && c ≠ byte ':'

/-- A header field. -/
structure Field where
  /-- Its name. -/
  name : Bytes
  /-- Its value. -/
  value : Bytes
  /-- It has a name. -/
  name_ne_nil : name ≠ []
  /-- The colon is behind the name. -/
  isNameByte_name : ∀ c ∈ name, isNameByte c = true
  /-- The value ends where the line ends. -/
  oneLine_value : OneLine value

def Field.render (f : Field) : Bytes := f.name ++ (byte ':' :: byte ' ' :: f.value)

def cutField (line : Bytes) : Option Field :=
  if h : line.takeWhile isNameByte ≠ [] ∧
      OneLine (line.drop ((line.takeWhile isNameByte).length + 2)) then
    some ⟨_, _, h.1, fun _ ↦ List.mem_takeWhile_imp, h.2⟩
  else none

def readField (line : Bytes) : Option Field := (cutField line).filter fun f ↦ f.render = line

theorem render_of_readField {line : Bytes} {f : Field} (h : readField line = some f) :
    f.render = line :=
  of_decide_eq_true (Option.filter_eq_some_iff.mp h).2

theorem readField_render (f : Field) : readField f.render = some f := by
  have hcolon : isNameByte (byte ':') = false := by decide
  have hname : f.render.takeWhile isNameByte = f.name := by
    rw [Field.render, List.takeWhile_append_of_pos f.isNameByte_name, List.takeWhile_cons, hcolon,
      if_neg Bool.false_ne_true, List.append_nil]
  have hvalue : f.render.drop (f.name.length + 2) = f.value := by
    rw [Field.render, List.drop_append, List.drop_eq_nil_of_le (Nat.le_add_right _ _),
      List.nil_append, Nat.add_sub_cancel_left]
    rfl
  have hcut : cutField f.render = some f := by
    rw [cutField]
    simp only [hname, hvalue]
    exact dif_pos ⟨f.name_ne_nil, f.oneLine_value⟩
  rw [readField, hcut]
  exact Option.filter_some_pos (decide_eq_true rfl)

end Response

/-! ## The response -/

/-- A whole response. -/
structure Response where
  /-- The first line. -/
  status : Response.StatusLine
  /-- The header. -/
  fields : List Response.Field
  /-- The body. -/
  body : Bytes

namespace Response

def render (r : Response) : Bytes :=
  Header.render (r.status.render :: r.fields.map Field.render) r.body

def parse (text : Bytes) : Option Response :=
  match Header.take text with
  | some (line :: lines, body) =>
    (readStatusLine line).bind fun status ↦
      (lines.mapM readField).map fun fields ↦ ⟨status, fields, body⟩
  | _ => none

/-- The value of a field. -/
def value (name : Bytes) (r : Response) : Option Bytes :=
  (r.fields.find? fun f ↦ f.name = name).map Field.value

theorem mapM_readField_render (fields : List Field) :
    (fields.map Field.render).mapM readField = some fields := by
  induction fields with
  | nil => rfl
  | cons f fields ih =>
    rw [List.map_cons, List.mapM_cons, readField_render, ih]
    rfl

theorem map_render_of_mapM {lines : List Bytes} {fields : List Field}
    (h : lines.mapM readField = some fields) : fields.map Field.render = lines := by
  induction lines generalizing fields with
  | nil =>
    obtain rfl := Option.some_inj.mp h
    rfl
  | cons line lines ih =>
    rw [List.mapM_cons] at h
    obtain ⟨f, hf, h⟩ := Option.bind_eq_some_iff.mp h
    obtain ⟨fields', hfields, h⟩ := Option.bind_eq_some_iff.mp h
    obtain rfl := Option.some_inj.mp h
    rw [List.map_cons, render_of_readField hf, ih hfields]

theorem render_lines (r : Response) :
    ∀ l ∈ r.status.render :: r.fields.map Field.render, l ≠ [] ∧ lf ∉ l := by
  intro l hl
  rcases List.mem_cons.mp hl with rfl | hl
  · have hfirst : lf ∉ ascii "HTTP/" := by decide
    have hdot : lf ≠ byte '.' := by decide
    have hspace : lf ≠ byte ' ' := by decide
    have hdigit : ∀ c, isdigit c = true → lf ≠ c := by
      rintro c hc rfl
      exact absurd hc (by decide)
    have hcode := (printable_digits r.status.code).notMem (b := lf) (by decide)
    have hreason := r.status.oneLine_reason.2
    refine ⟨List.cons_ne_nil _ _, ?_⟩
    simp only [StatusLine.render, List.mem_append, List.mem_cons, not_or]
    exact ⟨hfirst, hdigit _ r.status.isdigit_major, hdot, hdigit _ r.status.isdigit_minor, hspace,
      hcode, hspace, hreason⟩
  · obtain ⟨f, -, rfl⟩ := List.mem_map.mp hl
    have hname : lf ∉ f.name := fun hmem ↦
      absurd (f.isNameByte_name lf hmem) (by decide)
    have hcolon : lf ≠ byte ':' := by decide
    have hspace : lf ≠ byte ' ' := by decide
    refine ⟨List.append_ne_nil_of_left_ne_nil f.name_ne_nil _, ?_⟩
    simp only [Field.render, List.mem_append, List.mem_cons, not_or]
    exact ⟨hname, hcolon, hspace, f.oneLine_value.2⟩

/-- **A text is read as a response** exactly when it is that response written down. -/
theorem parse_eq_some_iff {text : Bytes} {r : Response} :
    parse text = some r ↔ r.render = text := by
  constructor
  · intro h
    rw [parse] at h
    split at h
    · next line lines body htake =>
      obtain ⟨status, hstatus, h⟩ := Option.bind_eq_some_iff.mp h
      obtain ⟨fields, hfields, rfl⟩ := Option.map_eq_some_iff.mp h
      rw [render, render_of_readStatusLine hstatus, map_render_of_mapM hfields,
        Header.render_of_take htake]
    · cases h
  · rintro rfl
    rw [parse, render, Header.take_render (render_lines r)]
    simp only [readStatusLine_render, mapM_readField_render, Option.bind_some, Option.map_some]

/-- A text that starts in another way is no response. -/
theorem parse_eq_none {text : Bytes} (h : ¬ascii "HTTP/" <+: text) : parse text = none := by
  rw [Option.eq_none_iff_forall_ne_some]
  intro r hr
  rw [parse_eq_some_iff, render, Header.render_cons, StatusLine.render, List.append_assoc] at hr
  exact h ⟨_, hr⟩

end Response

end CodeOnLinux
