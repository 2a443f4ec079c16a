import CodeOnLinux.Foundation.Lines

/-!
# The MySQL client: `01_mysql_client/mysql_client.c`

The prompt loop takes what one `read` brings for one statement: it zeroes a buffer of `SIZE` bytes,
reads into it, looks for `exit`, `quit` and an empty line, and hands the buffer to `mysql_query` as
a string. What the library answers is printed, and in every case the loop goes on; the embedding
keeps the strings that `mysql_query` was called with.

A terminal hands out a line of at most 128 bytes in one piece. So a line is executed as it was typed
if it has at most 127 bytes, its newline included, and no NUL; a longer one is cut into pieces, each
of which is executed for itself (`executesWhole_iff`).
-/

namespace CodeOnLinux

namespace MysqlClient

open Memory Lines

/-! ## The prompt loop -/

/-- `SIZE` -/
def size : ℕ := 128

inductive Phase
  | prompting
  | bye
  /-- `read` has returned `-1`. -/
  | failed
  deriving DecidableEq

/-- The client while it reads statements. -/
structure Session where
  /-- Where it is. -/
  phase : Phase
  /-- The strings it has called `mysql_query` with. -/
  queries : List Bytes

/-- `strncmp(sql, word, n) == 0` for a word of `n` bytes, none of them NUL. -/
def startsWith (word sql : Bytes) : Bool := decide (sql.take word.length = word)

/-- One turn of the loop: `none` is the `-1` of `read`. At the end of the input `read` brings no
bytes, and the empty string is executed. -/
def Session.turn (s : Session) : Option Bytes → Checked Session
  | none => .ok { s with phase := .failed }
  | some text => do
    let sql := padded size text
    if startsWith (ascii "exit\n") sql ∨ startsWith (ascii "quit\n") sql then
      return { s with phase := .bye }
    else if startsWith (ascii "\n") sql then return s
    else
      let query ← readStr sql 0
      return { s with queries := s.queries ++ [query] }

/-- What the reads bring, one after the other, as long as there is a prompt. -/
def Session.run : Session → List (Option Bytes) → Checked Session
  | s, [] => .ok s
  | s, text :: texts => do
    if s.phase = .prompting then
      let s ← s.turn text
      s.run texts
    else return s

/-! ## Lines -/

/-- A line that is to be executed. -/
structure Line where
  /-- The statement. -/
  text : Bytes
  /-- It is one line. -/
  lf_notMem : lf ∉ text
  /-- It is not empty. -/
  ne_nil : text ≠ []
  /-- It does not end the client. -/
  ne_exit : text ≠ ascii "exit"
  /-- Nor does it in the other way. -/
  ne_quit : text ≠ ascii "quit"

/-- As it is typed. -/
def Line.typed (l : Line) : Bytes := l.text ++ [lf]

/-- The pieces in which a text is read. -/
structure Delivery (text : Bytes) where
  /-- What each `read` brings. -/
  pieces : List Bytes
  /-- Together they are the text. -/
  flatten_eq : pieces.flatten = text
  /-- A `read` brings something. -/
  nonempty : [] ∉ pieces
  /-- It brings no more than it was asked for. -/
  length_le : ∀ piece ∈ pieces, piece.length ≤ size

/-- `mysql_query` is called exactly once, with the complete line. -/
def ExecutesWhole (s : Session) (l : Line) (d : Delivery l.typed) : Prop :=
  s.run (d.pieces.map some) = .ok { s with queries := s.queries ++ [l.typed] }

/-! ## One piece -/

theorem startsWith_padded_iff {word : Bytes} (hword : 0 ∉ word) (text : Bytes) :
    startsWith word (padded size text) = true ↔ word <+: text := by
  rw [startsWith, decide_eq_true_iff, eq_comm, ← List.prefix_iff_eq_take]
  rcases padded_cases size text with heq | ⟨tail, heq⟩
  · rw [heq]
  · rw [heq, prefix_append_zero_iff hword]

variable {s : Session}

/-- A piece that ends the session, one that is dropped, and one that is executed. -/
theorem turn_cases (s : Session) (text : Bytes) :
    s.turn (some text) = .ok { s with phase := .bye } ∨ s.turn (some text) = .ok s ∨
      s.turn (some text) = (readStr (padded size text) 0).map fun query ↦
        { s with queries := s.queries ++ [query] } := by
  rw [Session.turn]
  split_ifs
  · exact Or.inl rfl
  · exact Or.inr (Or.inl rfl)
  · refine Or.inr (Or.inr ?_)
    cases readStr (padded size text) 0 <;> rfl

theorem readStr_padded_eq_ok {text query : Bytes} (h : readStr (padded size text) 0 = .ok query) :
    (text.length < size ∨ 0 ∈ text) ∧ query = cString text := by
  rw [readStr, List.drop_zero] at h
  split_ifs at h with hzero
  rw [← Except.ok.inj h, cString_padded]
  exact ⟨zero_mem_padded_iff.mp hzero, rfl⟩

/-- A string that `mysql_query` is called with comes from one piece, which is not a full buffer
without a NUL. -/
theorem queries_of_run {texts : List Bytes} {s t : Session}
    (h : s.run (texts.map some) = .ok t) :
    ∃ queries, t.queries = s.queries ++ queries ∧ ∀ q ∈ queries, ∃ text ∈ texts,
      (text.length < size ∨ 0 ∈ text) ∧ q = cString text := by
  induction texts generalizing s with
  | nil =>
    obtain rfl := Except.ok.inj h
    exact ⟨[], (List.append_nil _).symm, fun q hq ↦ absurd hq List.not_mem_nil⟩
  | cons text texts ih =>
    rw [List.map_cons, Session.run] at h
    split_ifs at h with hphase
    · obtain ⟨u, hu, h⟩ := Checked.bind_eq_ok.mp h
      obtain ⟨queries, hqueries, hfrom⟩ := ih h
      have hfrom' : ∀ q ∈ queries, ∃ t ∈ text :: texts,
          (t.length < size ∨ 0 ∈ t) ∧ q = cString t := fun q hq ↦ by
        obtain ⟨t, ht, hq⟩ := hfrom q hq
        exact ⟨t, List.mem_cons_of_mem _ ht, hq⟩
      rcases turn_cases s text with hturn | hturn | hturn
      · obtain rfl := Except.ok.inj (hu.symm.trans hturn)
        exact ⟨queries, hqueries, hfrom'⟩
      · obtain rfl := Except.ok.inj (hu.symm.trans hturn)
        exact ⟨queries, hqueries, hfrom'⟩
      · rw [hturn] at hu
        cases hread : readStr (padded size text) 0 with
        | error e => rw [hread] at hu; cases hu
        | ok query =>
          rw [hread] at hu
          obtain rfl := Except.ok.inj hu
          refine ⟨query :: queries, ?_, ?_⟩
          · rw [hqueries, List.append_assoc, List.singleton_append]
          · exact List.forall_mem_cons.mpr
              ⟨⟨text, List.mem_cons_self, readStr_padded_eq_ok hread⟩, hfrom'⟩
    · obtain rfl := Except.ok.inj h
      exact ⟨[], (List.append_nil _).symm, fun q hq ↦ absurd hq List.not_mem_nil⟩

/-! ## A line in one piece -/

/-- A newline stands in a line only at its end. -/
theorem Line.eq_of_prefix (l : Line) {word : Bytes} (h : word ++ [lf] <+: l.typed) :
    word = l.text := by
  obtain ⟨rest, hrest⟩ := h
  rcases List.eq_nil_or_concat rest with rfl | ⟨rest, b, rfl⟩
  · rw [List.append_nil, Line.typed] at hrest
    exact (List.append_inj' hrest rfl).1
  · -- the newline would stand inside the text
    have hlf : lf ∈ l.text := by
      rw [List.concat_eq_append, ← List.append_assoc, Line.typed] at hrest
      rw [← (List.append_inj' hrest rfl).1]
      simp
    exact absurd hlf l.lf_notMem

theorem turn_typed (l : Line) (hlt : l.typed.length < size) (hzero : 0 ∉ l.text) (s : Session) :
    s.turn (some l.typed) = .ok { s with queries := s.queries ++ [l.typed] } := by
  have hstart : ∀ word, 0 ∉ word ++ [lf] → word ≠ l.text →
      ¬startsWith (word ++ [lf]) (padded size l.typed) = true := fun word hword hne h ↦
    hne (l.eq_of_prefix ((startsWith_padded_iff hword _).mp h))
  have hexit : ¬startsWith (ascii "exit\n") (padded size l.typed) = true :=
    hstart (ascii "exit") (by decide) l.ne_exit.symm
  have hquit : ¬startsWith (ascii "quit\n") (padded size l.typed) = true :=
    hstart (ascii "quit") (by decide) l.ne_quit.symm
  have hempty : ¬startsWith (ascii "\n") (padded size l.typed) = true :=
    hstart [] (by decide) l.ne_nil.symm
  have htyped : 0 ∉ l.typed := by
    rw [Line.typed, List.mem_append, not_or]
    exact ⟨hzero, by decide⟩
  rw [Session.turn, if_neg (not_or.mpr ⟨hexit, hquit⟩), if_neg hempty,
    readStr_ok (zero_mem_padded_iff.mpr (Or.inl hlt)), cString_padded, cString_eq_self htyped]
  rfl

/-! ## A line in any pieces -/

/-- A piece as long as the whole is the only one. -/
theorem Delivery.pieces_eq_singleton {text piece : Bytes} (d : Delivery text)
    (hpiece : piece ∈ d.pieces) (hle : text.length ≤ piece.length) : d.pieces = [text] := by
  obtain ⟨before, after, hsplit⟩ := List.append_of_mem hpiece
  have hlen : before.flatten.length + (piece.length + after.flatten.length) = text.length := by
    rw [← d.flatten_eq, hsplit, List.flatten_append, List.flatten_cons, List.length_append,
      List.length_append]
  have hnil : ∀ l, l ⊆ d.pieces → l.flatten.length = 0 → l = [] := by
    intro l hl hzero
    rw [List.eq_nil_iff_forall_not_mem]
    intro q hq
    have hflat := List.flatten_eq_nil_iff.mp (List.eq_nil_of_length_eq_zero hzero) q hq
    exact d.nonempty (hflat ▸ hl hq)
  have hbefore : before = [] :=
    hnil before (by rw [hsplit]; exact List.subset_append_left _ _) (by omega)
  have hafter : after = [] := by
    refine hnil after ?_ (by omega)
    rw [hsplit]
    exact fun q hq ↦ List.mem_append_right _ (List.mem_cons_of_mem _ hq)
  have hwhole := d.flatten_eq
  rw [hsplit, hbefore, hafter, List.nil_append, List.flatten_singleton] at hwhole
  rw [hsplit, hbefore, hafter, hwhole, List.nil_append]

theorem executesWhole_of_singleton {l : Line} {d : Delivery l.typed} (hs : s.phase = .prompting)
    (hpieces : d.pieces = [l.typed]) (hlt : l.typed.length < size) (hzero : 0 ∉ l.text) :
    ExecutesWhole s l d := by
  rw [ExecutesWhole, hpieces, List.map_singleton, Session.run, if_pos hs, turn_typed l hlt hzero]
  rfl

theorem ExecutesWhole.fits {l : Line} {d : Delivery l.typed} (h : ExecutesWhole s l d) :
    d.pieces = [l.typed] ∧ l.typed.length < size ∧ 0 ∉ l.text := by
  obtain ⟨queries, hqueries, hfrom⟩ := queries_of_run h
  have hsingle : [l.typed] = queries := List.append_cancel_left hqueries
  obtain ⟨piece, hpiece, hterm, hquery⟩ := hfrom l.typed (by simp [← hsingle])
  have hcut := length_cString_le piece
  have hpieces := d.pieces_eq_singleton hpiece (by rw [hquery]; exact hcut)
  obtain rfl : piece = l.typed := by simpa [hpieces] using hpiece
  have hzero : 0 ∉ l.typed := by
    rw [hquery]
    exact zero_notMem_cString _
  refine ⟨hpieces, hterm.resolve_right hzero, fun hmem ↦ hzero ?_⟩
  exact List.mem_append_left _ hmem

/-- The pieces of a terminal: each fills the buffer, up to the last one. -/
def Delivery.Terminal {text : Bytes} (d : Delivery text) : Prop :=
  ∀ piece ∈ d.pieces.dropLast, piece.length = size

theorem Delivery.Terminal.pieces_eq {text : Bytes} {d : Delivery text} (h : d.Terminal)
    (hne : text ≠ []) (hle : text.length ≤ size) : d.pieces = [text] := by
  cases hpieces : d.pieces with
  | nil => exact absurd (by rw [← d.flatten_eq, hpieces, List.flatten_nil]) hne
  | cons piece rest =>
    cases rest with
    | nil => rw [← d.flatten_eq, hpieces, List.flatten_singleton]
    | cons next rest =>
      have hfull : piece.length = size := h piece (by rw [hpieces]; exact List.mem_cons_self)
      rw [← hpieces]
      exact d.pieces_eq_singleton (by rw [hpieces]; exact List.mem_cons_self) (hfull ▸ hle)

/-- **Whole lines.** Whatever was executed before, a line that is typed at the prompt is executed
once and as it is if and only if it is read in one piece, with its newline is shorter than the
buffer, and has no NUL. On a terminal the first of these follows from the second. -/
theorem executesWhole_iff (hs : s.phase = .prompting) (l : Line) (d : Delivery l.typed) :
    (ExecutesWhole s l d ↔ d.pieces = [l.typed] ∧ l.typed.length < size ∧ 0 ∉ l.text) ∧
    (d.Terminal → (ExecutesWhole s l d ↔ l.typed.length < size ∧ 0 ∉ l.text)) := by
  constructor
  · exact ⟨ExecutesWhole.fits, fun h ↦ executesWhole_of_singleton hs h.1 h.2.1 h.2.2⟩
  · intro hterminal
    refine ⟨fun h ↦ h.fits.2, fun h ↦ executesWhole_of_singleton hs ?_ h.1 h.2⟩
    exact hterminal.pieces_eq (List.append_ne_nil_of_right_ne_nil _ (List.cons_ne_nil _ _)) h.1.le

/-! ## Two lines -/

def selectLine : Line := ⟨ascii "select 1;", by decide, by decide, by decide, by decide⟩

def selectDelivery : Delivery selectLine.typed :=
  ⟨[selectLine.typed], List.flatten_singleton, by decide, by decide⟩

theorem executesWhole_iff_select : ExecutesWhole ⟨.prompting, []⟩ selectLine selectDelivery :=
  (executesWhole_iff rfl selectLine selectDelivery).1.mpr ⟨rfl, by decide, by decide⟩

/-- 150 bytes without the newline. -/
def longLine : Line :=
  ⟨List.replicate 150 (byte 'a'), by decide +kernel, by decide, by decide, by decide⟩

/-- As a terminal hands it out. -/
def longDelivery : Delivery longLine.typed :=
  ⟨[List.replicate 128 (byte 'a'), List.replicate 22 (byte 'a') ++ [lf]], by decide +kernel,
    by decide +kernel, by decide +kernel⟩

theorem not_executesWhole :
    ¬∀ (s : Session) (l : Line) (d : Delivery l.typed), s.phase = .prompting → d.Terminal →
      ExecutesWhole s l d := by
  intro h
  have hterminal : longDelivery.Terminal := fun piece hpiece ↦ by
    obtain rfl := List.mem_singleton.mp hpiece
    exact List.length_replicate
  have hfits := (h ⟨.prompting, []⟩ longLine longDelivery rfl hterminal).fits
  exact absurd hfits.2.1 (by decide +kernel)

end MysqlClient

end CodeOnLinux
