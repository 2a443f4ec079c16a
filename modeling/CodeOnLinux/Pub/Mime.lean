import CodeOnLinux.Foundation.Stdio

/-!
# The media type of a file: `get_mime_type` of `pub.c`

The function looks for the last dot of the whole path, wherever that stands. A dot in a directory
name is never the right one, since the text from there on has a slash in it and no listed extension
has: so the type depends on the last component alone (`getMimeType_append_slash`).
-/

namespace CodeOnLinux

namespace Pub

open Stdio

/-- The string from the last byte `c` on. -/
def strrchr (c : UInt8) : Bytes → Option Bytes
  | [] => none
  | b :: s =>
    match strrchr c s with
    | some t => some t
    | none => if b = c then some (b :: s) else none

/-- The extensions that `get_mime_type` compares with, in its order. -/
def mimeTable : List (List String × String) :=
  [([".html", ".htm"], "text/html; charset=utf-8"),
    ([".jpg", ".jpeg"], "image/jpeg"),
    ([".gif"], "image/gif"),
    ([".png"], "image/png"),
    ([".css"], "text/css"),
    ([".au"], "audio/basic"),
    ([".wav"], "audio/wav"),
    ([".avi"], "video/x-msvideo"),
    ([".mov", ".qt"], "video/quicktime"),
    ([".mpeg", ".mpe"], "video/mpeg"),
    ([".vrml", ".wrl"], "model/vrml"),
    ([".midi", ".mid"], "audio/midi"),
    ([".mp3"], "audio/mpeg"),
    ([".ogg"], "application/ogg"),
    ([".pac"], "application/x-ns-proxy-autoconfig")]

def defaultMimeType : String := "text/plain; charset=utf-8"

def getMimeType (name : Bytes) : Bytes :=
  match strrchr (byte '.') name with
  | none => ascii defaultMimeType
  | some dot =>
    match mimeTable.find? fun entry ↦ dot ∈ entry.1.map ascii with
    | some entry => ascii entry.2
    | none => ascii defaultMimeType

theorem getMimeType_mem (name : Bytes) :
    getMimeType name ∈ (defaultMimeType :: mimeTable.map Prod.snd).map ascii := by
  have hdefault : ascii defaultMimeType ∈ (defaultMimeType :: mimeTable.map Prod.snd).map ascii :=
    List.mem_map_of_mem List.mem_cons_self
  rw [getMimeType]
  split
  · exact hdefault
  · split
    · next entry hentry =>
      refine List.mem_map_of_mem (List.mem_cons_of_mem _ (List.mem_map_of_mem ?_))
      exact List.mem_of_find?_eq_some hentry
    · exact hdefault

/-- The types are short ASCII texts. -/
theorem length_getMimeType_lt (name : Bytes) : (getMimeType name).length < 64 := by
  have hall : ∀ text ∈ (defaultMimeType :: mimeTable.map Prod.snd).map ascii, text.length < 64 := by
    decide +kernel
  exact hall _ (getMimeType_mem name)

theorem printable_getMimeType (name : Bytes) : Printable (getMimeType name) := by
  have hall : ∀ text ∈ (defaultMimeType :: mimeTable.map Prod.snd).map ascii, Printable text := by
    decide +kernel
  exact hall _ (getMimeType_mem name)

/-! ## The last dot -/

theorem exists_last_of_mem {c : UInt8} {s : Bytes} (h : c ∈ s) :
    ∃ front rest, s = front ++ c :: rest ∧ c ∉ rest := by
  obtain ⟨rest, front, hs, hrest⟩ := List.eq_append_cons_of_mem (List.mem_reverse.mpr h)
  refine ⟨front.reverse, rest.reverse, ?_, fun hmem ↦ hrest (List.mem_reverse.mp hmem)⟩
  rw [← List.reverse_reverse s, hs, List.reverse_append, List.reverse_cons, List.append_assoc,
    List.singleton_append]

theorem strrchr_of_notMem {c : UInt8} {s : Bytes} (h : c ∉ s) : strrchr c s = none := by
  induction s with
  | nil => rfl
  | cons b s ih =>
    rw [List.mem_cons, not_or] at h
    rw [strrchr, ih h.2]
    exact if_neg (Ne.symm h.1)

theorem strrchr_append_cons {c : UInt8} (front : Bytes) {rest : Bytes} (h : c ∉ rest) :
    strrchr c (front ++ c :: rest) = some (c :: rest) := by
  induction front with
  | nil =>
    rw [List.nil_append, strrchr, strrchr_of_notMem h]
    exact if_pos rfl
  | cons b front ih => rw [List.cons_append, strrchr, ih]

/-! ## The table -/

theorem slash_notMem_extension : ∀ entry ∈ mimeTable, ∀ text ∈ entry.1.map ascii,
    byte '/' ∉ text := by
  decide +kernel

/-- No extension is listed for two types. -/
theorem mimeTable_unique : ∀ entry ∈ mimeTable, ∀ entry' ∈ mimeTable,
    ∀ text ∈ entry.1.map ascii, text ∈ entry'.1.map ascii → entry = entry' := by
  decide +kernel

theorem getMimeType_of_listed {name dot : Bytes} {entry : List String × String}
    (hdot : strrchr (byte '.') name = some dot) (hentry : entry ∈ mimeTable)
    (hlisted : dot ∈ entry.1.map ascii) : getMimeType name = ascii entry.2 := by
  cases hfind : mimeTable.find? fun entry ↦ dot ∈ entry.1.map ascii with
  | none => exact absurd (decide_eq_true hlisted) (List.find?_eq_none.mp hfind entry hentry)
  | some found =>
    have hsome := List.find?_some hfind
    have hfound : dot ∈ found.1.map ascii := of_decide_eq_true hsome
    have hmem : found ∈ mimeTable := List.mem_of_find?_eq_some hfind
    rw [mimeTable_unique entry hentry found hmem dot hlisted hfound]
    simp only [getMimeType, hdot, hfind]

theorem getMimeType_of_not_listed {name : Bytes}
    (h : ∀ dot, strrchr (byte '.') name = some dot →
      ∀ entry ∈ mimeTable, dot ∉ entry.1.map ascii) :
    getMimeType name = ascii defaultMimeType := by
  cases hdot : strrchr (byte '.') name with
  | none => simp only [getMimeType, hdot]
  | some dot =>
    have hfind : (mimeTable.find? fun entry ↦ dot ∈ entry.1.map ascii) = none :=
      List.find?_eq_none.mpr fun entry hentry hlisted ↦
        h dot hdot entry hentry (of_decide_eq_true hlisted)
    simp only [getMimeType, hdot, hfind]

/-- Without a dot there is no extension. -/
theorem getMimeType_of_notMem {name : Bytes} (h : byte '.' ∉ name) :
    getMimeType name = ascii defaultMimeType :=
  getMimeType_of_not_listed fun dot hdot ↦ by
    rw [strrchr_of_notMem h] at hdot
    exact absurd hdot (Option.some_ne_none dot).symm

/-! ## The last component -/

/-- A dot in front of a slash does not count, if no dot follows the slash. -/
theorem getMimeType_append_slash_of_notMem (d : Bytes) {n : Bytes} (hn : byte '.' ∉ n) :
    getMimeType (d ++ byte '/' :: n) = ascii defaultMimeType := by
  have hslash : byte '.' ∉ byte '/' :: n := by
    rw [List.mem_cons, not_or]
    exact ⟨by decide, hn⟩
  by_cases hd : byte '.' ∈ d
  · obtain ⟨front, rest, rfl, hrest⟩ := exists_last_of_mem hd
    have hlast : byte '.' ∉ rest ++ byte '/' :: n := by
      rw [List.mem_append, not_or]
      exact ⟨hrest, hslash⟩
    refine getMimeType_of_not_listed fun dot hdot entry hentry hlisted ↦ ?_
    rw [List.append_assoc, List.cons_append, strrchr_append_cons front hlast] at hdot
    obtain rfl := Option.some_inj.mp hdot
    exact slash_notMem_extension entry hentry _ hlisted (by simp)
  · refine getMimeType_of_notMem ?_
    rw [List.mem_append, not_or]
    exact ⟨hd, hslash⟩

/-- **The type depends on the last component.** Whatever path stands in front of a name, the type is
the one for the name: the listed one for the text from its last dot to its end, if that is listed,
and plain text otherwise. -/
theorem getMimeType_append_slash (d n : Bytes) :
    getMimeType (d ++ byte '/' :: n) = getMimeType n ∧
    (byte '.' ∉ n → getMimeType n = ascii defaultMimeType) ∧
    ∀ front rest, n = front ++ byte '.' :: rest → byte '.' ∉ rest →
      (∀ entry ∈ mimeTable, byte '.' :: rest ∈ entry.1.map ascii →
        getMimeType n = ascii entry.2) ∧
      ((∀ entry ∈ mimeTable, byte '.' :: rest ∉ entry.1.map ascii) →
        getMimeType n = ascii defaultMimeType) := by
  refine ⟨?_, getMimeType_of_notMem, ?_⟩
  · by_cases hdot : byte '.' ∈ n
    · obtain ⟨front, rest, rfl, hrest⟩ := exists_last_of_mem hdot
      have hfront : d ++ byte '/' :: (front ++ byte '.' :: rest) =
          (d ++ byte '/' :: front) ++ byte '.' :: rest := by
        rw [List.append_assoc, List.cons_append]
      have hsame : strrchr (byte '.') (d ++ byte '/' :: (front ++ byte '.' :: rest)) =
          strrchr (byte '.') (front ++ byte '.' :: rest) := by
        rw [hfront, strrchr_append_cons _ hrest, strrchr_append_cons _ hrest]
      rw [getMimeType, hsame, getMimeType]
    · rw [getMimeType_append_slash_of_notMem d hdot, getMimeType_of_notMem hdot]
  · rintro front rest rfl hrest
    have hlast := strrchr_append_cons front hrest
    refine ⟨fun entry hentry hlisted ↦ getMimeType_of_listed hlast hentry hlisted, fun h ↦ ?_⟩
    refine getMimeType_of_not_listed fun dot hdot ↦ ?_
    obtain rfl := Option.some_inj.mp (hlast.symm.trans hdot)
    exact h

/-- A page in a directory whose name has a dot, and a name without a dot in a directory that is
called like a page. -/
theorem getMimeType_pages :
    getMimeType (ascii "a.b/x.html") = ascii "text/html; charset=utf-8" ∧
      getMimeType (ascii "a.html/x") = ascii "text/plain; charset=utf-8" := by
  have hpage : ascii "a.b/x.html" = ascii "a.b" ++ byte '/' :: ascii "x.html" := by decide
  have hplain : ascii "a.html/x" = ascii "a.html" ++ byte '/' :: ascii "x" := by decide
  obtain ⟨hname, -, hlisted⟩ := getMimeType_append_slash (ascii "a.b") (ascii "x.html")
  obtain ⟨hname', hnodot, -⟩ := getMimeType_append_slash (ascii "a.html") (ascii "x")
  constructor
  · rw [hpage, hname]
    exact (hlisted (ascii "x") (ascii "html") (by decide) (by decide)).1 _ List.mem_cons_self
      (by decide)
  · rw [hplain, hname']
    exact hnodot (by decide)

end Pub

end CodeOnLinux
