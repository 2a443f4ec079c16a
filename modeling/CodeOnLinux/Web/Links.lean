import CodeOnLinux.LibeventServer.Server
import CodeOnLinux.WebServer.Server
import CodeOnLinux.Pub.Components

/-!
# The two web servers side by side: whether a link leads back to its entry

`send_dir` writes the names of a directory into links as they are, and a requested URL goes through
`strdecode`. `strencode`, the inverse, is not called. So a link leads back where there is nothing to
encode: the name has no quote, which would end the attribute, and no `%` with two digits behind it
(`links_leadBack_iff`). In `01_webserver` the line has to fit the buffer besides.
-/

namespace CodeOnLinux

namespace Web

open Memory Pub Stdio
open WebServer (Dirent FileKind)

/-- The value of the first attribute of a line: what stands between the first quote and the next. -/
def hrefValue (line : Bytes) : Bytes :=
  ((line.dropWhile (· ≠ byte '\'')).drop 1).takeWhile (· ≠ byte '\'')

/-- What a request for an entry should come to; a directory is asked for with a slash behind it. -/
def entryName (d : Dirent) : Bytes :=
  if d.kind = .directory then d.name ++ ascii "/" else d.name

/-- Wherever the value of the link stands as a string, decoding it in place gives the entry. -/
def LeadsBack (d : Dirent) (line : Bytes) : Prop :=
  ∀ m p, StrAt m p (hrefValue line) →
    ∃ m', strdecode m p p = .ok m' ∧ StrAt m' p (entryName d)

/-! ## The value of the link -/

/-- Reading up to a quote does not see what is behind the quote. -/
theorem takeWhile_append_quote (name rest : Bytes) :
    (name ++ byte '\'' :: rest).takeWhile (· ≠ byte '\'') = name.takeWhile (· ≠ byte '\'') := by
  have hstop : ¬decide (byte '\'' ≠ byte '\'') = true := by decide
  rw [List.takeWhile_append, List.takeWhile_cons, if_neg hstop, List.append_nil]
  split
  · next hall => exact ((List.takeWhile_prefix _).eq_of_length hall).symm
  · rfl

theorem hrefValue_eq (name rest : Bytes) :
    hrefValue (ascii "<li><a href = '" ++ name ++ byte '\'' :: rest) =
      name.takeWhile (· ≠ byte '\'') := by
  have hfront : ascii "<li><a href = '" = ascii "<li><a href = " ++ [byte '\''] := by decide
  have hquote : ∀ b ∈ ascii "<li><a href = ", decide (b ≠ byte '\'') = true := by
    decide +kernel
  rw [hrefValue, hfront, List.append_assoc, List.append_assoc, List.dropWhile_append_of_pos hquote,
    List.singleton_append, List.dropWhile_cons, if_neg (by decide)]
  exact takeWhile_append_quote name rest

theorem webServer_entryLine {d : Dirent} (hkind : d.kind = .regular ∨ d.kind = .directory) :
    ∃ rest,
      WebServer.entryLine d = ascii "<li><a href = '" ++ entryName d ++ byte '\'' :: rest := by
  rw [WebServer.entryLine, entryName]
  rcases hkind with hkind | hkind
  · rw [hkind]
    exact ⟨ascii "> " ++ d.name ++ ascii "</a></li>", by simp [ascii]⟩
  · rw [hkind]
    exact ⟨ascii "> " ++ d.name ++ ascii "</a></li>", by simp [ascii]⟩

theorem libeventServer_entryLine {d : Dirent} (hkind : d.kind = .regular ∨ d.kind = .directory) :
    ∃ rest, LibeventServer.entryLine d =
      some (ascii "<li><a href = '" ++ entryName d ++ byte '\'' :: rest) := by
  rw [LibeventServer.entryLine, entryName]
  rcases hkind with hkind | hkind
  · rw [hkind]
    exact ⟨ascii ">" ++ d.name ++ ascii "</a></li>", by simp [ascii]⟩
  · rw [hkind]
    exact ⟨ascii ">" ++ d.name ++ ascii "</a></li>", by simp [ascii]⟩

/-! ## Decoding it -/

theorem decode_takeWhile_eq {name : Bytes} (hquote : byte '\'' ∉ name)
    (hplain : urlEscaping.Plain name) :
    urlEscaping.decode (name.takeWhile (· ≠ byte '\'')) = name := by
  have hwhole : name.takeWhile (· ≠ byte '\'') = name :=
    List.takeWhile_eq_self_iff.mpr fun b hb ↦ decide_eq_true fun he ↦ hquote (he ▸ hb)
  rw [hwhole, Escaping.decode_of_plain hplain]

/-- Neither cutting at a quote nor decoding makes a string longer, so where the name comes back
neither has changed it. -/
theorem decode_takeWhile_eq_iff {name : Bytes} (hzero : 0 ∉ name) :
    cString (urlEscaping.decode (name.takeWhile (· ≠ byte '\''))) = name ↔
      byte '\'' ∉ name ∧ urlEscaping.Plain name := by
  have hcut : name.takeWhile (· ≠ byte '\'') <+: name := List.takeWhile_prefix _
  constructor
  · intro h
    have hstring := (List.takeWhile_prefix (· ≠ 0)
      (l := urlEscaping.decode (name.takeWhile (· ≠ byte '\'')))).length_le
    rw [← cString, h] at hstring
    have hdecode := Escaping.length_decode_le (E := urlEscaping) (name.takeWhile (· ≠ byte '\''))
    have hwhole : name.takeWhile (· ≠ byte '\'') = name :=
      hcut.eq_of_length (le_antisymm hcut.length_le (hstring.trans hdecode))
    rw [hwhole] at hstring
    constructor
    · intro hquote
      rw [List.takeWhile_eq_self_iff] at hwhole
      exact absurd (hwhole _ hquote) (by decide)
    · by_contra hplain
      exact absurd (Escaping.length_decode_lt hplain) (Nat.not_lt.mpr hstring)
  · rintro ⟨hquote, hplain⟩
    rw [decode_takeWhile_eq hquote hplain, cString_eq_self hzero]

theorem leadsBack_iff {d : Dirent} (rest : Bytes) (hzero : 0 ∉ entryName d) :
    LeadsBack d (ascii "<li><a href = '" ++ entryName d ++ byte '\'' :: rest) ↔
      byte '\'' ∉ entryName d ∧ urlEscaping.Plain (entryName d) := by
  rw [LeadsBack, hrefValue_eq, ← decode_takeWhile_eq_iff hzero]
  have hdecode : ∀ m p, StrAt m p ((entryName d).takeWhile (· ≠ byte '\'')) →
      ∃ m', strdecode m p p = .ok m' ∧ StrAt m' p
        (cString (urlEscaping.decode ((entryName d).takeWhile (· ≠ byte '\'')))) := by
    intro m p hm
    have hlt := hm.lt_length
    have hle := Escaping.length_decode_le (E := urlEscaping)
      ((entryName d).takeWhile (· ≠ byte '\''))
    obtain ⟨m', hm', hwrote⟩ := strdecode_wrote hm (by omega) (Or.inl (le_refl p))
    exact ⟨m', hm', hwrote.strAt_cString⟩
  constructor
  · intro h
    have hvalue : 0 ∉ (entryName d).takeWhile (· ≠ byte '\'') := fun h ↦
      hzero ((List.takeWhile_prefix _).subset h)
    have hat := strAt_append_zero hvalue []
    obtain ⟨m', hm', hname⟩ := h _ 0 hat
    obtain ⟨m'', hm'', hdecoded⟩ := hdecode _ 0 hat
    obtain rfl := Except.ok.inj (hm'.symm.trans hm'')
    exact hdecoded.unique hname
  · intro h m p hm
    rw [← h]
    exact hdecode m p hm

/-- The slash behind a directory is neither a quote nor a digit. -/
theorem entryName_iff (d : Dirent) :
    (byte '\'' ∉ entryName d ∧ urlEscaping.Plain (entryName d)) ↔
      byte '\'' ∉ d.name ∧ urlEscaping.Plain d.name := by
  rw [entryName]
  split
  · have hslash : ascii "/" = [byte '/'] := rfl
    have hdigit : urlEscaping.isDigit (byte '/') = false := by decide
    have hquote : byte '\'' ≠ byte '/' := by decide
    rw [hslash, Escaping.plain_append_singleton hdigit, List.mem_append, List.mem_singleton,
      or_iff_left hquote]
  · rfl

theorem zero_notMem_entryName {d : Dirent} (hzero : 0 ∉ d.name) : 0 ∉ entryName d := by
  rw [entryName]
  split
  · rw [List.mem_append, not_or]
    exact ⟨hzero, by decide⟩
  · exact hzero

/-- The client appends the value of the link to the URL of the directory that the page is about. -/
theorem decodes_link_iff {dir u : Bytes} {d : Dirent} (rest : Bytes) (hdir : 0 ∉ dir)
    (hzero : 0 ∉ d.name) (hu : Decodes dir u) :
    Decodes (dir ++ byte '/' ::
        hrefValue (ascii "<li><a href = '" ++ entryName d ++ byte '\'' :: rest))
      (u ++ byte '/' :: entryName d) ↔ byte '\'' ∉ d.name ∧ urlEscaping.Plain d.name := by
  have hentry := zero_notMem_entryName hzero
  have hvalue : 0 ∉ (entryName d).takeWhile (· ≠ byte '\'') := fun h ↦
    hentry ((List.takeWhile_prefix _).subset h)
  obtain rfl := (decodes_iff hdir).mp hu
  rw [hrefValue_eq, decodes_iff (zero_notMem_append_slash hdir hvalue), decode_append_slash,
    List.append_cancel_left_eq, List.cons.injEq, and_iff_right rfl, ← entryName_iff]
  constructor
  · intro h
    rw [← decode_takeWhile_eq_iff hentry, ← h, cString_eq_self (h ▸ hentry)]
  · rintro ⟨hquote, hplain⟩
    exact (decode_takeWhile_eq hquote hplain).symm

/-! ## Both servers -/

/-- `send_dir` of `01_webserver` writes a link for the entry, and it leads back. -/
def WebServerLinks (d : Dirent) : Prop :=
  ∃ text, sprintf WebServer.maxSize (WebServer.entryLine d) = .ok text ∧ LeadsBack d text

/-- `send_dir` of `02_Libevent_Server` writes a link for the entry, and it leads back. -/
def LibeventServerLinks (d : Dirent) : Prop :=
  ∃ text, LibeventServer.entryLine d = some text ∧ LeadsBack d text

theorem length_webServer_entryLine {d : Dirent}
    (hkind : d.kind = .regular ∨ d.kind = .directory) : (WebServer.entryLine d).length =
      2 * d.name.length + if d.kind = .directory then 28 else 27 := by
  have hascii : (ascii "<li><a href = '").length = 15 ∧ (ascii "'> ").length = 3 ∧
      (ascii "/'> ").length = 4 ∧ (ascii "</a></li>").length = 9 := by decide
  obtain ⟨hopen, hquote, hslash, hclose⟩ := hascii
  rw [WebServer.entryLine]
  rcases hkind with hkind | hkind
  · simp only [hkind, List.length_append, hopen, hquote, hclose, reduceCtorEq, if_false]
    ring
  · simp only [hkind, List.length_append, hopen, hslash, hclose, if_true]
    ring

/-- The line has no NUL, so `send` is given all of it. -/
theorem zero_notMem_webServer_entryLine {d : Dirent} (hzero : 0 ∉ d.name) :
    0 ∉ WebServer.entryLine d := by
  have hascii : 0 ∉ ascii "<li><a href = '" ∧ 0 ∉ ascii "'> " ∧ 0 ∉ ascii "/'> " ∧
      0 ∉ ascii "</a></li>" := by decide
  obtain ⟨hopen, hquote, hslash, hclose⟩ := hascii
  rw [WebServer.entryLine]
  split
  · simp only [List.mem_append, not_or]
    exact ⟨⟨⟨⟨hopen, hzero⟩, hquote⟩, hzero⟩, hclose⟩
  · simp only [List.mem_append, not_or]
    exact ⟨⟨⟨⟨hopen, hzero⟩, hslash⟩, hzero⟩, hclose⟩
  · exact List.not_mem_nil

/-- **Links lead back**, exactly, for the regular files and the directories among the entries. -/
theorem links_leadBack_iff {d : Dirent} (hkind : d.kind = .regular ∨ d.kind = .directory)
    (hzero : 0 ∉ d.name) :
    (WebServerLinks d ↔ byte '\'' ∉ d.name ∧ urlEscaping.Plain d.name ∧
      2 * d.name.length + (if d.kind = .directory then 28 else 27) < 4096) ∧
    (LibeventServerLinks d ↔ byte '\'' ∉ d.name ∧ urlEscaping.Plain d.name) := by
  have hentry := zero_notMem_entryName hzero
  constructor
  · have hfits : (WebServer.entryLine d).length < WebServer.maxSize ↔
        2 * d.name.length + (if d.kind = .directory then 28 else 27) < 4096 := by
      rw [length_webServer_entryLine hkind, WebServer.maxSize]
    have htext : cString (WebServer.entryLine d) = WebServer.entryLine d :=
      cString_eq_self (zero_notMem_webServer_entryLine hzero)
    obtain ⟨rest, hrest⟩ := webServer_entryLine hkind
    rw [← hfits, ← and_assoc, ← entryName_iff, ← leadsBack_iff rest hentry, ← hrest]
    constructor
    · rintro ⟨text, hsprintf, hback⟩
      obtain ⟨hlt, rfl⟩ := sprintf_eq_ok hsprintf
      exact ⟨htext ▸ hback, hlt⟩
    · rintro ⟨hback, hlt⟩
      exact ⟨_, sprintf_ok hlt, htext.symm ▸ hback⟩
  · obtain ⟨rest, hrest⟩ := libeventServer_entryLine hkind
    rw [← entryName_iff, ← leadsBack_iff rest hentry, LibeventServerLinks, hrest]
    constructor
    · rintro ⟨text, heq, hback⟩
      exact Option.some_inj.mp heq ▸ hback
    · intro hback
      exact ⟨_, rfl, hback⟩

/-- A directory whose name has a `%` without digits behind it, and a blank. -/
theorem links_leadBack_blank : WebServerLinks ⟨.directory, ascii "100% sure"⟩ ∧
    LibeventServerLinks ⟨.directory, ascii "100% sure"⟩ := by
  have hzero : 0 ∉ ascii "100% sure" := by decide
  have hquote : byte '\'' ∉ ascii "100% sure" := by decide
  have hplain : urlEscaping.Plain (ascii "100% sure") := by decide
  obtain ⟨hweb, hlibevent⟩ :=
    links_leadBack_iff (d := ⟨.directory, ascii "100% sure"⟩) (Or.inr rfl) hzero
  exact ⟨hweb.mpr ⟨hquote, hplain, by decide⟩, hlibevent.mpr ⟨hquote, hplain⟩⟩

/-- The name of this file reads as an escape. -/
theorem not_links_leadBack : ¬∀ d : Dirent, d.kind = .regular ∨ d.kind = .directory →
    d.name ≠ [] → 0 ∉ d.name → byte '/' ∉ d.name → WebServerLinks d ∧ LibeventServerLinks d := by
  intro h
  have hkind : FileKind.regular = .regular ∨ FileKind.regular = .directory := Or.inl rfl
  have hzero : 0 ∉ ascii "50%25.txt" := by decide
  obtain ⟨-, text, htext, hback⟩ :=
    h ⟨.regular, ascii "50%25.txt"⟩ hkind (by decide) hzero (by decide)
  obtain ⟨rest, hrest⟩ := libeventServer_entryLine (d := ⟨.regular, ascii "50%25.txt"⟩) hkind
  rw [← Option.some_inj.mp (hrest.symm.trans htext),
    leadsBack_iff rest (zero_notMem_entryName hzero), entryName_iff] at hback
  have hescape : ¬urlEscaping.Plain (ascii "50%25.txt") := by decide
  exact hescape hback.2

end Web

end CodeOnLinux
