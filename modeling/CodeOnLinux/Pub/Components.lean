import CodeOnLinux.Pub.Url

/-!
# Decoding component by component

`strdecode` looks two bytes ahead, but a slash is neither the mark of an escape nor a digit, so the
decoding of a path is that of its components with the slashes between them, whatever complete or
incomplete escapes stand at their ends (`Escaping.decode_append_cons`). A link in a directory page
is relative: the client appends it to the URL of the directory, which ends in a slash, and the
server decodes the whole.

What the function writes is described by `Decodes`, over all calls with a given string: an escape
may decode to NUL, so what a single call leaves in memory does not say by itself where the decoded
string ends.
-/

namespace CodeOnLinux

namespace Pub

open Memory

/-- Every call that is given the string `s`, in whatever block, and a destination with room for it
that is the string itself, lies below it or is disjoint from it, writes `w` and a final NUL. -/
def Decodes (s w : Bytes) : Prop :=
  ∀ m toPtr fromPtr, StrAt m fromPtr s → toPtr + w.length < m.length →
    toPtr ≤ fromPtr ∨ fromPtr + s.length < toPtr →
    ∃ m', strdecode m toPtr fromPtr = .ok m' ∧ Wrote m m' toPtr (w ++ [0])

/-! ## One string -/

theorem decodes_decode (s : Bytes) : Decodes s (urlEscaping.decode s) :=
  fun _ _ _ hs hroom hdisj ↦ strdecode_wrote hs hroom hdisj

/-- A block with the string at its front and no NUL in the `n` cells behind its terminator. -/
def freshBlock (s : Bytes) (n : ℕ) : Bytes := s ++ 0 :: List.replicate n 255

theorem length_freshBlock (s : Bytes) (n : ℕ) : (freshBlock s n).length = s.length + 1 + n := by
  rw [freshBlock, List.length_append, List.length_cons, List.length_replicate]
  omega

theorem getElem?_freshBlock_ne {s : Bytes} {n i : ℕ} (hi : s.length + 1 ≤ i) :
    (freshBlock s n)[i]? ≠ some 0 := by
  rw [freshBlock, List.getElem?_append_right (by omega)]
  obtain ⟨k, hk⟩ : ∃ k, i - s.length = k + 1 := ⟨i - s.length - 1, by omega⟩
  rw [hk, List.getElem?_cons_succ]
  intro h
  exact absurd (List.eq_of_mem_replicate (List.mem_of_getElem? h)) (by decide)

/-- On a fresh block the final NUL can be seen, and with it where the decoded string ends. -/
theorem Decodes.unique {s w w' : Bytes} (hs : 0 ∉ s) (hw : Decodes s w) (hw' : Decodes s w') :
    w = w' := by
  have hlen := length_freshBlock s (w.length + w'.length + 1)
  have hat : StrAt (freshBlock s (w.length + w'.length + 1)) 0 s := strAt_append_zero hs _
  have hdisj : s.length + 1 ≤ 0 ∨ 0 + s.length < s.length + 1 := Or.inr (by omega)
  obtain ⟨m', hm', hwrote⟩ := hw _ _ 0 hat (by omega) hdisj
  obtain ⟨m'', hm'', hwrote'⟩ := hw' _ _ 0 hat (by omega) hdisj
  obtain rfl := Except.ok.inj (hm'.symm.trans hm'')
  have hlt := hwrote.length_lt hwrote' (getElem?_freshBlock_ne (Nat.le_add_right _ _))
  have hlt' := hwrote'.length_lt hwrote (getElem?_freshBlock_ne (Nat.le_add_right _ _))
  rw [List.length_append, List.length_singleton] at hlt hlt'
  have hsame : (w ++ [0]).length = (w' ++ [0]).length := by
    rw [List.length_append, List.length_append]
    omega
  exact List.append_cancel_right (hwrote.eq_of_length_eq hwrote' hsame)

theorem decodes_iff {s w : Bytes} (hs : 0 ∉ s) : Decodes s w ↔ w = urlEscaping.decode s := by
  constructor
  · intro h
    exact h.unique hs (decodes_decode s)
  · rintro rfl
    exact decodes_decode s

/-! ## A path -/

theorem decode_append_slash (a b : Bytes) : urlEscaping.decode (a ++ byte '/' :: b) =
    urlEscaping.decode a ++ byte '/' :: urlEscaping.decode b :=
  Escaping.decode_append_cons (by decide) (by decide) a b

theorem zero_notMem_append_slash {a b : Bytes} (ha : 0 ∉ a) (hb : 0 ∉ b) :
    0 ∉ a ++ byte '/' :: b := by
  rw [List.mem_append, List.mem_cons, not_or, not_or]
  exact ⟨ha, by decide, hb⟩

/-- **Decoding goes component by component.** There is one byte string that the calls write for
`a`, and one that they write for `b`. What they write for the two with a slash between them is these
two with a slash between them. In particular `a/`, the URL of a directory, is decoded to the first
and a slash, and a link `b` appended to it to that followed by the second. -/
theorem decodes_append_slash {a b : Bytes} (ha : 0 ∉ a) (hb : 0 ∉ b) :
    ∃ u v, (∀ w, Decodes a w ↔ w = u) ∧ (∀ w, Decodes b w ↔ w = v) ∧
      (∀ w, Decodes (a ++ byte '/' :: b) w ↔ w = u ++ byte '/' :: v) ∧
      (∀ w, Decodes (a ++ [byte '/']) w ↔ w = u ++ [byte '/']) ∧
      ∀ w, Decodes ((a ++ [byte '/']) ++ b) w ↔ w = (u ++ [byte '/']) ++ v := by
  have hjoined : ∀ w, Decodes (a ++ byte '/' :: b) w ↔
      w = urlEscaping.decode a ++ byte '/' :: urlEscaping.decode b := fun w ↦ by
    rw [decodes_iff (zero_notMem_append_slash ha hb), decode_append_slash]
  refine ⟨urlEscaping.decode a, urlEscaping.decode b, fun w ↦ decodes_iff ha,
    fun w ↦ decodes_iff hb, hjoined, fun w ↦ ?_, fun w ↦ ?_⟩
  · rw [decodes_iff (zero_notMem_append_slash ha List.not_mem_nil), decode_append_slash,
      Escaping.decode_nil]
  · rw [List.append_assoc, List.append_assoc]
    exact hjoined w

/-- A directory whose URL ends in the start of an escape, and a link that begins with its digit. -/
theorem decodes_append_slash_truncated : Decodes (ascii "%41%4/1%42") (ascii "A%4/1B") := by
  have ha : 0 ∉ ascii "%41%4" := by decide
  have hb : 0 ∉ ascii "1%42" := by decide
  obtain ⟨u, v, hu, hv, huv, -⟩ := decodes_append_slash ha hb
  have hdecode : ascii "A%4" = urlEscaping.decode (ascii "%41%4") ∧
      ascii "1B" = urlEscaping.decode (ascii "1%42") := by decide +kernel
  obtain rfl := (hu _).mp ((decodes_iff ha).mpr hdecode.1)
  obtain rfl := (hv _).mp ((decodes_iff hb).mpr hdecode.2)
  exact (huv _).mpr rfl

end Pub

end CodeOnLinux
