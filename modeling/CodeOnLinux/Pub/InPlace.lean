import CodeOnLinux.Pub.Url

/-!
# Decoding in place

Both web servers call `strdecode(url, url)`. That the destination is the source makes no difference:
the write cursor never overtakes the read cursor, and the look at two bytes behind a `%` stops at
the terminator. The second is stated by locality. On the block that is cut off right behind the
terminator, where a further read would be a fault, the call returns, and what stands behind it in a
longer block is neither read nor changed.
-/

namespace CodeOnLinux

namespace Pub

open Memory

/-- A string does not reach behind its terminator. -/
theorem strAt_take_append {m : Bytes} {p : ℕ} {s : Bytes} (hs : StrAt m p s) (tail : Bytes) :
    StrAt (m.take (p + s.length + 1) ++ tail) p s := by
  have hlt := hs.lt_length
  refine hs.congr fun i _ hi ↦ ?_
  rw [List.getElem?_append_left (by rw [List.length_take]; omega), List.getElem?_take,
    if_pos (by omega)]

/-- Decoding in place is local to the string and its terminator. -/
theorem strdecode_local {m : Bytes} {p : ℕ} {s : Bytes} (hs : StrAt m p s) :
    ∃ front, Wrote (m.take (p + s.length + 1)) front p (urlEscaping.decode s ++ [0]) ∧
      ∀ tail, strdecode (m.take (p + s.length + 1) ++ tail) p p = .ok (front ++ tail) := by
  have hlen := Escaping.length_decode_le (E := urlEscaping) s
  have hlt := hs.lt_length
  have htake : (m.take (p + s.length + 1)).length = p + s.length + 1 := by
    rw [List.length_take]
    omega
  have hcut := strAt_take_append hs []
  rw [List.append_nil] at hcut
  obtain ⟨front, -, hwrote⟩ := strdecode_wrote hcut (by omega) (Or.inl (le_refl p))
  refine ⟨front, hwrote, fun tail ↦ ?_⟩
  have hroom : p + (urlEscaping.decode s).length < (m.take (p + s.length + 1) ++ tail).length := by
    rw [List.length_append]
    omega
  obtain ⟨m', hm', hwrote'⟩ := strdecode_wrote (strAt_take_append hs tail) hroom
    (Or.inl (le_refl p))
  have hframe := hwrote.frame (by rw [List.length_append, List.length_singleton]; omega) tail
  rw [hm', hwrote'.unique hframe]

/-- **Decoding in place.** At `p` the call leaves the decoded string and a NUL, the same as it
leaves at any `q` that is disjoint from the string; the decoded string is shorter than the original
by two bytes for each escape. Nothing but the cells it fills is changed, and nothing behind the
terminator is read: with anything behind it, also with nothing, the call does the same. -/
theorem strdecode_inPlace {m : Bytes} {p : ℕ} {s : Bytes} (hs : StrAt m p s) :
    (∃ m', strdecode m p p = .ok m' ∧ Wrote m m' p (urlEscaping.decode s ++ [0])) ∧
    (∀ q, q + (urlEscaping.decode s).length < p ∨ p + s.length < q →
      q + (urlEscaping.decode s).length < m.length →
        ∃ m', strdecode m q p = .ok m' ∧ Wrote m m' q (urlEscaping.decode s ++ [0])) ∧
    (urlEscaping.decode s).length + 2 * urlEscaping.escapes s = s.length ∧
    ∃ front, front.length = p + s.length + 1 ∧
      ∀ tail, strdecode (m.take (p + s.length + 1) ++ tail) p p = .ok (front ++ tail) := by
  have hlen := Escaping.length_decode_le (E := urlEscaping) s
  have hlt := hs.lt_length
  refine ⟨strdecode_wrote hs (by omega) (Or.inl (le_refl p)), fun q hq hroom ↦ ?_,
    Escaping.length_decode_add s, ?_⟩
  · exact strdecode_wrote hs hroom (hq.imp_left fun hlt ↦ by omega)
  · obtain ⟨front, hwrote, hlocal⟩ := strdecode_local hs
    refine ⟨front, ?_, hlocal⟩
    rw [hwrote.length_eq, List.length_take]
    omega

/-- A whole escape, one that lacks a digit, and the start of one at the very end. -/
theorem strdecode_inPlace_truncated :
    ∃ m', strdecode (ascii "%4A%4%4" ++ [0, 7]) 0 0 = .ok m' ∧
      Wrote (ascii "%4A%4%4" ++ [0, 7]) m' 0 (ascii "J%4%4" ++ [0]) := by
  have hs : StrAt (ascii "%4A%4%4" ++ [0, 7]) 0 (ascii "%4A%4%4") := by simp [StrAt, ascii, byte]
  have hdecode : urlEscaping.decode (ascii "%4A%4%4") = ascii "J%4%4" := by decide +kernel
  obtain ⟨m', hm', hwrote⟩ := (strdecode_inPlace hs).1
  exact ⟨m', hm', hdecode ▸ hwrote⟩

end Pub

end CodeOnLinux
