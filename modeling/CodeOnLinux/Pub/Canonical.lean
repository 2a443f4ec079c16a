import CodeOnLinux.Pub.Url

/-!
# Canonical URLs

`strencode` writes lower-case hexadecimal digits and escapes nothing but what it has to, while
`strdecode` reads more: upper-case digits, escapes of bytes that need none, a `%` without digits,
and `%00`, whose NUL ends the C string that is encoded again. So encoding undoes decoding on the
URLs that are written the way `strencode` writes them, and on no others. The general fact is
`Escaping.encode_decode_iff`; here the digits and the NUL of `urlEscaping` are added to it.
-/

namespace CodeOnLinux

namespace Pub

open Memory

def isLowerHex (c : UInt8) : Bool := isDecimal c || (byte 'a' ≤ c && c ≤ byte 'f')

/-- Every byte is a letter, a digit or one of the five marks, or belongs to an escape in lower-case
digits of a byte that is none of these and not NUL. -/
inductive CanonicalUrl : Bytes → Prop
  | nil : CanonicalUrl []
  | unreserved {c : UInt8} {t : Bytes} :
    isUnreserved c = true → CanonicalUrl t → CanonicalUrl (c :: t)
  | escape {a b : UInt8} {t : Bytes} :
    isLowerHex a = true → isLowerHex b = true → hexit a * 16 + hexit b ≠ 0 →
      ¬isUnreserved (UInt8.ofNat (hexit a * 16 + hexit b)) = true → CanonicalUrl t →
        CanonicalUrl (byte '%' :: a :: b :: t)

/-! ## The digits -/

theorem isLowerHex_hexDigit : ∀ n < 16, isLowerHex (hexDigit n) = true := by decide

/-- The digits that `%02x` writes are the lower-case ones. -/
theorem hexDigit_hexit (a : UInt8) (h : isLowerHex a = true) :
    hexit a < 16 ∧ hexDigit (hexit a) = a := by
  have hall : ∀ n < 256, isLowerHex (UInt8.ofNat n) = true →
      hexit (UInt8.ofNat n) < 16 ∧ hexDigit (hexit (UInt8.ofNat n)) = UInt8.ofNat n := by
    decide +kernel
  have ha := hall a.toNat a.toNat_lt
  rw [UInt8.ofNat_toNat] at ha
  exact ha h

theorem ownDigit_iff (a : UInt8) : urlEscaping.OwnDigit a ↔ isLowerHex a = true := by
  constructor
  · rintro ⟨n, hn, rfl⟩
    exact isLowerHex_hexDigit n hn
  · intro h
    obtain ⟨hlt, hdigit⟩ := hexDigit_hexit a h
    exact ⟨hexit a, hlt, hdigit⟩

/-! ## Canonical URLs and canonical texts of the scheme -/

theorem byteOf_eq_zero_iff {a b : UInt8} (ha : isLowerHex a = true) (hb : isLowerHex b = true) :
    UInt8.ofNat (hexit a * 16 + hexit b) = 0 ↔ hexit a * 16 + hexit b = 0 := by
  obtain ⟨halt, -⟩ := hexDigit_hexit a ha
  obtain ⟨hblt, -⟩ := hexDigit_hexit b hb
  rw [← UInt8.toNat_inj, UInt8.toNat_ofNat', UInt8.toNat_zero, Nat.mod_eq_of_lt (by omega)]

theorem CanonicalUrl.canonical {t : Bytes} (h : CanonicalUrl t) :
    urlEscaping.Canonical t ∧ 0 ∉ urlEscaping.decode t := by
  induction h with
  | nil => exact ⟨.nil, List.not_mem_nil⟩
  | unreserved hc _ ih =>
    refine ⟨.safe hc ih.1, ?_⟩
    rw [Escaping.decode_cons_of_ne_mark (Escaping.ne_mark_of_safe hc), List.mem_cons, not_or]
    refine ⟨?_, ih.2⟩
    rintro rfl
    exact absurd hc (by decide)
  | @escape a b t ha hb hne hsafe _ ih =>
    have hown_a := (ownDigit_iff a).mpr ha
    have hown_b := (ownDigit_iff b).mpr hb
    refine ⟨.escape hown_a hown_b hsafe ih.1, ?_⟩
    have hdecode := Escaping.decode_escape hown_a.isDigit hown_b.isDigit t
    rw [show byte '%' = urlEscaping.mark from rfl, hdecode, List.mem_cons, not_or]
    exact ⟨fun h ↦ hne ((byteOf_eq_zero_iff ha hb).mp h.symm), ih.2⟩

theorem canonicalUrl_of_canonical {t : Bytes} (h : urlEscaping.Canonical t)
    (hzero : 0 ∉ urlEscaping.decode t) : CanonicalUrl t := by
  induction h with
  | nil => exact .nil
  | safe hc _ ih =>
    rw [Escaping.decode_cons_of_ne_mark (Escaping.ne_mark_of_safe hc), List.mem_cons, not_or]
      at hzero
    exact .unreserved hc (ih hzero.2)
  | @escape a b t ha hb hsafe _ ih =>
    rw [Escaping.decode_escape ha.isDigit hb.isDigit, List.mem_cons, not_or] at hzero
    have ha' := (ownDigit_iff a).mp ha
    have hb' := (ownDigit_iff b).mp hb
    refine .escape ha' hb' (fun he ↦ hzero.1 ?_) hsafe (ih hzero.2)
    exact ((byteOf_eq_zero_iff ha' hb').mpr he).symm

/-- **Encoding the decoded C string** gives the URL back exactly when it is canonical. A NUL that
an escape decodes to cuts the string, and what is left encodes to something without that escape. -/
theorem encode_cString_decode_iff (t : Bytes) :
    urlEscaping.encode (cString (urlEscaping.decode t)) = t ↔ CanonicalUrl t := by
  constructor
  · intro h
    have hdecode : urlEscaping.decode t = cString (urlEscaping.decode t) := by
      conv_lhs => rw [← h, Escaping.decode_encode]
    have hzero : 0 ∉ urlEscaping.decode t := by
      rw [hdecode]
      exact zero_notMem_cString _
    rw [cString_eq_self hzero] at h
    exact canonicalUrl_of_canonical ((Escaping.encode_decode_iff t).mp h) hzero
  · intro h
    obtain ⟨hcanonical, hzero⟩ := h.canonical
    rw [cString_eq_self hzero]
    exact hcanonical.encode_decode

/-! ## The calls -/

/-- **Encoding undoes decoding exactly on canonical URLs.** The URL is decoded into its own buffer,
a lower or a disjoint one, and the string found there is encoded into any buffer apart from it that
has three bytes for each byte of the URL and two more. -/
theorem strencode_strdecode {m : Bytes} {p q : ℕ} {t : Bytes} (ht : StrAt m p t)
    (hroom : q + (urlEscaping.decode t).length < m.length) (hdisj : q ≤ p ∨ p + t.length < q) :
    ∃ m₁ u, strdecode m q p = .ok m₁ ∧ m₁.length = m.length ∧ StrAt m₁ q u ∧
      ∀ r tosize : ℕ, 3 * t.length + 2 ≤ tosize → (tosize : ℤ) ≤ intMax →
        r + tosize ≤ m₁.length → (r + tosize ≤ q ∨ q + u.length < r) →
        ∃ m₂ e, strencode m₁ r tosize q = .ok m₂ ∧ StrAt m₂ r e ∧ (e = t ↔ CanonicalUrl t) := by
  obtain ⟨m₁, hm₁, hwrote⟩ := strdecode_wrote ht hroom hdisj
  have hu := hwrote.strAt_cString
  refine ⟨m₁, _, hm₁, hwrote.length_eq, hu, fun r tosize hcap hmax hbuf hapart ↦ ?_⟩
  obtain ⟨m₂, hm₂, hwrote₂⟩ := strencode_wrote hu (by omega) hmax hbuf hapart
  refine ⟨m₂, _, hm₂, hwrote₂.strAt (zero_notMem_encode _), ?_⟩
  have hcut := length_cString_le (urlEscaping.decode t)
  have hdecode := Escaping.length_decode_le (E := urlEscaping) t
  rw [fitting_eq_self (by omega)]
  exact encode_cString_decode_iff t

/-- `a%20b`, decoded in place and encoded into the 17 bytes behind it. -/
theorem strencode_strdecode_space :
    ∃ m₁ m₂, strdecode (ascii "a%20b" ++ 0 :: List.replicate 17 255) 0 0 = .ok m₁ ∧
      strencode m₁ 6 17 0 = .ok m₂ ∧ StrAt m₂ 6 (ascii "a%20b") := by
  have ht : StrAt (ascii "a%20b" ++ 0 :: List.replicate 17 255) 0 (ascii "a%20b") := by
    simp [StrAt, ascii, byte]
  obtain ⟨m₁, u, hm₁, hlen, hu, hencode⟩ :=
    strencode_strdecode (q := 0) ht (by decide +kernel) (Or.inl (le_refl 0))
  have hdecode : StrAt m₁ 0 (ascii "a b") := by
    have hm : strdecode (ascii "a%20b" ++ 0 :: List.replicate 17 255) 0 0 =
        .ok (ascii "a b" ++ 0 :: ascii "b" ++ 0 :: List.replicate 17 255) := by decide +kernel
    obtain rfl := Except.ok.inj (hm₁.symm.trans hm)
    simp [StrAt, ascii, byte]
  obtain rfl := hu.unique hdecode
  obtain ⟨m₂, e, hm₂, he, hiff⟩ := hencode 6 17 (by decide) (by decide)
    (by rw [hlen]; decide) (Or.inr (by decide))
  have hcanonical : CanonicalUrl (ascii "a%20b") :=
    .unreserved (by decide) (.escape (a := byte '2') (b := byte '0') (by decide) (by decide)
      (by decide) (by decide) (.unreserved (by decide) .nil))
  obtain rfl := hiff.mpr hcanonical
  exact ⟨m₁, m₂, hm₁, hm₂, he⟩

end Pub

end CodeOnLinux
