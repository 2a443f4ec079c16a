import CodeOnLinux.Foundation.Escape

/-!
# Percent-encoding in `pub.c`

`strencode` and `strdecode` are loops over two cursors that move by one or by three bytes. The
embedding keeps them as they are: byte memory, `to` and `from` as addresses `toPtr` and `fromPtr`
that may lie anywhere in it (both servers call `strdecode(url, url)`), each read and each write
checked. A `char` is a byte; the comparisons of the source come out the same for a signed `char`,
and in the C locale `isalnum` and `isxdigit` are false from `0x80` on.

Over it stands the escape scheme `urlEscaping`, for which the general theory of escaping says that
reading undoes writing. The two loops are connected to it by `strdecode_wrote` and
`strencode_wrote`, each proved by induction on the string that is left at `from`.
-/

namespace CodeOnLinux

namespace Pub

open Memory

/-! ## Character classes -/

def isDecimal (c : UInt8) : Bool := byte '0' ≤ c && c ≤ byte '9'

def isalnum (c : UInt8) : Bool :=
  isDecimal c || (byte 'a' ≤ c && c ≤ byte 'z') || (byte 'A' ≤ c && c ≤ byte 'Z')

def isxdigit (c : UInt8) : Bool :=
  isDecimal c || (byte 'a' ≤ c && c ≤ byte 'f') || (byte 'A' ≤ c && c ≤ byte 'F')

def hexit (c : UInt8) : ℕ :=
  if byte '0' ≤ c ∧ c ≤ byte '9' then (c - byte '0').toNat
  else if byte 'a' ≤ c ∧ c ≤ byte 'f' then (c - byte 'a').toNat + 10
  else if byte 'A' ≤ c ∧ c ≤ byte 'F' then (c - byte 'A').toNat + 10
  else 0

/-- The digits of the `%x` conversion. -/
def hexDigit (n : ℕ) : UInt8 := (ascii "0123456789abcdef").getD n 0

/-! ## `strdecode` -/

/-- The test `from[0] == '%' && isxdigit(from[1]) && isxdigit(from[2])`, which reads no further
than it has to. -/
def atEscape (m : Bytes) (fromPtr : ℕ) : Checked Bool := do
  let c ← load m fromPtr
  if c = byte '%' then
    let d ← load m (fromPtr + 1)
    if isxdigit d then
      let e ← load m (fromPtr + 2)
      return isxdigit e
    else return false
  else return false

def strdecodeLoop : ℕ → Bytes → ℕ → ℕ → Checked Bytes
  | 0, _, _, _ => .error .outOfFuel
  | fuel + 1, m, toPtr, fromPtr => do
    let c ← load m fromPtr
    if c = 0 then
      store m toPtr 0
    else
      let escape ← atEscape m fromPtr
      if escape then
        let d ← load m (fromPtr + 1)
        let e ← load m (fromPtr + 2)
        let m ← store m toPtr (UInt8.ofNat (hexit d * 16 + hexit e))
        strdecodeLoop fuel m (toPtr + 1) (fromPtr + 3)
      else
        let m ← store m toPtr c
        strdecodeLoop fuel m (toPtr + 1) (fromPtr + 1)

/-- Every turn of the loop reads a further cell, so more turns than cells end in a fault. -/
def strdecode (m : Bytes) (toPtr fromPtr : ℕ) : Checked Bytes :=
  strdecodeLoop (m.length + 1) m toPtr fromPtr

/-! ## `strencode` -/

def isUnreserved (c : UInt8) : Bool := isalnum c || (ascii "/_.-~").contains c

/-- What `sprintf(to, "%%%02x", c & 0xff)` stores, its NUL included. -/
def sprintfEscape (c : UInt8) : Bytes :=
  [byte '%', hexDigit (c.toNat / 16), hexDigit (c.toNat % 16), 0]

/-- `tolen` is an `int`, and `tolen + 4` is converted to the unsigned type of `tosize` for the
comparison. -/
def strencodeLoop (tosize : ℕ) : ℕ → Bytes → ℕ → ℤ → ℕ → Checked Bytes
  | 0, _, _, _, _ => .error .outOfFuel
  | fuel + 1, m, toPtr, tolen, fromPtr => do
    let c ← load m fromPtr
    if c = 0 then
      store m toPtr 0
    else if toSizeT (wrapInt (tolen + 4)) < tosize then
      if isUnreserved c then
        let m ← store m toPtr c
        strencodeLoop tosize fuel m (toPtr + 1) (wrapInt (tolen + 1)) (fromPtr + 1)
      else
        let m ← storeAll m toPtr (sprintfEscape c)
        strencodeLoop tosize fuel m (toPtr + 3) (wrapInt (tolen + 3)) (fromPtr + 1)
    else
      store m toPtr 0

def strencode (m : Bytes) (toPtr tosize fromPtr : ℕ) : Checked Bytes :=
  strencodeLoop tosize (m.length + 1) m toPtr 0 fromPtr

/-! ## The escape scheme -/

theorem isxdigit_hexDigit : ∀ n < 16, isxdigit (hexDigit n) = true := by decide

theorem hexit_hexDigit : ∀ n < 16, hexit (hexDigit n) = n := by decide

/-- The scheme of `strencode` and `strdecode`. -/
def urlEscaping : Escaping where
  mark := byte '%'
  safe := isUnreserved
  isDigit := isxdigit
  value := hexit
  digit := hexDigit
  mark_not_safe := by decide
  isDigit_digit := isxdigit_hexDigit
  value_digit := hexit_hexDigit

/-! ## `strdecode` reads the scheme -/

theorem load_strAt_nil {m : Bytes} {p : ℕ} (h : StrAt m p []) : load m p = .ok 0 := load_ok h

theorem load_strAt_cons {m : Bytes} {p : ℕ} {a : UInt8} {s : Bytes} (h : StrAt m p (a :: s)) :
    load m p = .ok a := load_ok h.1

/-- The test of the loop agrees with the scheme; a string that ends too early stops it at its
terminator. -/
theorem atEscape_strAt {m : Bytes} {p : ℕ} {a : UInt8} {s : Bytes} (h : StrAt m p (a :: s)) :
    atEscape m p = .ok (urlEscaping.escape? (a :: s)).isSome := by
  have hzero : isxdigit 0 = false := by decide
  rw [atEscape, load_strAt_cons h, Checked.ok_bind]
  by_cases ha : a = byte '%'
  · subst ha
    rw [if_pos rfl]
    match s, h.2.2 with
    | [], h₁ =>
      rw [load_strAt_nil h₁, Checked.ok_bind, hzero]
      rfl
    | [b], h₁ =>
      rw [load_strAt_cons h₁, Checked.ok_bind]
      cases hb : isxdigit b with
      | false => rfl
      | true =>
        rw [if_pos rfl, load_strAt_nil h₁.2.2, Checked.ok_bind, hzero]
        rfl
    | b :: c :: s, h₁ =>
      rw [load_strAt_cons h₁, Checked.ok_bind, Escaping.escape?]
      cases hb : isxdigit b with
      | false => simp [urlEscaping, hb]
      | true =>
        rw [if_pos rfl, load_strAt_cons h₁.2.2, Checked.ok_bind]
        cases hc : isxdigit c <;> simp [urlEscaping, hb, hc]
  · rw [if_neg ha, Escaping.escape?_of_ne_mark ha]
    rfl

/-- What the two digits after a mark are, when the scheme sees an escape. -/
theorem strAt_of_escape? {m : Bytes} {p : ℕ} {a b : UInt8} {s : Bytes} (h : StrAt m p (a :: s))
    (he : urlEscaping.escape? (a :: s) = some b) :
    ∃ d e, load m (p + 1) = .ok d ∧ load m (p + 2) = .ok e ∧
      UInt8.ofNat (hexit d * 16 + hexit e) = b ∧ StrAt m (p + 3) (s.drop 2) := by
  match s, h.2.2 with
  | [], _ => exact absurd he (by simp [Escaping.escape?])
  | [_], _ => exact absurd he (by simp [Escaping.escape?])
  | d :: e :: s, h₁ =>
    obtain ⟨-, hb⟩ := Option.ite_none_right_eq_some.mp he
    exact ⟨d, e, load_strAt_cons h₁, load_strAt_cons h₁.2.2, Option.some_inj.mp hb, h₁.2.2.2.2⟩

/-- **One turn.** An escape or a byte is read, `k` bytes in all, and the byte it stands for is
written. -/
theorem strdecodeLoop_cons (fuel : ℕ) {m : Bytes} {toPtr fromPtr : ℕ} {a : UInt8} {s : Bytes}
    (hs : StrAt m fromPtr (a :: s)) (hto : toPtr < m.length) :
    ∃ b k rest, strdecodeLoop (fuel + 1) m toPtr fromPtr =
        strdecodeLoop fuel (m.set toPtr b) (toPtr + 1) (fromPtr + k) ∧
      urlEscaping.decode (a :: s) = b :: urlEscaping.decode rest ∧
      StrAt m (fromPtr + k) rest ∧ rest.length + k = s.length + 1 ∧ 1 ≤ k := by
  rw [strdecodeLoop, load_strAt_cons hs, Checked.ok_bind, if_neg hs.2.1, atEscape_strAt hs,
    Checked.ok_bind, Escaping.decode_cons]
  cases he : urlEscaping.escape? (a :: s) with
  | none =>
    refine ⟨a, 1, s, ?_, rfl, hs.2.2, rfl, le_refl 1⟩
    rw [Option.isSome_none, if_neg Bool.false_ne_true, store_ok hto, Checked.ok_bind]
  | some b =>
    have hlen := Escaping.length_of_escape? he
    obtain ⟨d, e, hd, he', hbyte, hrest⟩ := strAt_of_escape? hs he
    refine ⟨b, 3, s.drop 2, ?_, rfl, hrest, by omega, by decide⟩
    rw [Option.isSome_some, if_pos rfl, hd, Checked.ok_bind, he', Checked.ok_bind, hbyte,
      store_ok hto, Checked.ok_bind]

/-- **The decoding loop.** Whether the destination is the source, lies below it, or is disjoint
from it, the write cursor never overtakes the read cursor, and what is written is the decoding of
the string at the read cursor. -/
theorem strdecodeLoop_wrote {fuel : ℕ} {m : Bytes} {toPtr fromPtr : ℕ} {s : Bytes}
    (hs : StrAt m fromPtr s) (hfuel : s.length < fuel)
    (hroom : toPtr + (urlEscaping.decode s).length < m.length)
    (hdisj : toPtr ≤ fromPtr ∨ fromPtr + s.length < toPtr) :
    ∃ m', strdecodeLoop fuel m toPtr fromPtr = .ok m' ∧
      Wrote m m' toPtr (urlEscaping.decode s ++ [0]) := by
  induction fuel generalizing m toPtr fromPtr s with
  | zero => exact absurd hfuel (Nat.not_lt_zero _)
  | succ fuel ih =>
    have hto : toPtr < m.length := by omega
    cases s with
    | nil =>
      refine ⟨m.set toPtr 0, ?_, wrote_set hto 0⟩
      rw [strdecodeLoop, load_strAt_nil hs, Checked.ok_bind, if_pos rfl, store_ok hto]
    | cons a s =>
      -- at least as many bytes are read as are written
      obtain ⟨b, k, rest, hturn, hdecode, hrest, hlen, hk⟩ := strdecodeLoop_cons fuel hs hto
      rw [List.length_cons] at hfuel hdisj
      rw [hdecode] at hroom ⊢
      rw [List.length_cons] at hroom
      have hwrote := wrote_set hto b
      have hs' : StrAt (m.set toPtr b) (fromPtr + k) rest :=
        hwrote.strAt_of_disjoint hrest (by rw [List.length_singleton]; omega)
      have hroom' : toPtr + 1 + (urlEscaping.decode rest).length < (m.set toPtr b).length := by
        rw [List.length_set]
        omega
      obtain ⟨m', hm', hwrote'⟩ := ih hs' (by omega) hroom' (by omega)
      exact ⟨m', hturn.trans hm', hwrote.append hwrote'⟩

theorem strdecode_wrote {m : Bytes} {toPtr fromPtr : ℕ} {s : Bytes} (hs : StrAt m fromPtr s)
    (hroom : toPtr + (urlEscaping.decode s).length < m.length)
    (hdisj : toPtr ≤ fromPtr ∨ fromPtr + s.length < toPtr) :
    ∃ m', strdecode m toPtr fromPtr = .ok m' ∧ Wrote m m' toPtr (urlEscaping.decode s ++ [0]) :=
  strdecodeLoop_wrote hs (by have := hs.lt_length; omega) hroom hdisj

/-! ## `strencode` writes the scheme, up to its capacity -/

/-- The part of the string that the guard `tolen + 4 < tosize` lets through. -/
def fitting (tosize : ℕ) : ℕ → Bytes → Bytes
  | _, [] => []
  | tolen, b :: s =>
    if tolen + 4 < tosize then
      b :: fitting tosize (tolen + (urlEscaping.encodeByte b).length) s
    else []

theorem fitting_prefix (tosize tolen : ℕ) (s : Bytes) : fitting tosize tolen s <+: s := by
  induction s generalizing tolen with
  | nil => exact List.prefix_refl _
  | cons b s ih =>
    rw [fitting]
    split
    · exact List.cons_prefix_cons.mpr ⟨rfl, ih _⟩
    · exact List.nil_prefix

/-- The slack of four covers an escape and its NUL, so the terminator always has its place. -/
theorem length_encode_fitting_lt {tosize tolen : ℕ} (h : tolen < tosize) (s : Bytes) :
    tolen + (urlEscaping.encode (fitting tosize tolen s)).length < tosize := by
  induction s generalizing tolen with
  | nil => simpa [fitting] using h
  | cons b s ih =>
    rw [fitting]
    split
    · next hlt =>
      have hb := Escaping.length_encodeByte_le (E := urlEscaping) b
      have := ih (show tolen + (urlEscaping.encodeByte b).length < tosize by omega)
      rw [Escaping.encode_cons, List.length_append]
      omega
    · simpa using h

/-- It stops early only for lack of room. -/
theorem le_length_encode_fitting {tosize tolen : ℕ} {s : Bytes}
    (h : fitting tosize tolen s ≠ s) :
    tosize ≤ tolen + (urlEscaping.encode (fitting tosize tolen s)).length + 4 := by
  induction s generalizing tolen with
  | nil => exact absurd rfl h
  | cons b s ih =>
    rw [fitting] at h ⊢
    split at h
    · next hlt =>
      rw [if_pos hlt, Escaping.encode_cons, List.length_append]
      have := ih fun he ↦ h (by rw [he])
      omega
    · next hlt =>
      rw [if_neg hlt, Escaping.encode_nil, List.length_nil]
      omega

theorem fitting_eq_self {tosize tolen : ℕ} {s : Bytes} (h : tolen + 3 * s.length + 1 < tosize) :
    fitting tosize tolen s = s := by
  induction s generalizing tolen with
  | nil => rfl
  | cons b s ih =>
    rw [List.length_cons] at h
    have hb := Escaping.length_encodeByte_le (E := urlEscaping) b
    rw [fitting, if_pos (by omega), ih (by omega)]

theorem sprintfEscape_eq {b : UInt8} (hb : ¬isUnreserved b = true) :
    sprintfEscape b = urlEscaping.encodeByte b ++ [0] := by
  rw [Escaping.encodeByte_of_not_safe hb]
  rfl

/-- The guard does what it says also where `tolen + 4` leaves the range of `int`: the sum is then
negative, and huge once it is converted. -/
theorem guard_iff {tolen tosize : ℕ} (hlt : tolen < tosize) (hmax : (tosize : ℤ) ≤ intMax) :
    toSizeT (wrapInt (tolen + 4)) < tosize ↔ tolen + 4 < tosize := by
  rw [intMax] at hmax
  rw [toSizeT, wrapInt]
  omega

/-- **One turn** below the guard: the text of one byte is written. `sprintf` puts a NUL behind it,
which whatever comes next overwrites. -/
theorem strencodeLoop_cons {tosize : ℕ} (hmax : (tosize : ℤ) ≤ intMax) (fuel : ℕ) {m : Bytes}
    {toPtr tolen fromPtr : ℕ} {b : UInt8} {s : Bytes} (hs : StrAt m fromPtr (b :: s))
    (hguard : tolen + 4 < tosize) (hroom : toPtr + 4 ≤ m.length) :
    ∃ m₁ tail, strencodeLoop tosize (fuel + 1) m toPtr tolen fromPtr =
        strencodeLoop tosize fuel m₁ (toPtr + (urlEscaping.encodeByte b).length)
          (tolen + (urlEscaping.encodeByte b).length : ℕ) (fromPtr + 1) ∧
      Wrote m m₁ toPtr (urlEscaping.encodeByte b ++ tail) ∧ tail.length ≤ 1 := by
  have hwrap : ∀ k : ℕ, k ≤ 3 → wrapInt (tolen + k) = (tolen + k : ℕ) := fun k hk ↦ by
    rw [wrapInt_of_le (by rw [intMin]; omega) (by omega), Nat.cast_add]
  have hlt : tolen < tosize := by omega
  rw [strencodeLoop, load_strAt_cons hs, Checked.ok_bind, if_neg hs.2.1,
    if_pos ((guard_iff hlt hmax).mpr hguard)]
  by_cases hb : isUnreserved b = true
  · have hto : toPtr < m.length := by omega
    rw [if_pos hb, store_ok hto, Checked.ok_bind, Escaping.encodeByte_of_safe hb,
      List.length_singleton, ← hwrap 1 (by omega)]
    exact ⟨m.set toPtr b, [], rfl, wrote_set hto b, Nat.zero_le 1⟩
  · have hthree : (urlEscaping.encodeByte b).length = 3 := by
      rw [Escaping.encodeByte_of_not_safe hb]
      rfl
    have hfour : (sprintfEscape b).length = 4 := rfl
    obtain ⟨m₁, hm₁, hwrote⟩ := storeAll_wrote (m := m) (p := toPtr) (l := sprintfEscape b)
      (by omega)
    rw [if_neg hb, hm₁, Checked.ok_bind, hthree, ← hwrap 3 (by omega)]
    rw [sprintfEscape_eq hb] at hwrote
    exact ⟨m₁, [0], rfl, hwrote, le_refl 1⟩

/-- **The encoding loop**, at a string that it has reached with `tolen` bytes behind it. -/
theorem strencodeLoop_wrote {tosize : ℕ} (hmax : (tosize : ℤ) ≤ intMax) {fuel : ℕ} {m : Bytes}
    {toPtr tolen fromPtr : ℕ} {s : Bytes} (hs : StrAt m fromPtr s) (hfuel : s.length < fuel)
    (hlt : tolen < tosize) (hroom : toPtr + (tosize - tolen) ≤ m.length)
    (hdisj : toPtr + (tosize - tolen) ≤ fromPtr ∨ fromPtr + s.length < toPtr) :
    ∃ m', strencodeLoop tosize fuel m toPtr tolen fromPtr = .ok m' ∧
      Wrote m m' toPtr (urlEscaping.encode (fitting tosize tolen s) ++ [0]) := by
  have hto : toPtr < m.length := by omega
  induction fuel generalizing m toPtr tolen fromPtr s with
  | zero => exact absurd hfuel (Nat.not_lt_zero _)
  | succ fuel ih =>
    cases s with
    | nil =>
      refine ⟨m.set toPtr 0, ?_, wrote_set hto 0⟩
      rw [strencodeLoop, load_strAt_nil hs, Checked.ok_bind, if_pos rfl, store_ok hto]
    | cons b s =>
      rw [List.length_cons] at hfuel hdisj
      rw [fitting]
      by_cases hguard : tolen + 4 < tosize
      · have hfour : toPtr + 4 ≤ m.length := by omega
        obtain ⟨m₁, tail, hturn, hwrote, htail⟩ := strencodeLoop_cons hmax fuel hs hguard hfour
        have hbyte := Escaping.length_encodeByte_le (E := urlEscaping) b
        have hlen := hwrote.length_eq
        have hs' : StrAt m₁ (fromPtr + 1) s :=
          hwrote.strAt_of_disjoint hs.2.2 (by rw [List.length_append]; omega)
        have hlt' : tolen + (urlEscaping.encodeByte b).length < tosize := by omega
        have hroom' : toPtr + (urlEscaping.encodeByte b).length +
            (tosize - (tolen + (urlEscaping.encodeByte b).length)) ≤ m₁.length := by omega
        obtain ⟨m', hm', hwrote'⟩ := ih hs' (by omega) hlt' hroom' (by omega) (by omega)
        refine ⟨m', hturn.trans hm', ?_⟩
        rw [if_pos hguard, Escaping.encode_cons, List.append_assoc]
        exact hwrote.trans hwrote' (by rw [List.length_append, List.length_singleton]; omega)
      · -- no room for an escape and its NUL: the loop stops, also before a byte that would fit
        refine ⟨m.set toPtr 0, ?_, ?_⟩
        · rw [strencodeLoop, load_strAt_cons hs, Checked.ok_bind, if_neg hs.2.1,
            if_neg fun h ↦ hguard ((guard_iff hlt hmax).mp h), store_ok hto]
        · rw [if_neg hguard]
          exact wrote_set hto 0

theorem strencode_wrote {m : Bytes} {toPtr tosize fromPtr : ℕ} {s : Bytes}
    (hs : StrAt m fromPtr s) (hpos : 1 ≤ tosize) (hmax : (tosize : ℤ) ≤ intMax)
    (hbuf : toPtr + tosize ≤ m.length)
    (hdisj : toPtr + tosize ≤ fromPtr ∨ fromPtr + s.length < toPtr) :
    ∃ m', strencode m toPtr tosize fromPtr = .ok m' ∧
      Wrote m m' toPtr (urlEscaping.encode (fitting tosize 0 s) ++ [0]) := by
  have hlen := hs.lt_length
  have hlt : 0 < tosize := hpos
  exact strencodeLoop_wrote hmax hs (by omega) hlt (by omega) (by omega)

/-- No NUL is ever written as itself, so an encoded string has none. -/
theorem zero_notMem_encode (s : Bytes) : 0 ∉ urlEscaping.encode s := by
  induction s with
  | nil => exact List.not_mem_nil
  | cons b s ih =>
    rw [Escaping.encode_cons, List.mem_append, not_or]
    refine ⟨?_, ih⟩
    by_cases hb : isUnreserved b = true
    · rw [Escaping.encodeByte_of_safe hb, List.mem_singleton]
      rintro rfl
      exact absurd hb (by decide)
    · have hdigit : ∀ n < 16, (0 : UInt8) ≠ hexDigit n := by decide
      have hlt : b.toNat < 256 := b.toNat_lt
      have hhi : (0 : UInt8) ≠ hexDigit (b.toNat / 16) := hdigit _ (by omega)
      have hlo : (0 : UInt8) ≠ hexDigit (b.toNat % 16) := hdigit _ (by omega)
      rw [Escaping.encodeByte_of_not_safe hb]
      simp only [List.mem_cons, List.not_mem_nil, or_false, not_or]
      exact ⟨by decide, hhi, hlo⟩

/-- **Decoding undoes encoding, also under truncation.** `strencode` stays inside its buffer,
terminates what it writes and never cuts an escape; `strdecode` then reads back a prefix of the
string, into the buffer itself or elsewhere: the whole string if the capacity is at least
`3 * |s| + 2`, and a proper prefix only where the next byte might not have fitted. -/
theorem strdecode_strencode {m : Bytes} {toPtr tosize fromPtr : ℕ} {s : Bytes}
    (hs : StrAt m fromPtr s) (hpos : 1 ≤ tosize) (hmax : (tosize : ℤ) ≤ intMax)
    (hbuf : toPtr + tosize ≤ m.length)
    (hdisj : toPtr + tosize ≤ fromPtr ∨ fromPtr + s.length < toPtr) :
    ∃ m' e p, strencode m toPtr tosize fromPtr = .ok m' ∧ m'.length = m.length ∧
      (∀ i, i < toPtr ∨ toPtr + tosize ≤ i → m'[i]? = m[i]?) ∧
      StrAt m' toPtr e ∧ e.length < tosize ∧ Escaping.Whole urlEscaping e ∧
      (∀ dst, dst ≤ toPtr ∨ toPtr + e.length < dst → dst + p.length < m'.length →
        ∃ m'', strdecode m' dst toPtr = .ok m'' ∧ StrAt m'' dst p) ∧
      p <+: s ∧ (3 * s.length + 2 ≤ tosize → p = s) ∧
      (p ≠ s → tosize ≤ (urlEscaping.encode p).length + 4) := by
  obtain ⟨m', hm', hwrote⟩ := strencode_wrote hs hpos hmax hbuf hdisj
  have hpre := fitting_prefix tosize 0 s
  have hlen : (urlEscaping.encode (fitting tosize 0 s)).length < tosize := by
    simpa using length_encode_fitting_lt hpos s
  have hat : StrAt m' toPtr (urlEscaping.encode (fitting tosize 0 s)) :=
    hwrote.strAt (zero_notMem_encode _)
  refine ⟨m', _, fitting tosize 0 s, hm', hwrote.length_eq, fun i hi ↦ hwrote.outside i ?_, hat,
    hlen, Escaping.whole_encode _, fun dst hdst hroom ↦ ?_, hpre, fun hcap ↦ ?_, fun hne ↦ ?_⟩
  · rw [List.length_append, List.length_singleton]
    omega
  · have hdecode := Escaping.decode_encode (E := urlEscaping) (fitting tosize 0 s)
    obtain ⟨m'', hm'', hwrote'⟩ := strdecode_wrote hat (by rwa [hdecode]) hdst
    rw [hdecode] at hwrote'
    exact ⟨m'', hm'', hwrote'.strAt fun h ↦ hs.zero_notMem (hpre.subset h)⟩
  · exact fitting_eq_self (by omega)
  · simpa using le_length_encode_fitting hne

/-- The string `a b%`, encoded into the 14 bytes behind it. -/
theorem strdecode_strencode_space :
    ∃ m' m'', strencode (ascii "a b%" ++ 0 :: List.replicate 14 255) 5 14 0 = .ok m' ∧
      strdecode m' 5 5 = .ok m'' ∧ StrAt m'' 5 (ascii "a b%") := by
  have hs : StrAt (ascii "a b%" ++ 0 :: List.replicate 14 255) 0 (ascii "a b%") := by
    simp [StrAt, ascii, byte]
  obtain ⟨m', e, p, hm', hlen, -, hat, -, -, hdecode, -, hp, -⟩ :=
    strdecode_strencode hs (show 1 ≤ 14 by decide) (show ((14 : ℕ) : ℤ) ≤ intMax by decide)
      (show 5 + 14 ≤ _ by decide) (Or.inr (by decide))
  obtain rfl : p = ascii "a b%" := hp (by decide)
  have hroom : 5 + (ascii "a b%").length < m'.length := by rw [hlen]; decide
  obtain ⟨m'', hm'', hat'⟩ := hdecode 5 (Or.inl (le_refl 5)) hroom
  exact ⟨m', m'', hm', hm'', hat'⟩

end Pub

end CodeOnLinux
