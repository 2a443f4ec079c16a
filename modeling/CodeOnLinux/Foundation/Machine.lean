import Mathlib.Data.List.TakeWhile
import Mathlib.Tactic

/-!
# A checked abstract machine for C functions

C code that follows a null pointer, leaves an object or overflows a signed integer has no defined
behaviour. Functions are therefore embedded in the exception monad `Checked`, where these are
faults; a theorem that a function returns `.ok` says in particular that none of them happens.

Byte memory is a list of cells, an address is an index into it, and an access past its end is a
fault. `StrAt m p s` says that at `p` the memory holds the C string `s`, and `Wrote m m' p l` that
`m'` is `m` with the bytes `l` stored from `p` on and nothing else changed; the loops that fill a
buffer are proved by composing such writes.
-/

namespace CodeOnLinux

/-- The ways in which an embedded function can leave the defined behaviour of C. -/
inductive Fault
  | nullPointer
  | outOfBounds
  | intOverflow
  /-- Not C's: the bound given to a loop that need not end was used up. -/
  | outOfFuel
  deriving DecidableEq, Repr

abbrev Checked := Except Fault

namespace Checked

variable {α β : Type}

@[simp] theorem pure_eq_ok (a : α) : (pure a : Checked α) = .ok a := rfl

@[simp] theorem ok_bind (a : α) (f : α → Checked β) : (Except.ok a : Checked α) >>= f = f a := rfl

@[simp] theorem error_bind (e : Fault) (f : α → Checked β) :
    (Except.error e : Checked α) >>= f = .error e := rfl

theorem bind_eq_ok {x : Checked α} {f : α → Checked β} {b : β} :
    x >>= f = .ok b ↔ ∃ a, x = .ok a ∧ f a = .ok b := by
  cases x with
  | error e => exact ⟨nofun, fun ⟨_, he, _⟩ ↦ nomatch he⟩
  | ok a =>
    constructor
    · intro h
      exact ⟨a, rfl, h⟩
    · rintro ⟨a', ha, h⟩
      obtain rfl := Except.ok.inj ha
      exact h

end Checked

/-! ## `int` -/

/-- `INT_MAX` -/
def intMax : ℤ := 2147483647

/-- `INT_MIN` -/
def intMin : ℤ := -2147483648

/-- The result of an `int` operation, where it is representable. -/
def checkInt (n : ℤ) : Checked ℤ :=
  if intMin ≤ n ∧ n ≤ intMax then .ok n else .error .intOverflow

theorem checkInt_ok {n : ℤ} (hmin : intMin ≤ n) (hmax : n ≤ intMax) : checkInt n = .ok n :=
  if_pos ⟨hmin, hmax⟩

theorem toOption_checkInt {n m : ℤ} :
    (checkInt n).toOption = some m ↔ (intMin ≤ n ∧ n ≤ intMax) ∧ n = m := by
  rw [checkInt]
  split
  · next hrange => exact (Option.some_inj).trans (and_iff_right hrange).symm
  · next hrange => exact iff_of_false (fun h ↦ by cases h) fun h ↦ hrange h.1

/-- An `int` sum as two's complement hardware leaves it. -/
def wrapInt (n : ℤ) : ℤ := (n + 2147483648) % 4294967296 - 2147483648

theorem wrapInt_of_le {n : ℤ} (hmin : intMin ≤ n) (hmax : n ≤ intMax) : wrapInt n = n := by
  rw [intMin] at hmin
  rw [intMax] at hmax
  rw [wrapInt]
  omega

/-- The conversion of a signed integer to the 64-bit `size_t`. -/
def toSizeT (n : ℤ) : ℕ := (n % 18446744073709551616).toNat

/-- A `size_t` that is taken for a 64-bit `long`. -/
def longOfSizeT (n : ℕ) : ℤ :=
  if n < 9223372036854775808 then n else n - 18446744073709551616

theorem longOfSizeT_toSizeT {n : ℤ} (hmin : -9223372036854775808 ≤ n)
    (hmax : n < 9223372036854775808) : longOfSizeT (toSizeT n) = n := by
  rw [longOfSizeT, toSizeT]
  split <;> omega

/-! ## Byte memory -/

abbrev Bytes := List UInt8

/-- The code of an ASCII character. -/
def byte (c : Char) : UInt8 := UInt8.ofNat c.toNat

/-- The bytes of an ASCII text. -/
def ascii (s : String) : Bytes := s.toList.map byte

/-- The C string at the front of a block: the bytes up to the first NUL. -/
def cString (s : Bytes) : Bytes := s.takeWhile (· ≠ 0)

theorem cString_eq_self {s : Bytes} (h : 0 ∉ s) : cString s = s :=
  List.takeWhile_eq_self_iff.mpr fun _ hb ↦ decide_eq_true fun he ↦ h (he ▸ hb)

theorem length_cString_le (s : Bytes) : (cString s).length ≤ s.length :=
  (List.takeWhile_prefix _).length_le

theorem take_length_cString (s : Bytes) : s.take (cString s).length = cString s :=
  (List.prefix_iff_eq_take.mp (List.takeWhile_prefix _)).symm

/-- What stands behind a NUL does not matter. -/
theorem cString_append_zero (s tail : Bytes) : cString (s ++ 0 :: tail) = cString s := by
  induction s with
  | nil => rfl
  | cons b s ih =>
    rw [List.cons_append, cString, List.takeWhile_cons, cString, List.takeWhile_cons]
    split
    · exact congrArg (b :: ·) ih
    · rfl

theorem exists_append_zero_eq (s : Bytes) : ∃ tail, s ++ [0] = cString s ++ 0 :: tail := by
  induction s with
  | nil => exact ⟨[], rfl⟩
  | cons b s ih =>
    rw [cString, List.takeWhile_cons]
    split
    · obtain ⟨tail, htail⟩ := ih
      exact ⟨tail, congrArg (b :: ·) htail⟩
    · next hb =>
      obtain rfl : b = 0 := by simpa using hb
      exact ⟨s ++ [0], rfl⟩

/-- A block with a NUL in it holds a string. -/
theorem exists_eq_cString_append {s : Bytes} (h : 0 ∈ s) : ∃ tail, s = cString s ++ 0 :: tail := by
  induction s with
  | nil => exact absurd h List.not_mem_nil
  | cons b s ih =>
    rw [cString, List.takeWhile_cons]
    split
    · next hb =>
      have hne : (0 : UInt8) ≠ b := Ne.symm (of_decide_eq_true hb)
      obtain ⟨tail, htail⟩ := ih (List.mem_of_ne_of_mem hne h)
      exact ⟨tail, congrArg (b :: ·) htail⟩
    · next hb =>
      obtain rfl : b = 0 := by simpa using hb
      exact ⟨s, rfl⟩

theorem cString_eq_nil_iff (s : Bytes) : cString s = [] ↔ s = [] ∨ s.head? = some 0 := by
  cases s with
  | nil => exact iff_of_true rfl (Or.inl rfl)
  | cons b s =>
    rw [cString, List.takeWhile_cons]
    split
    · next hb => simpa using hb
    · next hb => simpa using hb

theorem zero_notMem_cString (s : Bytes) : 0 ∉ cString s := fun h ↦
  absurd (List.mem_takeWhile_imp h) (by decide)

/-- A comparison with a text without NUL does not look behind the end of a string. -/
theorem prefix_append_zero_iff {text s : Bytes} (h : 0 ∉ text) (tail : Bytes) :
    text <+: s ++ 0 :: tail ↔ text <+: s := by
  induction text generalizing s with
  | nil => exact iff_of_true List.nil_prefix List.nil_prefix
  | cons b text ih =>
    rw [List.mem_cons, not_or] at h
    cases s with
    | nil =>
      refine iff_of_false (fun hpre ↦ ?_) (fun hpre ↦ ?_)
      · exact h.1 (List.cons_prefix_cons.mp hpre).1.symm
      · exact absurd (List.prefix_nil.mp hpre) (List.cons_ne_nil b text)
    | cons c s => rw [List.cons_append, List.cons_prefix_cons, List.cons_prefix_cons, ih h.2]

theorem take_append_zero_eq_iff {text s : Bytes} (h : 0 ∉ text) (tail : Bytes) :
    (s ++ 0 :: tail).take text.length = text ↔ s.take text.length = text := by
  rw [eq_comm, ← List.prefix_iff_eq_take, prefix_append_zero_iff h, List.prefix_iff_eq_take,
    eq_comm]

/-! ## Zeroed buffers -/

/-- A zeroed buffer of `n` bytes after `text` has been stored at its front. -/
def padded (n : ℕ) (text : Bytes) : Bytes := text ++ List.replicate (n - text.length) 0

theorem length_padded {n : ℕ} {text : Bytes} (h : text.length ≤ n) :
    (padded n text).length = n := by
  rw [padded, List.length_append, List.length_replicate, Nat.add_sub_cancel' h]

/-- Behind the text there is a NUL, or the end of the buffer. -/
theorem padded_cases (n : ℕ) (text : Bytes) :
    padded n text = text ∨ ∃ tail, padded n text = text ++ 0 :: tail := by
  rw [padded]
  cases n - text.length with
  | zero => exact Or.inl (List.append_nil text)
  | succ k => exact Or.inr ⟨List.replicate k 0, rfl⟩

theorem cString_padded (n : ℕ) (text : Bytes) : cString (padded n text) = cString text := by
  rcases padded_cases n text with heq | ⟨tail, heq⟩
  · rw [heq]
  · rw [heq, cString_append_zero]

theorem zero_mem_padded_iff {n : ℕ} {text : Bytes} :
    0 ∈ padded n text ↔ text.length < n ∨ 0 ∈ text := by
  rw [padded, List.mem_append, List.mem_replicate, ne_eq, Nat.sub_eq_zero_iff_le, Nat.not_le,
    and_iff_left rfl, or_comm]

namespace Memory

def load (m : Bytes) (p : ℕ) : Checked UInt8 :=
  match m[p]? with
  | some b => .ok b
  | none => .error .outOfBounds

def store (m : Bytes) (p : ℕ) (b : UInt8) : Checked Bytes :=
  if p < m.length then .ok (m.set p b) else .error .outOfBounds

/-- Store the bytes one after the other. -/
def storeAll (m : Bytes) (p : ℕ) : Bytes → Checked Bytes
  | [] => .ok m
  | b :: l => do
    let m ← store m p b
    storeAll m (p + 1) l

theorem load_ok {m : Bytes} {p : ℕ} {b : UInt8} (h : m[p]? = some b) : load m p = .ok b := by
  rw [load, h]

theorem store_ok {m : Bytes} {p : ℕ} (h : p < m.length) (b : UInt8) :
    store m p b = .ok (m.set p b) := if_pos h

/-- The C string at `p`; without a NUL the read runs past the end of the block. -/
def readStr (m : Bytes) (p : ℕ) : Checked Bytes :=
  if 0 ∈ m.drop p then .ok (cString (m.drop p)) else .error .outOfBounds

/-- The memory holds the C string `s` at `p`: its bytes, none of them NUL, and then a NUL. -/
def StrAt (m : Bytes) : ℕ → Bytes → Prop
  | p, [] => m[p]? = some 0
  | p, b :: s => m[p]? = some b ∧ b ≠ 0 ∧ StrAt m (p + 1) s

/-- `m'` is `m` with the bytes `l` stored from `p` on. -/
structure Wrote (m m' : Bytes) (p : ℕ) (l : Bytes) : Prop where
  /-- The memory keeps its bounds. -/
  length_eq : m'.length = m.length
  /-- The bytes are there. -/
  inside : ∀ i, i < l.length → m'[p + i]? = l[i]?
  /-- The others are what they were. -/
  outside : ∀ i, i < p ∨ p + l.length ≤ i → m'[i]? = m[i]?

theorem StrAt.congr {m m' : Bytes} {p : ℕ} {s : Bytes} (h : StrAt m p s)
    (hcells : ∀ i, p ≤ i → i ≤ p + s.length → m'[i]? = m[i]?) : StrAt m' p s := by
  induction s generalizing p with
  | nil => exact (hcells p (le_refl p) (by simp)).trans h
  | cons b s ih =>
    obtain ⟨hb, hne, h⟩ := h
    refine ⟨(hcells p (le_refl p) (by omega)).trans hb, hne, ih h fun i hi hi' ↦ ?_⟩
    exact hcells i (by omega) (by rw [List.length_cons]; omega)

theorem StrAt.lt_length {m : Bytes} {p : ℕ} {s : Bytes} (h : StrAt m p s) :
    p + s.length < m.length := by
  induction s generalizing p with
  | nil => exact (List.getElem?_eq_some_iff.mp h).1
  | cons b s ih =>
    have := ih h.2.2
    rw [List.length_cons]
    omega

theorem StrAt.zero_notMem {m : Bytes} {p : ℕ} {s : Bytes} (h : StrAt m p s) : 0 ∉ s := by
  induction s generalizing p with
  | nil => exact List.not_mem_nil
  | cons b s ih =>
    rw [List.mem_cons, not_or]
    exact ⟨h.2.1.symm, ih h.2.2⟩

theorem StrAt.unique {m : Bytes} {p : ℕ} {s t : Bytes} (hs : StrAt m p s) (ht : StrAt m p t) :
    s = t := by
  induction s generalizing p t with
  | nil =>
    cases t with
    | nil => rfl
    | cons c t =>
      have hc : some c = some 0 := ht.1.symm.trans hs
      exact absurd (Option.some_inj.mp hc) ht.2.1
  | cons b s ih =>
    cases t with
    | nil =>
      have hb : some b = some 0 := hs.1.symm.trans ht
      exact absurd (Option.some_inj.mp hb) hs.2.1
    | cons c t =>
      have hbc : some b = some c := hs.1.symm.trans ht.1
      rw [Option.some_inj.mp hbc, ih hs.2.2 ht.2.2]

/-! ### Composing writes -/

theorem Wrote.refl (m : Bytes) (p : ℕ) : Wrote m m p [] :=
  ⟨rfl, fun i hi ↦ absurd hi (by simp), fun _ _ ↦ rfl⟩

theorem wrote_set {m : Bytes} {p : ℕ} (h : p < m.length) (b : UInt8) :
    Wrote m (m.set p b) p [b] := by
  refine ⟨List.length_set, fun i hi ↦ ?_, fun i hi ↦ ?_⟩
  · obtain rfl : i = 0 := by simpa using hi
    simp [h]
  · rw [List.getElem?_set_ne]
    simp only [List.length_singleton] at hi
    omega

/-- A later write that starts inside an earlier one replaces its end. -/
theorem Wrote.trans {m m₁ m₂ : Bytes} {p : ℕ} {l l' tail : Bytes} (h₁ : Wrote m m₁ p (l ++ tail))
    (h₂ : Wrote m₁ m₂ (p + l.length) l') (hle : tail.length ≤ l'.length) :
    Wrote m m₂ p (l ++ l') := by
  refine ⟨h₂.length_eq.trans h₁.length_eq, fun i hi ↦ ?_, fun i hi ↦ ?_⟩
  · rw [List.length_append] at hi
    by_cases hil : i < l.length
    · rw [h₂.outside _ (by omega), h₁.inside i (by rw [List.length_append]; omega),
        List.getElem?_append_left hil, List.getElem?_append_left hil]
    · have hsplit : p + i = p + l.length + (i - l.length) := by omega
      rw [hsplit, h₂.inside _ (by omega), List.getElem?_append_right (by omega)]
  · rw [List.length_append] at hi
    rw [h₂.outside i (by omega), h₁.outside i (by rw [List.length_append]; omega)]

theorem Wrote.append {m m₁ m₂ : Bytes} {p : ℕ} {l l' : Bytes} (h₁ : Wrote m m₁ p l)
    (h₂ : Wrote m₁ m₂ (p + l.length) l') : Wrote m m₂ p (l ++ l') :=
  Wrote.trans (by rwa [List.append_nil]) h₂ (Nat.zero_le _)

theorem storeAll_wrote {m : Bytes} {p : ℕ} {l : Bytes} (h : p + l.length ≤ m.length) :
    ∃ m', storeAll m p l = .ok m' ∧ Wrote m m' p l := by
  induction l generalizing m p with
  | nil => exact ⟨m, rfl, Wrote.refl m p⟩
  | cons b l ih =>
    rw [List.length_cons] at h
    have hp : p < m.length := by omega
    obtain ⟨m', hm', hwrote⟩ := ih (m := m.set p b) (p := p + 1) (by rw [List.length_set]; omega)
    refine ⟨m', ?_, (wrote_set hp b).append hwrote⟩
    rw [storeAll, store_ok hp, Checked.ok_bind, hm']

/-- A C string that lies outside the cells written is not affected. -/
theorem Wrote.strAt_of_disjoint {m m' : Bytes} {p q : ℕ} {l s : Bytes} (h : Wrote m m' p l)
    (hs : StrAt m q s) (hdisj : p + l.length ≤ q ∨ q + s.length < p) : StrAt m' q s :=
  hs.congr fun i _ _ ↦ h.outside i (by omega)

theorem Wrote.strAt {m m' : Bytes} {p : ℕ} {s tail : Bytes} (h : Wrote m m' p (s ++ 0 :: tail))
    (hs : 0 ∉ s) : StrAt m' p s := by
  induction s generalizing p m with
  | nil =>
    have := h.inside 0 (by simp)
    rwa [Nat.add_zero] at this
  | cons b s ih =>
    rw [List.mem_cons, not_or] at hs
    have hb : m'[p]? = some b := by simpa using h.inside 0 (by simp)
    refine ⟨hb, Ne.symm hs.1, ih (m := m') ?_ hs.2⟩
    refine ⟨rfl, fun i hi ↦ ?_, fun _ _ ↦ rfl⟩
    have := h.inside (i + 1) (by simpa using hi)
    rwa [show p + (i + 1) = p + 1 + i by omega, List.cons_append, List.getElem?_cons_succ] at this

/-- Bytes written with a NUL behind them make a string, up to their first NUL. -/
theorem Wrote.strAt_cString {m m' : Bytes} {p : ℕ} {s : Bytes} (h : Wrote m m' p (s ++ [0])) :
    StrAt m' p (cString s) := by
  obtain ⟨tail, htail⟩ := exists_append_zero_eq s
  rw [htail] at h
  exact h.strAt (zero_notMem_cString s)

theorem strAt_append_zero {s : Bytes} (hs : 0 ∉ s) (tail : Bytes) :
    StrAt (s ++ 0 :: tail) 0 s :=
  Wrote.strAt (m := s ++ 0 :: tail) ⟨rfl, fun i _ ↦ by rw [Nat.zero_add], fun _ _ ↦ rfl⟩ hs

/-- A block with the bytes `l` stored at its front. -/
theorem Wrote.eq_append {m m' l : Bytes} (h : Wrote m m' 0 l) :
    ∃ tail, m' = l ++ tail := by
  refine ⟨m'.drop l.length, ?_⟩
  have htake : m'.take l.length = l := by
    refine List.ext_getElem? fun i ↦ ?_
    rw [List.getElem?_take]
    split
    · next hi => rw [← h.inside i hi, Nat.zero_add]
    · next hi => rw [List.getElem?_eq_none (Nat.le_of_not_lt hi)]
  conv_lhs => rw [← List.take_append_drop l.length m', htake]

/-- The write determines the block that it leaves. -/
theorem Wrote.unique {m m₁ m₂ : Bytes} {p : ℕ} {l : Bytes} (h₁ : Wrote m m₁ p l)
    (h₂ : Wrote m m₂ p l) : m₁ = m₂ := by
  refine List.ext_getElem? fun i ↦ ?_
  by_cases hi : i < p ∨ p + l.length ≤ i
  · rw [h₁.outside i hi, h₂.outside i hi]
  · obtain ⟨k, rfl⟩ : ∃ k, i = p + k := ⟨i - p, by omega⟩
    rw [h₁.inside k (by omega), h₂.inside k (by omega)]

/-- What is written is determined by its length. -/
theorem Wrote.eq_of_length_eq {m m' : Bytes} {p : ℕ} {l l' : Bytes} (h : Wrote m m' p l)
    (h' : Wrote m m' p l') (hlen : l.length = l'.length) : l = l' := by
  refine List.ext_getElem? fun i ↦ ?_
  by_cases hi : i < l.length
  · rw [← h.inside i hi, h'.inside i (hlen ▸ hi)]
  · rw [List.getElem?_eq_none (by omega), List.getElem?_eq_none (by omega)]

/-- The last byte written, where it changes its cell, belongs to every account of the write. -/
theorem Wrote.length_lt {m m' : Bytes} {p : ℕ} {l l' : Bytes} {b : UInt8}
    (h : Wrote m m' p (l ++ [b])) (h' : Wrote m m' p l') (hnew : m[p + l.length]? ≠ some b) :
    l.length < l'.length := by
  by_contra hle
  have hin : m'[p + l.length]? = some b := by
    rw [h.inside l.length (by rw [List.length_append, List.length_singleton]; omega),
      List.getElem?_append_right (le_refl _), Nat.sub_self]
    rfl
  rw [h'.outside _ (by omega)] at hin
  exact hnew hin

/-- A write inside the front of a block leaves what follows as it is. -/
theorem Wrote.frame {m m' : Bytes} {p : ℕ} {l : Bytes} (h : Wrote m m' p l)
    (hle : p + l.length ≤ m.length) (tail : Bytes) : Wrote (m ++ tail) (m' ++ tail) p l := by
  have hlen := h.length_eq
  refine ⟨by rw [List.length_append, List.length_append, hlen], fun i hi ↦ ?_, fun i hi ↦ ?_⟩
  · rw [List.getElem?_append_left (by omega)]
    exact h.inside i hi
  · by_cases hin : i < m.length
    · rw [List.getElem?_append_left (by omega), List.getElem?_append_left hin, h.outside i hi]
    · rw [List.getElem?_append_right (by omega), List.getElem?_append_right (by omega), hlen]

theorem readStr_ok {buffer : Bytes} (h : 0 ∈ buffer) :
    readStr buffer 0 = .ok (cString buffer) := if_pos h

theorem readStr_append {s : Bytes} (tail : Bytes) :
    readStr (s ++ 0 :: tail) 0 = .ok (cString s) := by
  rw [readStr, List.drop_zero, if_pos (by simp), cString_append_zero]

theorem storeAll_error {m : Bytes} {p : ℕ} {l : Bytes} (h : m.length < p + l.length)
    (hp : p ≤ m.length) : ∃ e, storeAll m p l = .error e := by
  induction l generalizing m p with
  | nil => exact absurd h (by simpa using hp)
  | cons b l ih =>
    rw [List.length_cons] at h
    rw [storeAll, store]
    split
    · exact ih (by rw [List.length_set]; omega) (by rw [List.length_set]; omega)
    · exact ⟨_, rfl⟩

end Memory

end CodeOnLinux
