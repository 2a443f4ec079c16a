import CodeOnLinux.Foundation.Machine

/-!
# Conversions of `printf` and `scanf`

`formatInt` is `%d`, `scanWord` is `%s` of `scanf` on a string: it skips white space and takes the
bytes up to the next white space. `sprintf` into a buffer of a given size is a fault where the text
and its NUL do not fit. What `formatInt` prints is read again by `readInt`.
-/

namespace CodeOnLinux

namespace Stdio

open Memory

/-- `%d` -/
def formatInt (n : ℤ) : Bytes :=
  if n < 0 then byte '-' :: (Nat.toDigits 10 n.natAbs).map byte
  else (Nat.toDigits 10 n.natAbs).map byte

theorem length_formatInt_le {n : ℤ} (hmin : intMin ≤ n) (hmax : n ≤ intMax) :
    (formatInt n).length ≤ 11 := by
  rw [intMin] at hmin
  rw [intMax] at hmax
  have hdigits : (Nat.toDigits 10 n.natAbs).length ≤ 10 :=
    (Nat.length_toDigits_le_iff (by decide) (by decide)).mpr (by omega)
  rw [formatInt]
  split
  · rw [List.length_cons, List.length_map]
    exact Nat.succ_le_succ hdigits
  · rw [List.length_map]
    exact hdigits.trans (Nat.le_succ _)

theorem wrapInt_mem (n : ℤ) : intMin ≤ wrapInt n ∧ wrapInt n ≤ intMax := by
  rw [wrapInt, intMin, intMax]
  omega

/-- The text that `strlen` finds after `sprintf(buffer, ..)`. -/
def sprintf (size : ℕ) (text : Bytes) : Checked Bytes :=
  if text.length < size then .ok (cString text) else .error .outOfBounds

theorem sprintf_ok {size : ℕ} {text : Bytes} (h : text.length < size) :
    sprintf size text = .ok (cString text) := if_pos h

theorem sprintf_eq_ok {size : ℕ} {text t : Bytes} (h : sprintf size text = .ok t) :
    text.length < size ∧ cString text = t := by
  rw [sprintf] at h
  split_ifs at h with hlt
  exact ⟨hlt, Except.ok.inj h⟩

/-! ## Words -/

/-- `isspace` in the C locale -/
def isspace (c : UInt8) : Bool := c = byte ' ' || (9 ≤ c && c ≤ 13)

/-- The first word of the string and what follows it. -/
def scanWord (s : Bytes) : Option (Bytes × Bytes) :=
  match s.dropWhile isspace with
  | [] => none
  | b :: t => some ((b :: t).takeWhile (!isspace ·), (b :: t).dropWhile (!isspace ·))

/-- A word is not empty, and together with the rest it comes from the string. -/
theorem scanWord_eq_some {s w rest : Bytes} (h : scanWord s = some (w, rest)) :
    w ≠ [] ∧ w ⊆ s ∧ rest ⊆ s := by
  rw [scanWord] at h
  split at h
  · cases h
  · next b t hst =>
    obtain ⟨rfl, rfl⟩ := Prod.mk.inj (Option.some_inj.mp h)
    have hsub : b :: t ⊆ s := hst ▸ (List.dropWhile_suffix isspace).subset
    have hb : isspace b = false := by
      have hne : s.dropWhile isspace ≠ [] := by rw [hst]; exact List.cons_ne_nil b t
      simpa [hst] using List.head_dropWhile_not isspace hne
    refine ⟨?_, fun x hx ↦ hsub ((List.takeWhile_prefix _).subset hx),
      fun x hx ↦ hsub ((List.dropWhile_suffix _).subset hx)⟩
    rw [List.takeWhile_cons, hb]
    exact List.cons_ne_nil _ _

/-- The words of the string: its runs of bytes that are not white space. -/
def words (s : Bytes) : List Bytes := (s.splitOnP isspace).filter fun w ↦ w ≠ []

theorem words_cons_of_isspace {c : UInt8} (hc : isspace c = true) (s : Bytes) :
    words (c :: s) = words s := by
  have hsplit := List.splitOnP_append_cons (p := isspace) [] s hc
  rw [List.nil_append, List.splitOnP_nil] at hsplit
  rw [words, hsplit]
  rfl

theorem words_dropWhile (s : Bytes) : words (s.dropWhile isspace) = words s := by
  induction s with
  | nil => rfl
  | cons c s ih =>
    rw [List.dropWhile_cons]
    split
    · next hc => rw [ih, words_cons_of_isspace hc]
    · rfl

/-- A word, up to the end of the string or the white space behind it. -/
theorem words_append {w rest : Bytes} (hne : w ≠ []) (hw : ∀ c ∈ w, isspace c = false)
    (hrest : ∀ c ∈ rest.head?, isspace c = true) : words (w ++ rest) = w :: words rest := by
  have hsingle : w.splitOnP isspace = [w] := List.splitOnP_eq_singleton hw
  cases rest with
  | nil =>
    rw [List.append_nil, words, hsingle]
    exact List.filter_cons_of_pos (decide_eq_true hne)
  | cons c rest =>
    have hc : isspace c = true := hrest c rfl
    rw [words_cons_of_isspace hc, words, List.splitOnP_append_cons w rest hc, hsingle]
    exact List.filter_cons_of_pos (decide_eq_true hne)

/-- `%s` finds the first word. -/
theorem words_of_scanWord (s : Bytes) : words s =
    match scanWord s with
    | none => []
    | some (w, rest) => w :: words rest := by
  rw [← words_dropWhile s, scanWord]
  cases hs : s.dropWhile isspace with
  | nil => rfl
  | cons b t =>
    have hscan : scanWord s = some ((b :: t).takeWhile (!isspace ·),
        (b :: t).dropWhile (!isspace ·)) := by rw [scanWord, hs]
    obtain ⟨hne, -, -⟩ := scanWord_eq_some hscan
    have hw : ∀ c ∈ (b :: t).takeWhile (!isspace ·), isspace c = false := fun c hc ↦ by
      simpa using List.mem_takeWhile_imp hc
    have hrest : ∀ c ∈ ((b :: t).dropWhile (!isspace ·)).head?, isspace c = true := fun c hc ↦ by
      have hhead := List.head?_dropWhile_not (!isspace ·) (b :: t)
      rw [hc] at hhead
      simpa using hhead
    conv_lhs => rw [← List.takeWhile_append_dropWhile (p := (!isspace ·)) (l := b :: t)]
    exact words_append hne hw hrest

/-! ## Numbers -/

def isdigit (c : UInt8) : Bool := byte '0' ≤ c && c ≤ byte '9'

/-- The number that a text of digits stands for. -/
def decimal (s : Bytes) : ℕ := s.foldl (fun n c ↦ 10 * n + (c.toNat - 48)) 0

def readNat (s : Bytes) : Option ℕ := if s ≠ [] ∧ s.all isdigit then some (decimal s) else none

/-- The number in a text that has nothing else, white space in front of it apart. -/
def readInt (s : Bytes) : Option ℤ :=
  match s.dropWhile isspace with
  | [] => none
  | b :: t =>
    if b = byte '-' then (readNat t).map fun n : ℕ ↦ -(n : ℤ)
    else (readNat (b :: t)).map fun n : ℕ ↦ (n : ℤ)

/-- The digits of a number, as `%d` prints them. -/
def digits (n : ℕ) : Bytes := (Nat.toDigits 10 n).map byte

theorem digits_ne_nil (n : ℕ) : digits n ≠ [] := by
  rw [digits, ne_eq, List.map_eq_nil_iff]
  exact Nat.toDigits_ne_nil

theorem toNat_byte_of_isDigit {c : Char} (hc : c.isDigit) :
    (byte c).toNat = c.toNat ∧ 48 ≤ c.toNat ∧ c.toNat ≤ 57 := by
  have hbounds : 48 ≤ c.toNat ∧ c.toNat ≤ 57 := by
    simpa [Char.isDigit, UInt32.le_iff_toNat_le] using hc
  refine ⟨?_, hbounds⟩
  rw [byte, UInt8.toNat_ofNat']
  omega

theorem isdigit_of_mem_digits {n : ℕ} {b : UInt8} (hb : b ∈ digits n) : isdigit b := by
  obtain ⟨c, hc, rfl⟩ := List.mem_map.mp hb
  obtain ⟨heq, hmin, hmax⟩ := toNat_byte_of_isDigit
    (Nat.isDigit_of_mem_toDigits (by decide) (by decide) hc)
  have hzero : (byte '0').toNat = 48 := rfl
  have hnine : (byte '9').toNat = 57 := rfl
  rw [isdigit, Bool.and_eq_true, decide_eq_true_iff, decide_eq_true_iff, UInt8.le_iff_toNat_le,
    UInt8.le_iff_toNat_le, heq, hzero, hnine]
  exact ⟨hmin, hmax⟩

theorem decimal_digits (n : ℕ) : decimal (digits n) = n := by
  have hfold : ∀ (l : List Char) (m : ℕ), (∀ c ∈ l, c.isDigit) →
      (l.map byte).foldl (fun n c ↦ 10 * n + (c.toNat - 48)) m = Nat.ofDigitChars 10 l m := by
    intro l
    induction l with
    | nil => exact fun m _ ↦ Nat.ofDigitChars_nil.symm
    | cons c l ih =>
      intro m hl
      obtain ⟨hc, hl⟩ := List.forall_mem_cons.mp hl
      rw [List.map_cons, List.foldl_cons, ih _ hl, Nat.ofDigitChars_cons,
        (toNat_byte_of_isDigit hc).1]
      rfl
  rw [decimal, digits, hfold _ 0 fun c hc ↦ Nat.isDigit_of_mem_toDigits (by decide) (by decide) hc]
  exact Nat.ofDigitChars_ten_toDigits

theorem readNat_digits (n : ℕ) : readNat (digits n) = some n := by
  have hall : (digits n).all isdigit := List.all_eq_true.mpr fun b hb ↦ isdigit_of_mem_digits hb
  rw [readNat, if_pos ⟨digits_ne_nil n, hall⟩, decimal_digits]

theorem formatInt_eq (n : ℤ) :
    formatInt n = if n < 0 then byte '-' :: digits n.natAbs else digits n.natAbs := rfl

theorem readInt_of_not_space {b : UInt8} {s : Bytes} (hb : isspace b = false) :
    readInt (b :: s) = if b = byte '-' then (readNat s).map fun n : ℕ ↦ -(n : ℤ)
      else (readNat (b :: s)).map fun n : ℕ ↦ (n : ℤ) := by
  rw [readInt, List.dropWhile_cons_of_neg (by rw [hb]; exact Bool.false_ne_true)]

theorem isspace_of_isdigit {b : UInt8} (hb : isdigit b) : isspace b = false ∧ b ≠ byte '-' := by
  rw [isdigit, Bool.and_eq_true, decide_eq_true_iff, decide_eq_true_iff] at hb
  have hzero : byte '0' = 48 := rfl
  have hspace : byte ' ' = 32 := rfl
  have hminus : byte '-' = 45 := rfl
  rw [isspace, hspace, hminus]
  rw [hzero] at hb
  grind

/-- **What `%d` prints** is read again. -/
theorem readInt_formatInt (n : ℤ) : readInt (formatInt n) = some n := by
  rw [formatInt_eq]
  split
  · next hneg =>
    have hspace : isspace (byte '-') = false := by decide
    rw [readInt_of_not_space hspace, if_pos rfl, readNat_digits, Option.map_some, Option.some_inj]
    omega
  · next hpos =>
    obtain ⟨b, s, hs⟩ := List.exists_cons_of_ne_nil (digits_ne_nil n.natAbs)
    have hb : isdigit b :=
      isdigit_of_mem_digits (n := n.natAbs) (by rw [hs]; exact List.mem_cons_self)
    obtain ⟨hspace, hminus⟩ := isspace_of_isdigit hb
    rw [hs, readInt_of_not_space hspace, if_neg hminus, ← hs, readNat_digits, Option.map_some,
      Option.some_inj]
    omega

/-! ## Texts without control characters -/

def Printable (s : Bytes) : Prop := ∀ b ∈ s, 32 ≤ b

instance decidablePrintable (s : Bytes) : Decidable (Printable s) :=
  List.decidableBAll _ s

theorem Printable.append {s t : Bytes} (hs : Printable s) (ht : Printable t) :
    Printable (s ++ t) := by
  intro b hb
  rcases List.mem_append.mp hb with hb | hb
  · exact hs b hb
  · exact ht b hb

theorem Printable.notMem {s : Bytes} (hs : Printable s) {b : UInt8} (hb : b < 32) : b ∉ s := by
  intro hmem
  exact absurd (hs b hmem) (UInt8.not_le.mpr hb)

theorem printable_digits (n : ℕ) : Printable (digits n) := by
  intro b hb
  have hdigit := isdigit_of_mem_digits hb
  rw [isdigit, Bool.and_eq_true, decide_eq_true_iff] at hdigit
  have hzero : (32 : UInt8) ≤ byte '0' := by decide
  exact UInt8.le_trans hzero hdigit.1

theorem printable_formatInt (n : ℤ) : Printable (formatInt n) := by
  rw [formatInt_eq]
  split
  · have hminus : Printable [byte '-'] := by decide
    exact hminus.append (printable_digits _)
  · exact printable_digits _

end Stdio

end CodeOnLinux
