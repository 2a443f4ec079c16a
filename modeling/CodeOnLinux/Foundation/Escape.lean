import CodeOnLinux.Foundation.Machine

/-!
# Escaping of byte strings

A byte string is made to fit a smaller alphabet by writing each byte that is not `safe` as a
`mark` followed by two digits in base sixteen; a reader replaces each mark with two digits after
it by the byte they stand for and keeps everything else. An `Escaping` fixes the mark, the
alphabet and both readings of a digit, with the laws that make the reader undo the writer
(`Escaping.decode_encode`). The writer undoes the reader exactly on the strings that it writes
itself, those whose escapes are needed and stand in its own digits (`Escaping.encode_decode_iff`).

The reader looks two bytes ahead, so `decode` is not a homomorphism for concatenation; proofs
about it go through `Escaping.decode_cons`, which peels off one byte or one escape, and the
induction `Escaping.piece_induction` over these pieces. No piece reaches across a byte that is
neither the mark nor a digit, so the parts on both sides of such a byte are read apart
(`Escaping.decode_append_cons`).
-/

namespace CodeOnLinux

/-- An escape scheme. The writer uses `digit`; the reader may accept further digits. -/
structure Escaping where
  /-- The byte in front of two digits. -/
  mark : UInt8
  /-- The bytes that stand for themselves. -/
  safe : UInt8 → Bool
  /-- The digits that are read. -/
  isDigit : UInt8 → Bool
  /-- What a digit is worth. -/
  value : UInt8 → ℕ
  /-- The digits that are written. -/
  digit : ℕ → UInt8
  /-- The mark is escaped itself. -/
  mark_not_safe : safe mark = false
  /-- What is written is read as a digit. -/
  isDigit_digit : ∀ n < 16, isDigit (digit n) = true
  /-- It has its value. -/
  value_digit : ∀ n < 16, value (digit n) = n

namespace Escaping

variable (E : Escaping)

/-! ## Reading -/

/-- The byte that two digits stand for. -/
def byteOf (a b : UInt8) : UInt8 := UInt8.ofNat (E.value a * 16 + E.value b)

/-- The byte that an escape at the front of the string stands for, if there is one. -/
def escape? : Bytes → Option UInt8
  | a :: b :: c :: _ =>
    if a = E.mark ∧ E.isDigit b ∧ E.isDigit c then some (E.byteOf b c) else none
  | _ => none

/-- Replace the escapes from left to right, without rescanning, and keep every other byte. -/
def decode : Bytes → Bytes
  | [] => []
  | [a] => [a]
  | [a, b] => [a, b]
  | a :: b :: c :: s =>
    if a = E.mark ∧ E.isDigit b ∧ E.isDigit c then E.byteOf b c :: decode s
    else a :: decode (b :: c :: s)

variable {E}

@[simp] theorem decode_nil : E.decode [] = [] := rfl

theorem decode_cons (a : UInt8) (s : Bytes) :
    E.decode (a :: s) = match E.escape? (a :: s) with
      | some b => b :: E.decode (s.drop 2)
      | none => a :: E.decode s := by
  match s with
  | [] => rfl
  | [b] => rfl
  | b :: c :: s =>
    rw [decode, escape?]
    by_cases h : a = E.mark ∧ E.isDigit b ∧ E.isDigit c
    · rw [if_pos h, if_pos h]
      rfl
    · rw [if_neg h, if_neg h]

theorem escape?_of_ne_mark {a : UInt8} (ha : a ≠ E.mark) (s : Bytes) :
    E.escape? (a :: s) = none := by
  match s with
  | [] => rfl
  | [b] => rfl
  | b :: c :: s => exact if_neg fun h ↦ ha h.1

/-- An escape takes two further bytes. -/
theorem length_of_escape? {a b : UInt8} {s : Bytes} (h : E.escape? (a :: s) = some b) :
    (s.drop 2).length + 2 = s.length := by
  match s with
  | [] => exact absurd h (by simp [escape?])
  | [c] => exact absurd h (by simp [escape?])
  | c :: d :: s => rfl

theorem decode_cons_of_ne_mark {a : UInt8} (ha : a ≠ E.mark) (s : Bytes) :
    E.decode (a :: s) = a :: E.decode s := by
  rw [decode_cons, escape?_of_ne_mark ha]

theorem decode_escape {a b : UInt8} (ha : E.isDigit a = true) (hb : E.isDigit b = true)
    (s : Bytes) : E.decode (E.mark :: a :: b :: s) = E.byteOf a b :: E.decode s := by
  rw [decode, if_pos ⟨rfl, ha, hb⟩]

/-- Induction over the pieces that the reader takes off the front. -/
@[elab_as_elim]
theorem piece_induction {P : Bytes → Prop} (nil : P [])
    (plain : ∀ a s, E.escape? (a :: s) = none → P s → P (a :: s))
    (escape : ∀ a b s, E.escape? (a :: s) = some b → P (s.drop 2) → P (a :: s)) (s : Bytes) :
    P s := by
  induction hn : s.length using Nat.strongRecOn generalizing s with
  | _ n ih =>
    cases s with
    | nil => exact nil
    | cons a s =>
      rw [List.length_cons] at hn
      cases he : E.escape? (a :: s) with
      | none => exact plain a s he (ih s.length (by omega) s rfl)
      | some b =>
        have hlen := length_of_escape? he
        exact escape a b s he (ih (s.drop 2).length (by omega) (s.drop 2) rfl)

theorem length_decode_le (s : Bytes) : (E.decode s).length ≤ s.length := by
  induction s using piece_induction (E := E) with
  | nil => exact le_refl 0
  | plain a s he ih =>
    rw [decode_cons, he]
    exact Nat.succ_le_succ ih
  | escape a b s he ih =>
    have hlen := length_of_escape? he
    rw [decode_cons, he]
    simp only [List.length_cons]
    omega

/-- A byte that is not a digit does not complete an escape in front of it. -/
theorem escape?_append_cons {c : UInt8} (hc : E.isDigit c = false) (a : UInt8) (s tail : Bytes) :
    E.escape? (a :: (s ++ c :: tail)) = E.escape? (a :: s) := by
  match s, tail with
  | [], [] => rfl
  | [], _ :: _ => exact if_neg fun h ↦ Bool.false_ne_true (hc.symm.trans h.2.1)
  | [b], _ => exact if_neg fun h ↦ Bool.false_ne_true (hc.symm.trans h.2.2)
  | _ :: _ :: _, _ => rfl

/-- **Reading part by part.** No escape reaches across a byte that is neither the mark nor a
digit, also where the part in front of it ends in an escape that lacks digits. -/
theorem decode_append_cons {c : UInt8} (hmark : c ≠ E.mark) (hc : E.isDigit c = false)
    (s tail : Bytes) : E.decode (s ++ c :: tail) = E.decode s ++ c :: E.decode tail := by
  induction s using piece_induction (E := E) with
  | nil => exact decode_cons_of_ne_mark hmark tail
  | plain a s he ih =>
    have hfront := (escape?_append_cons hc a s tail).trans he
    rw [List.cons_append, decode_cons, hfront, decode_cons, he]
    exact congrArg (a :: ·) ih
  | escape a b s he ih =>
    -- the two digits stand in front of the separator
    have hlen := length_of_escape? he
    have hfront := (escape?_append_cons hc a s tail).trans he
    have hdrop : (s ++ c :: tail).drop 2 = s.drop 2 ++ c :: tail :=
      List.drop_append_of_le_length (by omega)
    rw [List.cons_append, decode_cons, hfront, decode_cons, he]
    exact congrArg (b :: ·) (hdrop ▸ ih)

variable (E) in
/-- How many escapes are replaced. -/
def escapes : Bytes → ℕ
  | a :: b :: c :: s =>
    if a = E.mark ∧ E.isDigit b ∧ E.isDigit c then escapes s + 1 else escapes (b :: c :: s)
  | _ => 0

/-- Each of them makes the string shorter by two bytes. -/
theorem length_decode_add (s : Bytes) : (E.decode s).length + 2 * E.escapes s = s.length := by
  induction s using Escaping.decode.induct (E := E) with
  | case1 => rfl
  | case2 a => rfl
  | case3 a b => rfl
  | case4 a b c s h ih =>
    rw [decode, escapes, if_pos h, if_pos h]
    simp only [List.length_cons]
    omega
  | case5 a b c s h ih =>
    rw [decode, escapes, if_neg h, if_neg h]
    simp only [List.length_cons] at ih ⊢
    omega

/-! ## Strings that are read as they are -/

variable (E) in
/-- No escape starts anywhere in the string. -/
def Plain : Bytes → Prop
  | [] => True
  | a :: s => E.escape? (a :: s) = none ∧ Plain s

instance decidablePlain : DecidablePred E.Plain
  | [] => isTrue trivial
  | a :: s =>
    have := decidablePlain s
    inferInstanceAs (Decidable (E.escape? (a :: s) = none ∧ E.Plain s))

theorem decode_of_plain {s : Bytes} (h : E.Plain s) : E.decode s = s := by
  induction s with
  | nil => rfl
  | cons a s ih => rw [decode_cons, h.1, ih h.2]

/-- An escape makes the string shorter: the first one is read in any case. -/
theorem length_decode_lt {s : Bytes} (h : ¬E.Plain s) : (E.decode s).length < s.length := by
  induction s with
  | nil => exact absurd trivial h
  | cons a s ih =>
    rw [decode_cons]
    cases he : E.escape? (a :: s) with
    | none =>
      have hrest : ¬E.Plain s := fun hs ↦ h ⟨he, hs⟩
      exact Nat.succ_lt_succ (ih hrest)
    | some b =>
      have hlen := length_of_escape? he
      have hle := length_decode_le (E := E) (s.drop 2)
      simp only [List.length_cons]
      omega

theorem plain_append_singleton {s : Bytes} {c : UInt8} (hc : E.isDigit c = false) :
    E.Plain (s ++ [c]) ↔ E.Plain s := by
  induction s with
  | nil => exact iff_of_true ⟨rfl, trivial⟩ trivial
  | cons a s ih => rw [List.cons_append, Plain, escape?_append_cons hc, ih, Plain]

/-! ## Writing -/

variable (E)

def encodeByte (b : UInt8) : Bytes :=
  if E.safe b then [b] else [E.mark, E.digit (b.toNat / 16), E.digit (b.toNat % 16)]

def encode (s : Bytes) : Bytes := s.flatMap E.encodeByte

/-- Every mark in the string starts a complete escape. -/
inductive Whole : Bytes → Prop
  | nil : Whole []
  | plain {b : UInt8} {s : Bytes} : b ≠ E.mark → Whole s → Whole (b :: s)
  | escape {a b : UInt8} {s : Bytes} :
    E.isDigit a = true → E.isDigit b = true → Whole s → Whole (E.mark :: a :: b :: s)

variable {E}

@[simp] theorem encode_nil : E.encode [] = [] := rfl

theorem encode_cons (b : UInt8) (s : Bytes) : E.encode (b :: s) = E.encodeByte b ++ E.encode s :=
  List.flatMap_cons

theorem ne_mark_of_safe {b : UInt8} (hb : E.safe b = true) : b ≠ E.mark := fun he ↦
  absurd hb (by rw [he, E.mark_not_safe]; exact Bool.false_ne_true)

theorem encodeByte_of_safe {b : UInt8} (hb : E.safe b = true) : E.encodeByte b = [b] := if_pos hb

theorem encodeByte_of_not_safe {b : UInt8} (hb : ¬E.safe b = true) :
    E.encodeByte b = [E.mark, E.digit (b.toNat / 16), E.digit (b.toNat % 16)] := if_neg hb

theorem length_encodeByte_le (b : UInt8) : (E.encodeByte b).length ≤ 3 := by
  rw [encodeByte]
  split <;> simp

/-- The two digits of a byte. -/
theorem digits_of_byte (b : UInt8) :
    E.isDigit (E.digit (b.toNat / 16)) = true ∧ E.isDigit (E.digit (b.toNat % 16)) = true ∧
      E.byteOf (E.digit (b.toNat / 16)) (E.digit (b.toNat % 16)) = b := by
  have hb : b.toNat < 256 := b.toNat_lt
  have hhi : b.toNat / 16 < 16 := by omega
  have hlo : b.toNat % 16 < 16 := by omega
  refine ⟨E.isDigit_digit _ hhi, E.isDigit_digit _ hlo, ?_⟩
  rw [byteOf, E.value_digit _ hhi, E.value_digit _ hlo, Nat.div_add_mod' b.toNat 16,
    UInt8.ofNat_toNat]

/-- **Reading undoes writing**, for one byte in front of anything. -/
theorem decode_encodeByte_append (b : UInt8) (s : Bytes) :
    E.decode (E.encodeByte b ++ s) = b :: E.decode s := by
  by_cases hb : E.safe b = true
  · rw [encodeByte_of_safe hb, List.singleton_append, decode_cons_of_ne_mark (ne_mark_of_safe hb)]
  · obtain ⟨hhi, hlo, hbyte⟩ := digits_of_byte (E := E) b
    rw [encodeByte_of_not_safe hb, List.cons_append, List.cons_append, List.cons_append,
      List.nil_append, decode_escape hhi hlo, hbyte]

theorem decode_encode (s : Bytes) : E.decode (E.encode s) = s := by
  induction s with
  | nil => rfl
  | cons b s ih => rw [encode_cons, decode_encodeByte_append, ih]

theorem whole_encode (s : Bytes) : Whole E (E.encode s) := by
  induction s with
  | nil => exact .nil
  | cons b s ih =>
    rw [encode_cons]
    by_cases hb : E.safe b = true
    · rw [encodeByte_of_safe hb]
      exact .plain (ne_mark_of_safe hb) ih
    · obtain ⟨hhi, hlo, -⟩ := digits_of_byte (E := E) b
      rw [encodeByte_of_not_safe hb]
      exact .escape hhi hlo ih

/-! ## The strings that are written -/

variable (E) in
/-- A digit of the writer. -/
def OwnDigit (a : UInt8) : Prop := ∃ n < 16, E.digit n = a

variable (E) in
/-- Every byte is safe or belongs to an escape, in the writer's digits, of a byte that is not. -/
inductive Canonical : Bytes → Prop
  | nil : Canonical []
  | safe {b : UInt8} {s : Bytes} : E.safe b = true → Canonical s → Canonical (b :: s)
  | escape {a b : UInt8} {s : Bytes} :
    E.OwnDigit a → E.OwnDigit b → ¬E.safe (E.byteOf a b) = true → Canonical s →
      Canonical (E.mark :: a :: b :: s)

theorem OwnDigit.isDigit {a : UInt8} (h : E.OwnDigit a) : E.isDigit a = true := by
  obtain ⟨n, hn, rfl⟩ := h
  exact E.isDigit_digit n hn

/-- The writer's digits of the byte that two of its own digits stand for are those two. -/
theorem OwnDigit.digits {a b : UInt8} (ha : E.OwnDigit a) (hb : E.OwnDigit b) :
    E.digit ((E.byteOf a b).toNat / 16) = a ∧ E.digit ((E.byteOf a b).toNat % 16) = b := by
  obtain ⟨n, hn, rfl⟩ := ha
  obtain ⟨k, hk, rfl⟩ := hb
  have htoNat : (E.byteOf (E.digit n) (E.digit k)).toNat = n * 16 + k := by
    rw [byteOf, E.value_digit n hn, E.value_digit k hk, UInt8.toNat_ofNat']
    omega
  have hdiv : (n * 16 + k) / 16 = n := by omega
  have hmod : (n * 16 + k) % 16 = k := by omega
  rw [htoNat, hdiv, hmod]
  exact ⟨rfl, rfl⟩

theorem canonical_encode (s : Bytes) : E.Canonical (E.encode s) := by
  induction s with
  | nil => exact .nil
  | cons b s ih =>
    rw [encode_cons]
    by_cases hb : E.safe b = true
    · rw [encodeByte_of_safe hb]
      exact .safe hb ih
    · obtain ⟨-, -, hbyte⟩ := digits_of_byte (E := E) b
      have hlt : b.toNat < 256 := b.toNat_lt
      have hsafe : ¬E.safe (E.byteOf (E.digit (b.toNat / 16)) (E.digit (b.toNat % 16))) = true := by
        rwa [hbyte]
      rw [encodeByte_of_not_safe hb]
      exact .escape ⟨_, by omega, rfl⟩ ⟨_, by omega, rfl⟩ hsafe ih

theorem Canonical.encode_decode {t : Bytes} (h : E.Canonical t) : E.encode (E.decode t) = t := by
  induction h with
  | nil => rfl
  | safe hb _ ih =>
    rw [decode_cons_of_ne_mark (ne_mark_of_safe hb), encode_cons, encodeByte_of_safe hb, ih]
    rfl
  | escape ha hb hsafe _ ih =>
    obtain ⟨hhi, hlo⟩ := ha.digits hb
    rw [decode_escape ha.isDigit hb.isDigit, encode_cons, encodeByte_of_not_safe hsafe, hhi, hlo,
      ih]
    rfl

/-- **Writing undoes reading** exactly on the strings that the writer writes. -/
theorem encode_decode_iff (t : Bytes) : E.encode (E.decode t) = t ↔ E.Canonical t :=
  ⟨fun h ↦ h ▸ canonical_encode (E.decode t), Canonical.encode_decode⟩

end Escaping

end CodeOnLinux
