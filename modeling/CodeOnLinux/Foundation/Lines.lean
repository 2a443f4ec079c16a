import CodeOnLinux.Foundation.Machine

/-!
# Lines of a byte stream

A line ends in LF, in CR or in CRLF, and a reader with a buffer of bounded size hands out what it
has when the buffer is full. `takeLine n s` is one read of at most `n` bytes from the stream `s`,
with every terminator turned into LF, together with the rest of the stream; `Splits n s ts` says
that reading until the stream is used up gives the texts `ts`.

`normalize` is the stream with all terminators turned into LF at once. That the texts concatenate
to it (`Splits.flatten_eq`) is the statement that nothing is lost or duplicated at the cuts, also
when a cut falls between a CR and its LF.
-/

namespace CodeOnLinux

namespace Lines

def cr : UInt8 := byte '\r'

def lf : UInt8 := byte '\n'

/-- What is left behind a CR: the LF of a CRLF belongs to the same terminator. -/
def afterCr : Bytes → Bytes
  | [] => []
  | b :: s => if b = lf then s else b :: s

/-- Replace every CRLF and every lone CR by LF. -/
def normalize : Bytes → Bytes
  | [] => []
  | [a] => [if a = cr then lf else a]
  | a :: b :: s =>
    if a = cr then
      if b = lf then lf :: normalize s else lf :: normalize (b :: s)
    else a :: normalize (b :: s)

theorem normalize_cr (s : Bytes) : normalize (cr :: s) = lf :: normalize (afterCr s) := by
  cases s with
  | nil => rfl
  | cons b s =>
    rw [normalize, if_pos rfl, afterCr]
    split <;> rfl

theorem normalize_cons_of_ne {a : UInt8} (ha : a ≠ cr) (s : Bytes) :
    normalize (a :: s) = a :: normalize s := by
  cases s with
  | nil => simp only [normalize, if_neg ha]
  | cons b s => rw [normalize, if_neg ha]

theorem length_afterCr_le (s : Bytes) : (afterCr s).length ≤ s.length := by
  cases s with
  | nil => exact le_refl _
  | cons b s =>
    rw [afterCr]
    split
    · exact Nat.le_succ _
    · exact le_refl _

/-! ## One line -/

/-- A text of at most `n` bytes from the front of the stream, and the rest of the stream. -/
def takeLine : ℕ → Bytes → Bytes × Bytes
  | 0, s => ([], s)
  | _ + 1, [] => ([], [])
  | n + 1, a :: s =>
    if a = cr then ([lf], afterCr s)
    else if a = lf then ([lf], s)
    else (a :: (takeLine n s).1, (takeLine n s).2)

theorem normalize_eq_takeLine_append (n : ℕ) (s : Bytes) :
    normalize s = (takeLine n s).1 ++ normalize (takeLine n s).2 := by
  induction n generalizing s with
  | zero => rfl
  | succ n ih =>
    cases s with
    | nil => rfl
    | cons a s =>
      rw [takeLine]
      by_cases hcr : a = cr
      · rw [if_pos hcr, hcr, normalize_cr]
        rfl
      · rw [if_neg hcr, normalize_cons_of_ne hcr]
        by_cases hlf : a = lf
        · rw [if_pos hlf, hlf]
          rfl
        · rw [if_neg hlf, List.cons_append, ← ih]

theorem length_takeLine_le (n : ℕ) (s : Bytes) : (takeLine n s).1.length ≤ n := by
  induction n generalizing s with
  | zero => exact le_refl 0
  | succ n ih =>
    cases s with
    | nil => exact Nat.zero_le _
    | cons a s =>
      rw [takeLine]
      split_ifs
      · simp
      · simp
      · exact Nat.succ_le_succ (ih s)

/-- LF stands in a text at most as its last byte. -/
theorem lf_notMem_dropLast_takeLine (n : ℕ) (s : Bytes) : lf ∉ (takeLine n s).1.dropLast := by
  induction n generalizing s with
  | zero => exact List.not_mem_nil
  | succ n ih =>
    cases s with
    | nil => exact List.not_mem_nil
    | cons a s =>
      rw [takeLine]
      split_ifs with hcr hlf
      · exact List.not_mem_nil
      · exact List.not_mem_nil
      · cases ht : (takeLine n s).1 with
        | nil => exact List.not_mem_nil
        | cons b t =>
          have := ih s
          rw [ht] at this
          rw [List.dropLast_cons_cons, List.mem_cons, not_or]
          exact ⟨fun h ↦ hlf h.symm, this⟩

/-- A text that ends otherwise than in LF fills the buffer or exhausts the stream. -/
theorem takeLine_without_lf {n : ℕ} {s : Bytes} (h : (takeLine n s).1.getLast? ≠ some lf) :
    (takeLine n s).1.length = n ∨ (takeLine n s).2 = [] := by
  induction n generalizing s with
  | zero => exact Or.inl rfl
  | succ n ih =>
    cases s with
    | nil => exact Or.inr rfl
    | cons a s =>
      rw [takeLine] at h ⊢
      split_ifs at h ⊢
      · exact absurd rfl h
      · exact absurd rfl h
      · cases n with
        | zero => exact Or.inl rfl
        | succ n =>
          by_cases hnil : (takeLine (n + 1) s).1 = []
          · -- room is left but nothing was read, so the stream is over
            cases s with
            | nil => exact Or.inr rfl
            | cons b s =>
              rw [takeLine] at hnil
              split_ifs at hnil
          · rw [List.getLast?_cons_of_ne_nil hnil] at h
            rcases ih h with hlen | hrest
            · exact Or.inl (congrArg Nat.succ hlen)
            · exact Or.inr hrest

theorem takeLine_succ_ne_nil {n : ℕ} {s : Bytes} (hs : s ≠ []) : (takeLine (n + 1) s).1 ≠ [] := by
  cases s with
  | nil => exact absurd rfl hs
  | cons a s =>
    rw [takeLine]
    split_ifs <;> simp

theorem length_takeLine_snd_le (n : ℕ) (s : Bytes) : (takeLine n s).2.length ≤ s.length := by
  induction n generalizing s with
  | zero => exact le_refl _
  | succ n ih =>
    cases s with
    | nil => exact le_refl _
    | cons a s =>
      rw [takeLine]
      split_ifs
      · exact (length_afterCr_le s).trans (Nat.le_succ _)
      · exact Nat.le_succ _
      · exact (ih s).trans (Nat.le_succ _)

/-- A read with room for a byte shortens a stream that is not over. -/
theorem length_takeLine_snd_lt {n : ℕ} {s : Bytes} (hs : s ≠ []) :
    (takeLine (n + 1) s).2.length < s.length := by
  cases s with
  | nil => exact absurd rfl hs
  | cons a s =>
    rw [takeLine, List.length_cons, Nat.lt_succ_iff]
    split_ifs
    · exact length_afterCr_le s
    · exact le_refl _
    · exact length_takeLine_snd_le n s

/-- A text that ends in LF is not changed by what follows in the stream. -/
theorem takeLine_append {n : ℕ} {s : Bytes} (h : lf ∈ (takeLine n s).1) (t : Bytes) :
    (takeLine n (s ++ t)).1 = (takeLine n s).1 := by
  induction n generalizing s with
  | zero => exact absurd h List.not_mem_nil
  | succ n ih =>
    cases s with
    | nil => exact absurd h List.not_mem_nil
    | cons a s =>
      rw [takeLine] at h
      rw [List.cons_append, takeLine, takeLine]
      split_ifs at h ⊢ with hcr hlf
      · rfl
      · rfl
      · have hmem : lf ∈ (takeLine n s).1 := (List.mem_cons.mp h).resolve_left (Ne.symm hlf)
        exact congrArg (a :: ·) (ih hmem)

/-! ## All lines -/

/-- Reading texts of at most `n` bytes from `s` until it is used up gives `ts`. -/
inductive Splits (n : ℕ) : Bytes → List Bytes → Prop
  | nil : Splits n [] []
  | cons {s : Bytes} {ts : List Bytes} :
    s ≠ [] → Splits n (takeLine n s).2 ts → Splits n s ((takeLine n s).1 :: ts)

variable {n : ℕ} {s : Bytes} {ts : List Bytes}

/-- **Nothing is lost or duplicated.** -/
theorem Splits.flatten_eq (h : Splits n s ts) : ts.flatten = normalize s := by
  induction h with
  | nil => rfl
  | @cons s ts _ _ ih => rw [List.flatten_cons, ih, ← normalize_eq_takeLine_append]

theorem Splits.bounded (h : Splits n s ts) : ∀ t ∈ ts, t.length ≤ n ∧ lf ∉ t.dropLast := by
  induction h with
  | nil => exact fun t ht ↦ absurd ht List.not_mem_nil
  | @cons s ts _ _ ih =>
    intro t ht
    rcases List.mem_cons.mp ht with rfl | ht
    · exact ⟨length_takeLine_le n s, lf_notMem_dropLast_takeLine n s⟩
    · exact ih t ht

/-- Only a text that fills the buffer, or the last one, may lack its LF. -/
theorem Splits.complete (h : Splits n s ts) {pre post : List Bytes} {t : Bytes}
    (hsplit : ts = pre ++ t :: post) (hlf : t.getLast? ≠ some lf) : t.length = n ∨ post = [] := by
  induction h generalizing pre with
  | nil => exact absurd hsplit (by simp)
  | @cons s ts _ hrest ih =>
    cases pre with
    | nil =>
      obtain ⟨rfl, rfl⟩ := List.cons.inj hsplit
      rcases takeLine_without_lf hlf with hlen | hover
      · exact Or.inl hlen
      · rw [hover] at hrest
        cases hrest with
        | nil => exact Or.inr rfl
        | cons hne _ => exact absurd rfl hne
    | cons u pre => exact ih (List.cons.inj hsplit).2

/-! ## Lines that end in CRLF -/

/-- The line in front of the first CRLF, and what follows it. -/
def takeCrlf : Bytes → Option (Bytes × Bytes)
  | [] => none
  | [_] => none
  | a :: b :: s =>
    if a = cr ∧ b = lf then some ([], s)
    else (takeCrlf (b :: s)).map (Prod.map (a :: ·) id)

/-- A text without the LF at its end. -/
def chomp (s : Bytes) : Bytes := if s.getLast? = some lf then s.dropLast else s

theorem chomp_concat (s : Bytes) (b : UInt8) :
    chomp (s ++ [b]) = if b = lf then s else s ++ [b] := by
  rw [chomp, List.getLast?_concat, List.dropLast_concat]
  simp only [Option.some_inj]

def crlf : Bytes := [cr, lf]

/-- The lines, each with its CRLF. -/
def joinLines (lines : List Bytes) : Bytes := lines.flatMap (· ++ crlf)

theorem joinLines_cons (line : Bytes) (lines : List Bytes) :
    joinLines (line :: lines) = line ++ (crlf ++ joinLines lines) := by
  rw [joinLines, List.flatMap_cons, List.append_assoc, ← joinLines]

theorem takeCrlf_of_notMem {s : Bytes} (h : lf ∉ s) : takeCrlf s = none := by
  match s with
  | [] => rfl
  | [_] => rfl
  | a :: b :: s =>
    rw [List.mem_cons, not_or] at h
    have hb : ¬(a = cr ∧ b = lf) := fun hab ↦ h.2 (hab.2 ▸ List.mem_cons_self)
    rw [takeCrlf, if_neg hb, takeCrlf_of_notMem h.2, Option.map_none]

theorem takeCrlf_append {line : Bytes} (h : lf ∉ line) (t : Bytes) :
    takeCrlf (line ++ (crlf ++ t)) = some (line, t) := by
  match line with
  | [] => exact if_pos ⟨rfl, rfl⟩
  | [a] =>
    have hcr : ¬(a = cr ∧ cr = lf) := fun hab ↦ absurd hab.2 (by decide)
    exact (if_neg hcr).trans (congrArg (Option.map _) (takeCrlf_append List.not_mem_nil t))
  | a :: b :: line =>
    rw [List.mem_cons, not_or] at h
    have hb : ¬(a = cr ∧ b = lf) := fun hab ↦ h.2 (hab.2 ▸ List.mem_cons_self)
    exact (if_neg hb).trans (congrArg (Option.map _) (takeCrlf_append h.2 t))

/-- The line that is taken, its CRLF and the rest make up the text. -/
theorem eq_append_of_takeCrlf {s line rest : Bytes} (h : takeCrlf s = some (line, rest)) :
    line ++ (crlf ++ rest) = s := by
  induction s using takeCrlf.induct generalizing line with
  | case1 => cases h
  | case2 a => cases h
  | case3 a b s hab =>
    rw [takeCrlf, if_pos hab] at h
    obtain ⟨rfl, rfl⟩ := Prod.mk.inj (Option.some_inj.mp h)
    rw [hab.1, hab.2]
    rfl
  | case4 a b s hab ih =>
    rw [takeCrlf, if_neg hab] at h
    obtain ⟨⟨line', rest'⟩, htake, heq⟩ := Option.map_eq_some_iff.mp h
    obtain ⟨rfl, rfl⟩ := Prod.mk.inj heq
    rw [List.cons_append, ih htake]

/-- **The front of a text that starts with a line** has the line as soon as it is as long as the
line with its CRLF. -/
theorem takeCrlf_front {line s t tail : Bytes} (h : lf ∉ line)
    (hs : s ++ t = line ++ (crlf ++ tail)) :
    takeCrlf s = if line.length + 2 ≤ s.length then some (line, s.drop (line.length + 2))
      else none := by
  have hcrlf : (line ++ crlf).length = line.length + 2 := List.length_append
  rw [← List.append_assoc] at hs
  split
  · next hle =>
    obtain ⟨rest, rfl⟩ : line ++ crlf <+: s := by
      refine List.prefix_of_prefix_length_le ⟨tail, hs.symm⟩ ⟨t, rfl⟩ ?_
      rw [hcrlf]
      exact hle
    rw [← hcrlf, List.drop_left, List.append_assoc, takeCrlf_append h]
  · next hlt =>
    -- the LF is the last byte of the line with its CRLF, and the front ends before it
    have hfront : s <+: line ++ [cr] := by
      refine List.prefix_of_prefix_length_le ⟨t, hs⟩ ⟨lf :: tail, ?_⟩ ?_
      · rw [List.append_assoc, List.append_assoc]
        rfl
      · rw [List.length_append, List.length_singleton]
        omega
    refine takeCrlf_of_notMem fun hmem ↦ ?_
    rcases List.mem_append.mp (hfront.subset hmem) with hline | hcr
    · exact h hline
    · exact absurd (List.mem_singleton.mp hcr) (by decide)

end Lines

end CodeOnLinux
