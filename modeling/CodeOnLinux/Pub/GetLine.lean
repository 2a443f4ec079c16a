import CodeOnLinux.Foundation.Lines

/-!
# Reading a line from a socket: `get_line` of `pub.c`

`get_line` receives one byte at a time and looks at one byte after a CR. A socket is embedded as
its `recv`: given the state of the connection and whether the call is made with `MSG_PEEK`, the
outcome of asking for one byte and the state after it. The source's variable `c` is the byte read,
the byte peeked at and the flag that ends the loop; it is kept as one variable here.

On a stream that ends, or has nothing more to read for now, one call takes one line in the sense
of `Lines.takeLine` (`getLine_stream`), and calling until `0` is returned splits the whole stream
(`getLines_splits_stream`).
-/

namespace CodeOnLinux

namespace Pub

open Memory Lines

/-- The outcome of `recv(sock, &c, 1, flags)`: a byte, the end of the stream (`0`), or `-1`. -/
inductive Recv
  | got (b : UInt8)
  | closed
  | failed
  deriving DecidableEq

variable {σ : Type}

/-- The branch for a CR: peek, and take the LF of a CRLF. The return value of the last `recv` is
not looked at; a byte it brings is stored in `c`. -/
def afterReturn (recv : Bool → σ → Recv × σ) (s : σ) : UInt8 × σ :=
  match recv true s with
  | (.got c, s) =>
    if c = lf then
      match recv false s with
      | (.got c, s) => (c, s)
      | (_, s) => (lf, s)
    else (lf, s)
  | (_, s) => (lf, s)

/-- The loop of `get_line`. The first argument is the room left, `size - 1 - i`. When `recv` brings
nothing the source sets `c` to LF, which ends the loop. -/
def getLineLoop (recv : Bool → σ → Recv × σ) (buf : ℕ) :
    ℕ → Bytes → ℕ → UInt8 → σ → Checked (ℕ × Bytes × σ)
  | 0, m, i, _, s => .ok (i, m, s)
  | room + 1, m, i, c, s =>
    if c = lf then .ok (i, m, s)
    else
      match recv false s with
      | (.got c, s) => do
        let (c, s) := if c = cr then afterReturn recv s else (c, s)
        let m ← store m (buf + i) c
        getLineLoop recv buf room m (i + 1) c s
      | (_, s) => .ok (i, m, s)

def getLine (recv : Bool → σ → Recv × σ) (m : Bytes) (buf : ℕ) (size : ℤ) (s : σ) :
    Checked (ℕ × Bytes × σ) := do
  let (i, m, s) ← getLineLoop recv buf (size - 1).toNat m 0 0 s
  let m ← store m (buf + i) 0
  return (i, m, s)

/-- A call that returned. -/
structure Call where
  /-- Its result. -/
  result : ℕ
  /-- The memory it left. -/
  memory : Bytes

/-- The text in the buffer after a call. -/
def Call.text (buf : ℕ) (k : Call) : Bytes := (k.memory.drop buf).take k.result

/-- Call `get_line` until it returns `0`, and collect the calls before that one. -/
def getLines (recv : Bool → σ → Recv × σ) (buf : ℕ) (size : ℤ) :
    ℕ → Bytes → σ → Checked (List Call × Bytes × σ)
  | 0, _, _ => .error .outOfFuel
  | fuel + 1, m, s => do
    let (n, m, s) ← getLine recv m buf size s
    if n = 0 then return ([], m, s)
    else
      let (calls, m', s) ← getLines recv buf size fuel m s
      return (⟨n, m⟩ :: calls, m', s)

/-! ## A connection as part of a larger state -/

section

variable {ω : Type} {recv : Bool → σ → Recv × σ} {recv' : Bool → ω → Recv × ω} {f : σ → ω}

theorem afterReturn_map (hf : ∀ peek s, recv' peek (f s) = Prod.map id f (recv peek s)) (s : σ) :
    afterReturn recv' (f s) = Prod.map id f (afterReturn recv s) := by
  rw [afterReturn, afterReturn, hf]
  rcases recv true s with ⟨r, s⟩
  cases r with
  | got c =>
    simp only [Prod.map_apply, id]
    by_cases hc : c = lf
    · rw [if_pos hc, if_pos hc, hf]
      rcases recv false s with ⟨r, s⟩
      cases r <;> rfl
    · rw [if_neg hc, if_neg hc]
      rfl
  | closed => rfl
  | failed => rfl

theorem getLineLoop_map (hf : ∀ peek s, recv' peek (f s) = Prod.map id f (recv peek s))
    (buf room : ℕ) (m : Bytes) (i : ℕ) (c : UInt8) (s : σ) :
    getLineLoop recv' buf room m i c (f s) =
      (getLineLoop recv buf room m i c s).map (Prod.map id (Prod.map id f)) := by
  induction room generalizing m i c s with
  | zero => rfl
  | succ room ih =>
    rw [getLineLoop, getLineLoop, hf]
    by_cases hc : c = lf
    · rw [if_pos hc, if_pos hc]
      rfl
    · rw [if_neg hc, if_neg hc]
      match recv false s with
      | (.got c, s) =>
        simp only [Prod.map, id, afterReturn_map hf]
        by_cases hcr : c = cr
        · simp only [if_pos hcr]
          cases store m (buf + i) (afterReturn recv s).1 with
          | error e => rfl
          | ok m => exact ih m (i + 1) _ _
        · simp only [if_neg hcr]
          cases store m (buf + i) c with
          | error e => rfl
          | ok m => exact ih m (i + 1) c s
      | (.closed, s) => rfl
      | (.failed, s) => rfl

/-- `get_line` uses a connection through its `recv` only. -/
theorem getLine_map (hf : ∀ peek s, recv' peek (f s) = Prod.map id f (recv peek s)) (m : Bytes)
    (buf : ℕ) (size : ℤ) (s : σ) :
    getLine recv' m buf size (f s) =
      (getLine recv m buf size s).map (Prod.map id (Prod.map id f)) := by
  rw [getLine, getLine, getLineLoop_map hf]
  cases getLineLoop recv buf (size - 1).toNat m 0 0 s with
  | error e => rfl
  | ok r =>
    obtain ⟨i, m, s⟩ := r
    simp only [Except.map, Checked.ok_bind, Prod.map, id]
    cases store m (buf + i) 0 with
    | error e => rfl
    | ok m => rfl

end

/-! ## Streams -/

/-- A connection on which the bytes of a stream can be read; behind them `recv` returns `atEnd`,
for ever: `closed` on a stream that ended, `failed` where nothing more has arrived. -/
def streamRecv (atEnd : Recv) (peek : Bool) : Bytes → Recv × Bytes
  | [] => (atEnd, [])
  | b :: s => (.got b, if peek then b :: s else s)

/-- At the end of the stream no byte is brought. -/
def Recv.Ends (r : Recv) : Prop := ∀ b, r ≠ .got b

theorem Recv.ends_closed : Recv.closed.Ends := nofun

theorem Recv.ends_failed : Recv.failed.Ends := nofun

section

variable {recv : Bool → σ → Recv × σ} {buf i : ℕ} {m : Bytes} {c : UInt8} {s s₁ : σ}

/-- The loop is left when `c` is LF, whatever room there still is. -/
theorem getLineLoop_lf (recv : Bool → σ → Recv × σ) (buf room : ℕ) (m : Bytes) (i : ℕ) (s : σ) :
    getLineLoop recv buf room m i lf s = .ok (i, m, s) := by
  cases room with
  | zero => rfl
  | succ room => rw [getLineLoop, if_pos rfl]

theorem getLineLoop_of_ends {r : Recv} (hc : c ≠ lf) (hrecv : recv false s = (r, s₁)) (hr : r.Ends)
    (room : ℕ) : getLineLoop recv buf (room + 1) m i c s = .ok (i, m, s₁) := by
  rw [getLineLoop, if_neg hc, hrecv]
  cases r with
  | got b => exact absurd rfl (hr b)
  | closed => rfl
  | failed => rfl

/-- **One turn.** What is stored for the byte `b` is `b`, or what stands for a CR. -/
theorem getLineLoop_of_got {b c' : UInt8} {s₂ : σ} (hc : c ≠ lf)
    (hrecv : recv false s = (.got b, s₁))
    (hnext : (if b = cr then afterReturn recv s₁ else (b, s₁)) = (c', s₂))
    (hcell : buf + i < m.length) (room : ℕ) : getLineLoop recv buf (room + 1) m i c s =
      getLineLoop recv buf room (m.set (buf + i) c') (i + 1) c' s₂ := by
  rw [getLineLoop, if_neg hc, hrecv]
  simp only [hnext, store_ok hcell, Checked.ok_bind]

end

theorem afterReturn_stream {atEnd : Recv} (hend : atEnd.Ends) (s : Bytes) :
    afterReturn (streamRecv atEnd) s = (lf, afterCr s) := by
  cases s with
  | nil =>
    cases atEnd with
    | got b => exact absurd rfl (hend b)
    | closed => rfl
    | failed => rfl
  | cons b s =>
    by_cases hb : b = lf
    · subst hb
      rfl
    · simp [afterReturn, streamRecv, afterCr, hb]

theorem getLineLoop_stream {atEnd : Recv} (hend : atEnd.Ends) {buf room : ℕ} {m : Bytes} {i : ℕ}
    {c : UInt8} (hc : c ≠ lf) {s : Bytes} (hroom : buf + i + room ≤ m.length) :
    ∃ m', getLineLoop (streamRecv atEnd) buf room m i c s
        = .ok (i + (takeLine room s).1.length, m', (takeLine room s).2) ∧
      Wrote m m' (buf + i) (takeLine room s).1 := by
  induction room generalizing m i c s with
  | zero => exact ⟨m, rfl, Wrote.refl _ _⟩
  | succ room ih =>
    have hlt : buf + i < m.length := by omega
    cases s with
    | nil =>
      have hrecv : streamRecv atEnd false [] = (atEnd, []) := rfl
      rw [getLineLoop_of_ends hc hrecv hend]
      exact ⟨m, rfl, Wrote.refl _ _⟩
    | cons a s =>
      have hrecv : streamRecv atEnd false (a :: s) = (.got a, s) := rfl
      rw [takeLine]
      by_cases hcr : a = cr
      · have hnext : (if a = cr then afterReturn (streamRecv atEnd) s else (a, s)) =
            (lf, afterCr s) := by
          rw [if_pos hcr, afterReturn_stream hend]
        rw [getLineLoop_of_got hc hrecv hnext hlt, getLineLoop_lf, if_pos hcr]
        exact ⟨_, rfl, wrote_set hlt lf⟩
      · have hnext : (if a = cr then afterReturn (streamRecv atEnd) s else (a, s)) = (a, s) :=
          if_neg hcr
        rw [getLineLoop_of_got hc hrecv hnext hlt, if_neg hcr]
        by_cases hlf : a = lf
        · subst hlf
          rw [getLineLoop_lf, if_pos rfl]
          exact ⟨_, rfl, wrote_set hlt lf⟩
        · have hroom' : buf + (i + 1) + room ≤ (m.set (buf + i) a).length := by
            rw [List.length_set]
            omega
          obtain ⟨m', hm', hwrote⟩ := ih hlf (s := s) hroom'
          refine ⟨m', ?_, ?_⟩
          · rw [hm', if_neg hlf, List.length_cons, Nat.add_assoc, Nat.add_comm 1]
          · rw [if_neg hlf]
            exact (wrote_set hlt a).append hwrote

/-- **One call of `get_line`** on a stream: it stores a line of at most `size - 1` bytes and a NUL
behind it, returns the length of the line, and leaves the rest of the stream. -/
theorem getLine_stream {atEnd : Recv} (hend : atEnd.Ends) {m : Bytes} {buf n : ℕ} (s : Bytes)
    (hroom : buf + n < m.length) :
    ∃ m', getLine (streamRecv atEnd) m buf (n + 1) s
        = .ok ((takeLine n s).1.length, m', (takeLine n s).2) ∧
      Wrote m m' buf ((takeLine n s).1 ++ [0]) := by
  have hc : (0 : UInt8) ≠ lf := by decide
  obtain ⟨m₁, hm₁, hwrote⟩ := getLineLoop_stream hend hc (s := s)
    (show buf + 0 + n ≤ m.length by omega)
  have hlen := length_takeLine_le n s
  have hlt : buf + (takeLine n s).1.length < m₁.length := by rw [hwrote.length_eq]; omega
  refine ⟨m₁.set (buf + (takeLine n s).1.length) 0, ?_, hwrote.append (wrote_set hlt 0)⟩
  rw [getLine, show ((n : ℤ) + 1 - 1).toNat = n by omega, hm₁]
  simp only [Checked.ok_bind, zero_add, store_ok hlt]
  rfl

theorem text_of_wrote {m m' : Bytes} {buf : ℕ} {t : Bytes}
    (hwrote : Wrote m m' buf (t ++ [0])) :
    Call.text buf ⟨t.length, m'⟩ = t ∧ m'[buf + t.length]? = some 0 := by
  refine ⟨?_, by rw [hwrote.inside _ (by simp), List.getElem?_append_right (le_refl _)]; simp⟩
  refine List.ext_getElem? fun i ↦ ?_
  rw [Call.text, List.getElem?_take]
  split
  · next hi =>
    have hinside : i < (t ++ [0]).length := by
      rw [List.length_append]
      exact Nat.lt_add_right _ hi
    rw [List.getElem?_drop, hwrote.inside i hinside, List.getElem?_append_left hi]
  · next hi => rw [List.getElem?_eq_none (Nat.le_of_not_lt hi)]

theorem getLines_splits {atEnd : Recv} (hend : atEnd.Ends) {buf n : ℕ} {m : Bytes} {s : Bytes}
    {fuel : ℕ} (hroom : buf + (n + 1) < m.length) (hfuel : s.length < fuel) :
    ∃ calls m', getLines (streamRecv atEnd) buf ((n + 1 : ℕ) + 1) fuel m s = .ok (calls, m', []) ∧
      Splits (n + 1) s (calls.map (Call.text buf)) ∧
      ∀ k ∈ calls, (k.text buf).length = k.result ∧ 0 < k.result ∧
        k.memory[buf + k.result]? = some 0 := by
  induction fuel generalizing m s with
  | zero => exact absurd hfuel (Nat.not_lt_zero _)
  | succ fuel ih =>
    obtain ⟨m₁, hm₁, hwrote⟩ := getLine_stream hend s hroom
    rw [getLines, hm₁]
    simp only [Checked.ok_bind]
    by_cases hs : s = []
    · subst hs
      exact ⟨[], m₁, rfl, Splits.nil, fun k hk ↦ absurd hk List.not_mem_nil⟩
    · have hpos : 0 < (takeLine (n + 1) s).1.length :=
        List.length_pos_of_ne_nil (takeLine_succ_ne_nil hs)
      have hlen := length_takeLine_le (n + 1) s
      obtain ⟨htext, hnul⟩ := text_of_wrote hwrote
      -- each call takes at least one byte, so the fuel lasts
      have hshort := length_takeLine_snd_lt (n := n) hs
      obtain ⟨calls, m', hcalls, hsplits, hall⟩ :=
        ih (m := m₁) (s := (takeLine (n + 1) s).2) (by rw [hwrote.length_eq]; exact hroom)
          (by omega)
      refine ⟨⟨(takeLine (n + 1) s).1.length, m₁⟩ :: calls, m', ?_, ?_, ?_⟩
      · rw [if_neg hpos.ne', hcalls]
        rfl
      · rw [List.map_cons, htext]
        exact Splits.cons hs hsplits
      · intro k hk
        rcases List.mem_cons.mp hk with rfl | hk
        · exact ⟨by rw [htext], hpos, hnul⟩
        · exact hall k hk

/-- **`get_line` splits any stream into lines without loss or duplication.** Called until it
returns `0`, with room for at least one byte, it uses the stream up; the texts concatenate to the
stream with every CRLF and every lone CR turned into LF, each fits the buffer and is terminated at
the returned index, LF is at most its last byte, and only a text that fills the buffer or is the
last one may lack it. -/
theorem getLines_splits_stream {atEnd : Recv} (hend : atEnd.Ends) {size : ℤ} (hsize : 2 ≤ size)
    {m : Bytes} {buf : ℕ} (hbuf : buf + size.toNat ≤ m.length) {s : Bytes} {fuel : ℕ}
    (hfuel : s.length < fuel) :
    ∃ calls m', getLines (streamRecv atEnd) buf size fuel m s = .ok (calls, m', []) ∧
      (calls.map (Call.text buf)).flatten = normalize s ∧
      (∀ k ∈ calls, (k.text buf).length = k.result ∧ 0 < k.result ∧ (k.result : ℤ) ≤ size - 1 ∧
        k.memory[buf + k.result]? = some 0 ∧ lf ∉ (k.text buf).dropLast) ∧
      ∀ pre k post, calls = pre ++ k :: post → (k.text buf).getLast? ≠ some lf →
        (k.result : ℤ) = size - 1 ∨ post = [] := by
  obtain ⟨n, rfl⟩ : ∃ n : ℕ, size = (n + 1 : ℕ) + 1 := ⟨(size - 2).toNat, by omega⟩
  obtain ⟨calls, m', hcalls, hsplits, hall⟩ :=
    getLines_splits hend (show buf + (n + 1) < m.length by omega) hfuel
  refine ⟨calls, m', hcalls, hsplits.flatten_eq, ?_, ?_⟩
  · intro k hk
    obtain ⟨hlen, hpos, hnul⟩ := hall k hk
    obtain ⟨hle, hlf⟩ := hsplits.bounded _ (List.mem_map_of_mem hk)
    exact ⟨hlen, hpos, by omega, hnul, hlf⟩
  · rintro pre k post rfl hlf
    have hk := (hall k (by simp)).1
    have hmap : (pre ++ k :: post).map (Call.text buf) =
        pre.map (Call.text buf) ++ k.text buf :: post.map (Call.text buf) := by
      rw [List.map_append, List.map_cons]
    rcases hsplits.complete hmap hlf with hfull | hlast
    · exact Or.inl (by omega)
    · exact Or.inr (List.map_eq_nil_iff.mp hlast)

/-- A lone CR, a CRLF that the buffer size cuts off, and a CR at the end of the stream. -/
theorem getLines_splits_stream_crlf :
    ∃ calls m', getLines (streamRecv .closed) 1 3 8 (List.replicate 5 7) (ascii "a\r\n\rbc\r") =
        .ok (calls, m', []) ∧
      (calls.map (Call.text 1)).flatten = ascii "a\n\nbc\n" ∧
      (∀ k ∈ calls, (k.text 1).length = k.result ∧ 0 < k.result ∧ (k.result : ℤ) ≤ 3 - 1 ∧
        k.memory[1 + k.result]? = some 0 ∧ lf ∉ (k.text 1).dropLast) ∧
      ∀ pre k post, calls = pre ++ k :: post → (k.text 1).getLast? ≠ some lf →
        (k.result : ℤ) = 3 - 1 ∨ post = [] :=
  getLines_splits_stream Recv.ends_closed (by decide) (by decide) (by decide)

end Pub

end CodeOnLinux
