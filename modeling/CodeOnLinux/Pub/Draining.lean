import CodeOnLinux.Pub.GetLine

/-!
# Reading a socket until it has nothing more

A socket that is watched for edges has to be read until `recv` brings nothing, or what is left on it
is not reported again. Both `epoll` servers read in lines: a first `get_line`, and then one after
the other until an empty line is returned (`readingPhase`).

That this comes to an end, on a `recv` that may bring nothing at any call, also between the two
calls that `get_line` makes behind a CR, needs a measure only: each byte that is taken leaves fewer
to come (`Drains`). Then every call stays inside its buffer (`getLine_drains`), and the last `recv`
of the phase brought nothing (`readingPhase_drains`). A `Socket` that brings finitely many bytes,
with failures wherever a script has them, is such a connection.
-/

namespace CodeOnLinux

namespace Pub

open Memory Lines

variable {σ : Type}

/-! ## The phase -/

/-- The calls of the loop `while (get_line(connfd, buffer, size) > 0)`, each with the buffer set to
zero before, the last one included. -/
def lineCalls (recv : Bool → σ → Recv × σ) (size : ℕ) : ℕ → σ → Checked (List Call × σ)
  | 0, _ => .error .outOfFuel
  | fuel + 1, s => do
    let (n, m, s) ← getLine recv (List.replicate size 0) 0 size s
    if n ≤ 0 then return ([⟨n, m⟩], s)
    else
      let (calls, s) ← lineCalls recv size fuel s
      return (⟨n, m⟩ :: calls, s)

/-- The same loop, without a record of its calls. -/
def dropLines (recv : Bool → σ → Recv × σ) (size : ℕ) : ℕ → σ → Checked σ
  | 0, _ => .error .outOfFuel
  | fuel + 1, s => do
    let (ret, _, s) ← getLine recv (List.replicate size 0) 0 size s
    if ret ≤ 0 then return s else dropLines recv size fuel s

theorem dropLines_eq (recv : Bool → σ → Recv × σ) (size fuel : ℕ) (s : σ) :
    dropLines recv size fuel s = (lineCalls recv size fuel s).map Prod.snd := by
  induction fuel generalizing s with
  | zero => rfl
  | succ fuel ih =>
    rw [dropLines, lineCalls]
    cases getLine recv (List.replicate size 0) 0 size s with
    | error e => rfl
    | ok r =>
      obtain ⟨n, m, s⟩ := r
      simp only [Checked.ok_bind]
      by_cases hn : n ≤ 0
      · rw [if_pos hn, if_pos hn]
        rfl
      · rw [if_neg hn, if_neg hn, ih]
        cases lineCalls recv size fuel s <;> rfl

/-- The loop uses a connection through its `recv` only. -/
theorem dropLines_map {ω : Type} {recv : Bool → σ → Recv × σ} {recv' : Bool → ω → Recv × ω}
    {f : σ → ω} (hf : ∀ peek s, recv' peek (f s) = Prod.map id f (recv peek s)) (size fuel : ℕ)
    (s : σ) : dropLines recv' size fuel (f s) = (dropLines recv size fuel s).map f := by
  induction fuel generalizing s with
  | zero => rfl
  | succ fuel ih =>
    rw [dropLines, dropLines, getLine_map hf]
    cases getLine recv (List.replicate size 0) 0 size s with
    | error e => rfl
    | ok r =>
      obtain ⟨ret, m, s⟩ := r
      simp only [Except.map, Checked.ok_bind, Prod.map, id]
      split
      · rfl
      · exact ih s

/-- On a stream the loop drops everything. -/
theorem dropLines_stream {atEnd : Recv} (hend : atEnd.Ends) {n fuel : ℕ} {s : Bytes}
    (hfuel : s.length < fuel) : dropLines (streamRecv atEnd) (n + 2) fuel s = .ok [] := by
  induction fuel generalizing s with
  | zero => exact absurd hfuel (Nat.not_lt_zero _)
  | succ fuel ih =>
    have hroom : 0 + (n + 1) < (List.replicate (n + 2) (0 : UInt8)).length := by
      rw [List.length_replicate]
      omega
    obtain ⟨m, hm, -⟩ := getLine_stream hend s hroom
    rw [dropLines, show ((n + 2 : ℕ) : ℤ) = (n + 1 : ℕ) + 1 from rfl, hm]
    simp only [Checked.ok_bind]
    by_cases hs : s = []
    · subst hs
      rfl
    · have hpos : 0 < (takeLine (n + 1) s).1.length :=
        List.length_pos_of_ne_nil (takeLine_succ_ne_nil hs)
      have hshort : (takeLine (n + 1) s).2.length < s.length := length_takeLine_snd_lt hs
      rw [if_neg (Nat.not_le.mpr hpos)]
      exact ih (by omega)

/-- One line into the buffer `line`, and lines until an empty one. -/
def readingPhase (recv : Bool → σ → Recv × σ) (size fuel : ℕ) (line : Bytes) (s : σ) :
    Checked (Call × List Call × σ) := do
  let (n, line, s) ← getLine recv line 0 size s
  let (calls, s) ← lineCalls recv size fuel s
  return (⟨n, line⟩, calls, s)

theorem readingPhase_eq_ok {recv : Bool → σ → Recv × σ} {size fuel : ℕ} {line : Bytes} {s s' : σ}
    {first : Call} {calls : List Call}
    (h : readingPhase recv size fuel line s = .ok (first, calls, s')) :
    ∃ s₁, getLine recv line 0 size s = .ok (first.result, first.memory, s₁) ∧
      dropLines recv size fuel s₁ = .ok s' := by
  obtain ⟨⟨n, m, s₁⟩, hcall, h⟩ := Checked.bind_eq_ok.mp h
  obtain ⟨⟨calls', s₂⟩, hcalls, h⟩ := Checked.bind_eq_ok.mp h
  have heq : (⟨n, m⟩, calls', s₂) = (first, calls, s') := Except.ok.inj h
  simp only [Prod.mk.injEq] at heq
  obtain ⟨rfl, rfl, rfl⟩ := heq
  exact ⟨s₁, hcall, by rw [dropLines_eq, hcalls]; rfl⟩

/-- A call that stored a text and a NUL behind it into the block `m` and nothing else; LF stands in
the text at most as its last byte. -/
structure Call.Within (m : Bytes) (c : Call) : Prop where
  /-- The text fits with its NUL. -/
  result_lt : c.result < m.length
  /-- Only the text and the NUL were stored. -/
  wrote : Wrote m c.memory 0 (c.text 0 ++ [0])
  /-- The result is the length of the text. -/
  length_text : (c.text 0).length = c.result
  /-- There is a NUL behind it. -/
  terminated : c.memory[c.result]? = some 0
  /-- LF stands in it at most as its last byte. -/
  lf_notMem : lf ∉ (c.text 0).dropLast

/-- What `%s` of `scanf` is given after the call. -/
theorem Call.Within.readStr_eq {m : Bytes} {c : Call} (h : c.Within m) :
    readStr c.memory 0 = .ok (cString (c.text 0)) := by
  obtain ⟨tail, htail⟩ := h.wrote.eq_append
  rw [htail, List.append_assoc, List.singleton_append, readStr_append]

/-! ## Connections that drain -/

/-- `left` bounds what `recv` can still bring on a connection, and `last` is the outcome of the
last call. -/
structure Drains (recv : Bool → σ → Recv × σ) (left : σ → ℕ) (last : σ → Option Recv) :
    Prop where
  /-- No call makes more to come. -/
  le : ∀ peek s, left (recv peek s).2 ≤ left s
  /-- Taking a byte leaves less. -/
  lt : ∀ s b, (recv false s).1 = .got b → left (recv false s).2 < left s
  /-- The outcome is recorded. -/
  last_eq : ∀ peek s, last (recv peek s).2 = some (recv peek s).1

section

variable {recv : Bool → σ → Recv × σ} {left : σ → ℕ} {last : σ → Option Recv}

/-- Whatever the two calls behind a CR bring, nothing comes to what is left. -/
theorem Drains.afterReturn_le (h : Drains recv left last) (s : σ) :
    left (afterReturn recv s).2 ≤ left s := by
  have hpeek := h.le true s
  rw [afterReturn]
  rcases hrecv : recv true s with ⟨r, s₁⟩
  rw [hrecv] at hpeek
  cases r with
  | got c =>
    by_cases hc : c = lf
    · have htake := (h.le false s₁).trans hpeek
      simp only [if_pos hc]
      rcases hrecv' : recv false s₁ with ⟨r, s₂⟩
      rw [hrecv'] at htake
      cases r <;> exact htake
    · simp only [if_neg hc]
      exact hpeek
  | closed => exact hpeek
  | failed => exact hpeek

theorem getLineLoop_drains (h : Drains recv left last) {buf room : ℕ} {m : Bytes} {i : ℕ}
    {c : UInt8} (hc : c ≠ lf) (s : σ) (hroom : buf + i + room ≤ m.length) :
    ∃ t m' s', getLineLoop recv buf room m i c s = .ok (i + t.length, m', s') ∧
      Wrote m m' (buf + i) t ∧ t.length ≤ room ∧ lf ∉ t.dropLast ∧
      left s' + t.length ≤ left s ∧ (t = [] → 0 < room → ∃ r ∈ last s', r.Ends) := by
  induction room generalizing m i c s with
  | zero =>
    exact ⟨[], m, s, rfl, Wrote.refl _ _, le_refl 0, List.not_mem_nil, le_refl _,
      fun _ hpos ↦ absurd hpos (lt_irrefl 0)⟩
  | succ room ih =>
    have hlast := h.last_eq false s
    have hle := h.le false s
    have hlt := h.lt s
    rcases hrecv : recv false s with ⟨r, s₁⟩
    rw [hrecv] at hlast hle hlt
    -- nothing is brought: the source sets `c` to LF and the loop ends
    have hmiss : r.Ends → ∃ t m' s', getLineLoop recv buf (room + 1) m i c s =
        .ok (i + t.length, m', s') ∧ Wrote m m' (buf + i) t ∧ t.length ≤ room + 1 ∧
        lf ∉ t.dropLast ∧ left s' + t.length ≤ left s ∧
        (t = [] → 0 < room + 1 → ∃ r ∈ last s', r.Ends) := by
      intro hends
      exact ⟨[], m, s₁, getLineLoop_of_ends hc hrecv hends room, Wrote.refl _ _, Nat.zero_le _,
        List.not_mem_nil, hle, fun _ _ ↦ ⟨r, hlast, hends⟩⟩
    cases r with
    | closed => exact hmiss Recv.ends_closed
    | failed => exact hmiss Recv.ends_failed
    | got b =>
      have hleft : left s₁ < left s := hlt b rfl
      obtain ⟨c', s₂, hnext, hleft'⟩ : ∃ c' s₂,
          (if b = cr then afterReturn recv s₁ else (b, s₁)) = (c', s₂) ∧ left s₂ < left s := by
        by_cases hb : b = cr
        · exact ⟨_, _, if_pos hb, (h.afterReturn_le s₁).trans_lt hleft⟩
        · exact ⟨b, s₁, if_neg hb, hleft⟩
      have hcell : buf + i < m.length := by omega
      rw [getLineLoop_of_got hc hrecv hnext hcell]
      by_cases hlf : c' = lf
      · subst hlf
        refine ⟨[lf], m.set (buf + i) lf, s₂, getLineLoop_lf _ _ _ _ _ _, wrote_set hcell lf,
          Nat.succ_le_succ (Nat.zero_le _), List.not_mem_nil, hleft', ?_⟩
        exact fun hnil ↦ absurd hnil (List.cons_ne_nil _ _)
      · obtain ⟨t, m', s', hloop, hwrote, hlen, hlfree, hused, -⟩ := ih (m := m.set (buf + i) c')
          (i := i + 1) hlf s₂ (by rw [List.length_set]; omega)
        refine ⟨c' :: t, m', s', ?_, (wrote_set hcell c').append hwrote, Nat.succ_le_succ hlen, ?_,
          ?_, fun hnil ↦ absurd hnil (List.cons_ne_nil _ _)⟩
        · rw [hloop, List.length_cons, Nat.add_assoc, Nat.add_comm 1]
        · cases t with
          | nil => exact List.not_mem_nil
          | cons a t =>
            rw [List.dropLast_cons_cons, List.mem_cons, not_or]
            exact ⟨Ne.symm hlf, hlfree⟩
        · rw [List.length_cons]
          omega

/-- **One call of `get_line`**, whatever `recv` brings: it stays inside its buffer, and takes a byte
at least for each one it stores; where it returns `0`, the last `recv` brought nothing. -/
theorem getLine_drains (h : Drains recv left last) {m : Bytes} {size : ℕ} (hsize : 2 ≤ size)
    (hm : m.length = size) (s : σ) :
    ∃ n m' s', getLine recv m 0 size s = .ok (n, m', s') ∧ Call.Within m ⟨n, m'⟩ ∧
      left s' + n ≤ left s ∧ (n = 0 → ∃ r ∈ last s', r.Ends) := by
  have hc : (0 : UInt8) ≠ lf := by decide
  have hroom : 0 + 0 + (size - 1) ≤ m.length := by omega
  obtain ⟨t, m₁, s', hloop, hwrote, hlen, hlf, hused, hlast⟩ := getLineLoop_drains h hc s hroom
  rw [Nat.zero_add] at hloop
  have hcell : t.length < m₁.length := by
    rw [hwrote.length_eq]
    omega
  have hstored : Wrote m (m₁.set t.length 0) 0 (t ++ [0]) := by
    refine hwrote.append ?_
    rw [Nat.zero_add]
    exact wrote_set hcell 0
  obtain ⟨htext, hnul⟩ := text_of_wrote hstored
  rw [Nat.zero_add] at hnul
  refine ⟨t.length, m₁.set t.length 0, s', ?_, ⟨?_, ?_, ?_, hnul, ?_⟩, hused, ?_⟩
  · have hnat : ((size : ℤ) - 1).toNat = size - 1 := by omega
    rw [getLine, hnat, hloop]
    simp only [Checked.ok_bind, Nat.zero_add, store_ok hcell]
    rfl
  · show t.length < m.length
    omega
  · rw [htext]
    exact hstored
  · rw [htext]
  · rw [htext]
    exact hlf
  · intro hnil
    exact hlast (List.length_eq_zero_iff.mp hnil) (by omega)

/-- **The loop ends**, after at most one call for each byte and one more. -/
theorem lineCalls_drains (h : Drains recv left last) {size : ℕ} (hsize : 2 ≤ size) {fuel : ℕ}
    {s : σ} (hfuel : left s < fuel) :
    ∃ calls s', lineCalls recv size fuel s = .ok (calls, s') ∧
      (∀ c ∈ calls, c.Within (List.replicate size 0)) ∧ ∃ r ∈ last s', r.Ends := by
  induction fuel generalizing s with
  | zero => exact absurd hfuel (Nat.not_lt_zero _)
  | succ fuel ih =>
    obtain ⟨n, m, s₁, hcall, hwithin, hused, hlast⟩ :=
      getLine_drains h hsize (List.length_replicate (n := size) (a := (0 : UInt8))) s
    rw [lineCalls, hcall]
    simp only [Checked.ok_bind]
    by_cases hn : n ≤ 0
    · refine ⟨[⟨n, m⟩], s₁, if_pos hn, ?_, hlast (Nat.le_zero.mp hn)⟩
      intro c hc
      exact List.mem_singleton.mp hc ▸ hwithin
    · obtain ⟨calls, s', hcalls, hall, hend⟩ := ih (s := s₁) (by omega)
      refine ⟨⟨n, m⟩ :: calls, s', ?_, ?_, hend⟩
      · rw [if_neg hn, hcalls]
        rfl
      · intro c hc
        rcases List.mem_cons.mp hc with rfl | hc
        · exact hwithin
        · exact hall c hc

/-- **The reading phase** reads until `recv` brings nothing. -/
theorem readingPhase_drains (h : Drains recv left last) {size : ℕ} (hsize : 2 ≤ size) {fuel : ℕ}
    {line : Bytes} (hline : line.length = size) {s : σ} (hfuel : left s < fuel) :
    ∃ first calls s', readingPhase recv size fuel line s = .ok (first, calls, s') ∧
      first.Within line ∧ (∀ c ∈ calls, c.Within (List.replicate size 0)) ∧
      ∃ r ∈ last s', r.Ends := by
  obtain ⟨n, m, s₁, hcall, hwithin, hused, -⟩ := getLine_drains h hsize hline s
  have hleft : left s₁ < fuel := by omega
  obtain ⟨calls, s', hcalls, hall, hend⟩ := lineCalls_drains h hsize hleft
  refine ⟨⟨n, m⟩, calls, s', ?_, hwithin, hall, hend⟩
  rw [readingPhase, hcall]
  simp only [Checked.ok_bind, hcalls]
  rfl

end

/-! ## Sockets with a script -/

/-- What a call of `recv` finds: the next byte, if there is one, the end of the stream, or an
error. -/
inductive Outcome
  | ready
  | closed
  | failed

/-- A socket that keeps a record. -/
structure Socket where
  /-- The bytes still to come. -/
  input : Bytes
  /-- The outcomes of the calls so far, the latest first. -/
  log : List Recv

/-- The `n`-th call finds `script n`; without a byte to bring it fails. -/
def Socket.outcome (script : ℕ → Outcome) (s : Socket) : Recv :=
  match script s.log.length with
  | .ready =>
    match s.input with
    | [] => .failed
    | b :: _ => .got b
  | .closed => .closed
  | .failed => .failed

/-- A byte that is not only peeked at is taken. -/
def Socket.recv (script : ℕ → Outcome) (peek : Bool) (s : Socket) : Recv × Socket :=
  let r := s.outcome script
  let input := match r with
    | .got _ => if peek then s.input else s.input.drop 1
    | _ => s.input
  (r, ⟨input, r :: s.log⟩)

theorem Socket.drains (script : ℕ → Outcome) :
    Drains (Socket.recv script) (fun s ↦ s.input.length) (fun s ↦ s.log.head?) where
  le peek s := by
    rw [Socket.recv]
    cases s.outcome script with
    | got b => cases peek <;> simp
    | closed => exact le_refl _
    | failed => exact le_refl _
  lt s b hgot := by
    have hb : s.outcome script = .got b := hgot
    have hne : s.input ≠ [] := by
      intro hnil
      rw [Socket.outcome, hnil] at hb
      split at hb <;> cases hb
    have hpos := List.length_pos_of_ne_nil hne
    simp only [Socket.recv, hb, Bool.false_eq_true, if_false, List.length_drop]
    omega
  last_eq _ _ := rfl

end Pub

end CodeOnLinux
