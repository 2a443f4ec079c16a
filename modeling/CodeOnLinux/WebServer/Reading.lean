import CodeOnLinux.WebServer.Words
import CodeOnLinux.Pub.Draining

/-!
# What `http_request` makes of the bytes that have arrived

The first `get_line` takes one line, or whatever has arrived of it; the loop behind it drops the
rest. So a call decides by the line at the front of the bytes it finds and by its stack
(`httpRequest_eq`): `requestLine` gives the words it needs, if they are there and fit their arrays,
and `target` the path that is looked up, whatever is on the stack (`lookup_eq`).

Where `requestLine` gives nothing, some array is read or written as it should not be, and what
happens depends on what was on the stack (`lookup_of_none`).
-/

namespace CodeOnLinux

namespace WebServer

open Memory Stdio Pub Lines

/-! ## The header loop -/

theorem headerLoop_eq {σ : Type} (recv : Bool → σ → Recv × σ) (fuel : ℕ) (s : σ) :
    headerLoop recv fuel s = dropLines recv maxSize fuel s := by
  induction fuel generalizing s with
  | zero => rfl
  | succ fuel ih => simp only [headerLoop, dropLines, ih]

theorem headerLoop_map {σ ω : Type} {recv : Bool → σ → Recv × σ} {recv' : Bool → ω → Recv × ω}
    {f : σ → ω} (hf : ∀ peek s, recv' peek (f s) = Prod.map id f (recv peek s)) (fuel : ℕ) (s : σ) :
    headerLoop recv' fuel (f s) = (headerLoop recv fuel s).map f := by
  rw [headerLoop_eq, headerLoop_eq, dropLines_map hf]

/-- The loop drops everything that has arrived. -/
theorem headerLoop_stream {atEnd : Recv} (hend : atEnd.Ends) {fuel : ℕ} {s : Bytes}
    (hfuel : s.length < fuel) : headerLoop (streamRecv atEnd) fuel s = .ok [] := by
  rw [headerLoop_eq]
  exact dropLines_stream hend hfuel

/-! ## The words of a line -/

/-- The method and the URL of a request line whose words are there and fit their arrays. -/
def requestLine (line : Bytes) : Option (Bytes × Bytes) := wordsWithin 1024 line

/-! ## The path -/

/-- The path that is looked up for a URL. -/
def target (url : Bytes) : Bytes :=
  if cString (urlEscaping.decode url) = ascii "/" then ascii "./"
  else cString ((urlEscaping.decode url).drop 1)

theorem cString_cons_of_ne {b : UInt8} (hb : b ≠ 0) (s : Bytes) :
    cString (b :: s) = b :: cString s := by
  rw [cString, List.takeWhile_cons, if_pos (decide_eq_true hb), cString]

theorem cString_zero_cons (s : Bytes) : cString (0 :: s) = [] := rfl

/-- `strcmp(url, "/") == 0` -/
theorem take_two_eq_slash_iff (d tail : Bytes) :
    (d ++ 0 :: tail).take 2 = ascii "/" ++ [0] ↔ cString d = ascii "/" := by
  have hslash : ascii "/" = [byte '/'] := rfl
  have hne : byte '/' ≠ 0 := by decide
  rw [hslash]
  cases d with
  | nil => exact iff_of_false (fun h ↦ hne (List.cons.inj h).1.symm) (List.cons_ne_nil _ _).symm
  | cons b d =>
    by_cases hb : b = 0
    · subst hb
      exact iff_of_false (fun h ↦ hne (List.cons.inj h).1.symm) (List.cons_ne_nil _ _).symm
    · -- behind the first byte the string must end
      rw [cString_cons_of_ne hb, List.cons.injEq, cString_eq_nil_iff, List.cons_append,
        List.take_succ_cons, List.singleton_append, List.cons.injEq]
      refine and_congr_right fun _ ↦ ?_
      cases d <;> simp

theorem route_of_words {a : Words} {method d tail tail' : Bytes}
    (hmethod : a.method = method ++ 0 :: tail) (hurl : a.url = d ++ 0 :: tail') (hd : d ≠ []) :
    route a = .ok (if method.take 3 = ascii "GET" then
      some (if cString d = ascii "/" then ascii "./" else cString (d.drop 1)) else none) := by
  have hget : a.method.take 3 = ascii "GET" ↔ method.take 3 = ascii "GET" := by
    have hzero : 0 ∉ ascii "GET" := by decide
    rw [hmethod]
    exact take_append_zero_eq_iff hzero tail
  by_cases hmeth : method.take 3 = ascii "GET"
  · rw [route, if_neg (not_not.mpr (hget.mpr hmeth)), if_pos hmeth, hurl]
    by_cases hslash : cString d = ascii "/"
    · rw [if_pos ((take_two_eq_slash_iff d tail').mpr hslash), if_pos hslash]
    · rw [if_neg fun h ↦ hslash ((take_two_eq_slash_iff d tail').mp h), if_neg hslash]
      obtain ⟨b, d, rfl⟩ := List.exists_cons_of_ne_nil hd
      have hread : readStr (b :: d ++ 0 :: tail') 1 = readStr (d ++ 0 :: tail') 0 := rfl
      rw [hread, readStr_append]
      rfl
  · rw [route, if_pos (mt hget.mp hmeth), if_neg hmeth]

/-! ## From a line to the path -/

/-- Decoding in place leaves the decoded string in front. -/
theorem strdecode_self {u : Bytes} {s : Bytes} (hs : StrAt u 0 s) :
    ∃ u' tail, strdecode u 0 0 = .ok u' ∧ u' = urlEscaping.decode s ++ 0 :: tail := by
  have hlen := Escaping.length_decode_le (E := urlEscaping) s
  have hlt := hs.lt_length
  have hroom : 0 + (urlEscaping.decode s).length < u.length := by omega
  obtain ⟨u', hu', hwrote⟩ := strdecode_wrote hs hroom (Or.inl (le_refl 0))
  obtain ⟨tail, rfl⟩ := hwrote.eq_append
  exact ⟨_, tail, hu', by rw [List.append_assoc, List.singleton_append]⟩

theorem decode_ne_nil {s : Bytes} (hs : s ≠ []) : urlEscaping.decode s ≠ [] := by
  obtain ⟨b, s, rfl⟩ := List.exists_cons_of_ne_nil hs
  rw [Escaping.decode_cons]
  split <;> exact List.cons_ne_nil _ _

/-- The words of a line, with the URL decoded in place. -/
def readWords (line : Bytes) (a : Words) : Checked Words := do
  let words ← sscanf line a
  let url ← strdecode words.url 0 0
  return { words with url }

/-- What a call looks up for a line: `readRequest` and `route` without the socket. -/
def lookup (line : Bytes) (a : Words) : Checked (Option Bytes) := do
  let words ← readWords (cString line) a
  route words

/-- For a line with the words, the path does not depend on what the arrays held. -/
theorem readWords_route {line method url : Bytes} (hzero : 0 ∉ line)
    (hline : wordsWithin 1024 line = some (method, url)) (stack : Stack) :
    ∃ a, readWords line stack.words = .ok a ∧
      route a = .ok (if method.take 3 = ascii "GET" then some (target url) else none) := by
  obtain ⟨a, ha, hmethod, hurl⟩ := sscanf_of_wordsWithin hline stack.length_method
    stack.length_url stack.length_version
  obtain ⟨hne, hsub⟩ := url_of_wordsWithin hline
  obtain ⟨u, tail, hu, hutail⟩ := strdecode_self (hurl.strAt fun h ↦ hzero (hsub h))
  obtain ⟨tail', hmtail⟩ := hmethod.eq_append
  rw [List.append_assoc, List.singleton_append] at hmtail
  refine ⟨{ a with url := u }, ?_, route_of_words hmtail hutail (decode_ne_nil hne)⟩
  rw [readWords, ha, Checked.ok_bind, hu, Checked.ok_bind, Checked.pure_eq_ok]

theorem lookup_eq {line method url : Bytes}
    (hline : wordsWithin 1024 (cString line) = some (method, url)) (stack : Stack) :
    lookup line stack.words =
      .ok (if method.take 3 = ascii "GET" then some (target url) else none) := by
  obtain ⟨a, ha, hroute⟩ := readWords_route (zero_notMem_cString line) hline stack
  rw [lookup, ha, Checked.ok_bind, hroute]

/-! ## A line without the words -/

/-- A stack that is full of ones: no array holds a NUL. -/
def Stack.ones : Stack where
  str := List.replicate maxSize 1
  words :=
    { method := List.replicate 32 1
      url := List.replicate 1024 1
      version := List.replicate 32 1 }
  length_str := List.length_replicate
  length_method := List.length_replicate
  length_url := List.length_replicate
  length_version := List.length_replicate

/-- In an array without NUL the decoding loop runs out of bounds. -/
theorem strdecode_ones (n : ℕ) : ∃ e, strdecode (List.replicate n 1) 0 0 = .error e := by
  have hloop : ∀ fuel i, ∃ e, strdecodeLoop fuel (List.replicate n 1) i i = .error e := by
    intro fuel
    induction fuel with
    | zero => exact fun i ↦ ⟨_, rfl⟩
    | succ fuel ih =>
      intro i
      by_cases hi : i < n
      · have hcell : (List.replicate n (1 : UInt8))[i]? = some 1 := by simp [hi]
        have hset : (List.replicate n (1 : UInt8)).set i 1 = List.replicate n 1 :=
          List.set_replicate_self
        have hone : (1 : UInt8) ≠ byte '%' := by decide
        have hescape : atEscape (List.replicate n 1) i = .ok false := by
          rw [atEscape, load_ok hcell, Checked.ok_bind, if_neg hone]
          rfl
        rw [strdecodeLoop, load_ok hcell, Checked.ok_bind, if_neg (by decide), hescape,
          Checked.ok_bind, if_neg Bool.false_ne_true, store_ok (by simpa using hi),
          Checked.ok_bind, hset]
        exact ih (i + 1)
      · have hcell : (List.replicate n (1 : UInt8))[i]? = none := by simpa using hi
        refine ⟨.outOfBounds, ?_⟩
        rw [strdecodeLoop, load, hcell]
        rfl
  exact hloop _ 0

/-- Without the words, the decoding overruns an array of ones, if `sscanf` has not overrun one. -/
theorem readWords_of_none {line : Bytes} (hline : wordsWithin 1024 line = none) :
    ∃ e, readWords line Stack.ones.words = .error e := by
  rw [readWords]
  rcases sscanf_of_wordsWithin_none hline Stack.ones.length_method Stack.ones.length_url
    Stack.ones.length_version with ⟨e, he⟩ | ⟨a, ha, hurl⟩
  · exact ⟨e, by rw [he, Checked.error_bind]⟩
  · obtain ⟨e, he⟩ := strdecode_ones 1024
    exact ⟨e, by rw [ha, Checked.ok_bind, hurl, Stack.ones, he, Checked.error_bind]⟩

theorem lookup_of_none {line : Bytes} (hline : wordsWithin 1024 (cString line) = none) :
    ∃ e, lookup line Stack.ones.words = .error e := by
  obtain ⟨e, he⟩ := readWords_of_none hline
  exact ⟨e, by rw [lookup, he, Checked.error_bind]⟩

/-! ## One call's reading phase -/

section

variable {ω : Type} {k : Kernel ω} {connfd : ℤ} {f : Bytes → ω} {atEnd : Recv}

/-- The first line of what has arrived, as the string that `sscanf` reads. -/
def firstLine (s : Bytes) : Bytes := cString (takeLine 4095 s).1

theorem getLine_firstLine (hend : atEnd.Ends) (hf : ∀ peek s, k.recv connfd peek (f s) =
      Prod.map id f (streamRecv atEnd peek s)) (stack : Stack) (s : Bytes) :
    ∃ n str, getLine (k.recv connfd) stack.str 0 maxSize (f s) =
        .ok (n, str, f (takeLine 4095 s).2) ∧ readStr str 0 = .ok (firstLine s) := by
  have hroom : 0 + 4095 < stack.str.length := by
    rw [stack.length_str]
    decide
  obtain ⟨str, hstr, hwrote⟩ := getLine_stream hend s hroom
  obtain ⟨tail, htail⟩ := hwrote.eq_append
  refine ⟨(takeLine 4095 s).1.length, str, ?_, ?_⟩
  · rw [getLine_map hf, show (maxSize : ℤ) = (4095 : ℕ) + 1 from rfl, hstr]
    rfl
  · rw [htail, List.append_assoc, List.singleton_append, readStr_append, firstLine]

/-- **Reading** takes everything that has arrived, and makes of it what the first line says. -/
theorem readRequest_eq (hend : atEnd.Ends) (hf : ∀ peek s, k.recv connfd peek (f s) =
      Prod.map id f (streamRecv atEnd peek s)) {fuel : ℕ} (stack : Stack) {s : Bytes}
    (hfuel : s.length < fuel) : readRequest k fuel connfd stack (f s) =
      (readWords (firstLine s) stack.words).map fun a ↦ (a, f []) := by
  obtain ⟨n, str, hget, hread⟩ := getLine_firstLine hend hf stack s
  have hshort := length_takeLine_snd_le 4095 s
  have hheader : headerLoop (k.recv connfd) fuel (f (takeLine 4095 s).2) = .ok (f []) := by
    rw [headerLoop_map hf, headerLoop_stream hend (by omega)]
    rfl
  rw [readRequest, readWords, hget]
  simp only [Checked.ok_bind, hread]
  cases sscanf (firstLine s) stack.words with
  | error e => rfl
  | ok a =>
    simp only [Checked.ok_bind]
    cases strdecode a.url 0 0 with
    | error e => rfl
    | ok u =>
      simp only [Checked.ok_bind, hheader]
      rfl

/-- **A call** decides by the line at the front of what has arrived, and answers when all of it has
been read. -/
theorem httpRequest_eq (hend : atEnd.Ends) (hf : ∀ peek s, k.recv connfd peek (f s) =
      Prod.map id f (streamRecv atEnd peek s)) {fuel : ℕ} (stack : Stack) {s : Bytes}
    (hfuel : s.length < fuel) : httpRequest k fuel connfd stack (f s) =
      lookup (takeLine 4095 s).1 stack.words >>= fun
        | none => .ok (1, f [])
        | some pfile => respond k fuel connfd pfile (f []) := by
  rw [httpRequest, readRequest_eq hend hf stack hfuel, lookup, firstLine]
  cases readWords (cString (takeLine 4095 s).1) stack.words with
  | error e => rfl
  | ok a =>
    simp only [Except.map, Checked.ok_bind]
    cases route a with
    | error e => rfl
    | ok d =>
      cases d with
      | none => rfl
      | some pfile => rfl

/-- A call that returns has chosen its path by the first line, however much of the rest it has
read. -/
theorem httpRequest_eq_ok (hend : atEnd.Ends) (hf : ∀ peek s, k.recv connfd peek (f s) =
      Prod.map id f (streamRecv atEnd peek s)) {fuel : ℕ} {stack : Stack} {s : Bytes} {r : ℤ}
    {w : ω} (h : httpRequest k fuel connfd stack (f s) = .ok (r, w)) :
    ∃ s' pfile, lookup (takeLine 4095 s).1 stack.words = .ok pfile ∧
      match pfile with
      | none => w = f s'
      | some pfile => respond k fuel connfd pfile (f s') = .ok (r, w) := by
  obtain ⟨n, str, hget, hread⟩ := getLine_firstLine hend hf stack s
  obtain ⟨⟨words, w₁⟩, hrequest, h⟩ := Checked.bind_eq_ok.mp h
  rw [readRequest, hget] at hrequest
  simp only [Checked.ok_bind, hread] at hrequest
  obtain ⟨a, ha, hrequest⟩ := Checked.bind_eq_ok.mp hrequest
  obtain ⟨url, hurl, hrequest⟩ := Checked.bind_eq_ok.mp hrequest
  rw [headerLoop_map hf] at hrequest
  obtain ⟨w₂, hheader, hrequest⟩ := Checked.bind_eq_ok.mp hrequest
  obtain ⟨rfl, rfl⟩ := Prod.mk.inj (Except.ok.inj hrequest)
  obtain ⟨s', -, rfl⟩ : ∃ s', headerLoop (streamRecv atEnd) fuel (takeLine 4095 s).2 = .ok s' ∧
      w₂ = f s' := by
    cases hloop : headerLoop (streamRecv atEnd) fuel (takeLine 4095 s).2 with
    | error e =>
      rw [hloop] at hheader
      cases hheader
    | ok s' =>
      rw [hloop] at hheader
      exact ⟨s', rfl, (Except.ok.inj hheader).symm⟩
  obtain ⟨pfile, hroute, h⟩ := Checked.bind_eq_ok.mp h
  refine ⟨s', pfile, ?_, ?_⟩
  · rw [lookup, readWords, ← firstLine, ha, Checked.ok_bind, hurl]
    exact hroute
  · cases pfile with
    | none => exact (Prod.mk.inj (Except.ok.inj h)).2.symm
    | some pfile => exact h

end

end WebServer

end CodeOnLinux
