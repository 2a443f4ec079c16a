import CodeOnLinux.WebServer.Server

/-!
# The words of a request line

Both web servers take their request line apart with `sscanf(line, "%s %s %s\r\n", ..)`, into arrays
of 32 bytes for the method and the version and an array for the URL that is not of the same size in
both. `sscanf` stores the words it finds, however long they are. `wordsWithin n` gives the method
and the URL, if they are there and what is there fits arrays with `n` bytes for the URL; then the
result is the same whatever the arrays held (`sscanf_of_wordsWithin`). Otherwise an array is overrun
or the URL is what was left on the stack (`sscanf_of_wordsWithin_none`).
-/

namespace CodeOnLinux

namespace WebServer

open Memory Stdio

/-- The method, the URL and the version of a line that has all three. -/
def tokens (line : Bytes) : Option (Bytes × Bytes × Bytes) := do
  let (method, line) ← scanWord line
  let (url, line) ← scanWord line
  let (version, _) ← scanWord line
  return (method, url, version)

/-- The method and the URL of a line whose words fit the arrays; the version may be missing. -/
def wordsWithin (n : ℕ) (line : Bytes) : Option (Bytes × Bytes) :=
  match scanWord line with
  | none => none
  | some (method, line) =>
    match scanWord line with
    | none => none
    | some (url, line) =>
      if method.length < 32 ∧ url.length < n ∧ ∀ r ∈ scanWord line, r.1.length < 32 then
        some (method, url)
      else none

theorem wordsWithin_eq_some {n : ℕ} {line method url : Bytes}
    (h : wordsWithin n line = some (method, url)) :
    ∃ rest rest', scanWord line = some (method, rest) ∧ scanWord rest = some (url, rest') ∧
      method.length < 32 ∧ url.length < n ∧ ∀ r ∈ scanWord rest', r.1.length < 32 := by
  rw [wordsWithin] at h
  split at h
  · cases h
  · next method' rest hmethod =>
    split at h
    · cases h
    · next url' rest' hurl =>
      obtain ⟨hfits, h⟩ := Option.ite_none_right_eq_some.mp h
      obtain ⟨rfl, rfl⟩ := Prod.mk.inj (Option.some_inj.mp h)
      exact ⟨rest, rest', hmethod, hurl, hfits⟩

theorem tokens_eq_some {line method url version : Bytes}
    (h : tokens line = some (method, url, version)) :
    ∃ rest rest' rest'', scanWord line = some (method, rest) ∧ scanWord rest = some (url, rest') ∧
      scanWord rest' = some (version, rest'') := by
  obtain ⟨⟨m, rest⟩, hscan, h⟩ := Option.bind_eq_some_iff.mp h
  obtain ⟨⟨u, rest'⟩, hscan', h⟩ := Option.bind_eq_some_iff.mp h
  obtain ⟨⟨v, rest''⟩, hscan'', h⟩ := Option.bind_eq_some_iff.mp h
  have heq : (m, u, v) = (method, url, version) := Option.some_inj.mp h
  simp only [Prod.mk.injEq] at heq
  obtain ⟨rfl, rfl, rfl⟩ := heq
  exact ⟨rest, rest', rest'', hscan, hscan', hscan''⟩

theorem wordsWithin_of_tokens {n : ℕ} {line method url version : Bytes}
    (h : tokens line = some (method, url, version)) (hmethod : method.length < 32)
    (hurl : url.length < n) (hversion : version.length < 32) :
    wordsWithin n line = some (method, url) := by
  obtain ⟨rest, rest', rest'', hscan, hscan', hscan''⟩ := tokens_eq_some h
  have hfits : ∀ r ∈ scanWord rest', r.1.length < 32 := by
    intro r hr
    obtain rfl := Option.some_inj.mp (hscan''.symm.trans hr)
    exact hversion
  simp only [wordsWithin, hscan, hscan', if_pos (show _ ∧ _ ∧ _ from ⟨hmethod, hurl, hfits⟩)]

/-- The URL is not empty and has no NUL where the line has none. -/
theorem url_of_wordsWithin {n : ℕ} {line method url : Bytes}
    (h : wordsWithin n line = some (method, url)) : url ≠ [] ∧ url ⊆ line := by
  obtain ⟨rest, rest', hscan, hscan', -⟩ := wordsWithin_eq_some h
  obtain ⟨-, -, hrest⟩ := scanWord_eq_some hscan
  obtain ⟨hne, hurl, -⟩ := scanWord_eq_some hscan'
  exact ⟨hne, fun b hb ↦ hrest (hurl hb)⟩

/-! ## Storing them -/

/-- A word that fits is stored with its NUL in front of what the array held. -/
theorem storeAll_word {a word : Bytes} (h : word.length < a.length) :
    ∃ a', storeAll a 0 (word ++ [0]) = .ok a' ∧ Wrote a a' 0 (word ++ [0]) :=
  storeAll_wrote (by rw [List.length_append, List.length_singleton]; omega)

/-- A word that does not fit is written past the end of its array. -/
theorem storeAll_long_word {a word : Bytes} (h : ¬word.length < a.length) :
    ∃ e, storeAll a 0 (word ++ [0]) = .error e :=
  storeAll_error (by rw [List.length_append, List.length_singleton]; omega) (Nat.zero_le _)

theorem sscanf_of_wordsWithin {n : ℕ} {line method url : Bytes} {a : Words}
    (h : wordsWithin n line = some (method, url)) (hmethod : a.method.length = 32)
    (hurl : a.url.length = n) (hversion : a.version.length = 32) :
    ∃ a', sscanf line a = .ok a' ∧ Wrote a.method a'.method 0 (method ++ [0]) ∧
      Wrote a.url a'.url 0 (url ++ [0]) := by
  obtain ⟨rest, rest', hscan, hscan', hlt, hlt', hfits⟩ := wordsWithin_eq_some h
  obtain ⟨m, hm, hwrote⟩ := storeAll_word (hmethod ▸ hlt)
  obtain ⟨u, hu, hwrote'⟩ := storeAll_word (hurl ▸ hlt')
  rw [sscanf, hscan]
  simp only [hm, Checked.ok_bind, hscan', hu]
  cases hscan'' : scanWord rest' with
  | none => exact ⟨_, rfl, hwrote, hwrote'⟩
  | some r =>
    obtain ⟨v, hv, -⟩ := storeAll_word (hversion ▸ hfits r hscan'')
    simp only [hv, Checked.ok_bind]
    exact ⟨_, rfl, hwrote, hwrote'⟩

/-- Without the words, `sscanf` overruns an array or leaves the URL as it was. -/
theorem sscanf_of_wordsWithin_none {n : ℕ} {line : Bytes} {a : Words}
    (h : wordsWithin n line = none) (hmethod : a.method.length = 32) (hurl : a.url.length = n)
    (hversion : a.version.length = 32) :
    (∃ e, sscanf line a = .error e) ∨ ∃ a', sscanf line a = .ok a' ∧ a'.url = a.url := by
  rw [sscanf]
  cases hscan : scanWord line with
  | none => exact Or.inr ⟨a, rfl, rfl⟩
  | some r =>
    obtain ⟨method, rest⟩ := r
    by_cases hlt : method.length < 32
    · obtain ⟨m, hm, -⟩ := storeAll_word (hmethod ▸ hlt)
      simp only [hm, Checked.ok_bind]
      cases hscan' : scanWord rest with
      | none => exact Or.inr ⟨_, rfl, rfl⟩
      | some r =>
        obtain ⟨url, rest'⟩ := r
        by_cases hlt' : url.length < n
        · obtain ⟨u, hu, -⟩ := storeAll_word (hurl ▸ hlt')
          simp only [hu, Checked.ok_bind]
          -- the method and the URL are there, so it is the version that does not fit
          have hlong : ¬∀ r ∈ scanWord rest', r.1.length < 32 := fun hfits ↦ by
            rw [wordsWithin, hscan] at h
            simp only [hscan', if_pos (show _ ∧ _ ∧ _ from ⟨hlt, hlt', hfits⟩)] at h
            cases h
          cases hscan'' : scanWord rest' with
          | none => exact absurd (fun r hr ↦ absurd hr (by rw [hscan'']; simp)) hlong
          | some r =>
            have hr : ¬r.1.length < 32 := fun hr ↦ hlong fun r' hr' ↦ by
              rw [hscan''] at hr'
              exact Option.some_inj.mp hr' ▸ hr
            obtain ⟨e, he⟩ := storeAll_long_word (hversion ▸ hr)
            exact Or.inl ⟨e, by simp only [he, Checked.error_bind]⟩
        · obtain ⟨e, he⟩ := storeAll_long_word (hurl ▸ hlt')
          exact Or.inl ⟨e, by simp only [he, Checked.error_bind]⟩
    · obtain ⟨e, he⟩ := storeAll_long_word (hmethod ▸ hlt)
      exact Or.inl ⟨e, by simp only [he, Checked.error_bind]⟩

/-- A line with all three words, which fit, fills all three arrays. -/
theorem sscanf_of_tokens {line method url version : Bytes} {a : Words}
    (h : tokens line = some (method, url, version)) (hmethod : method.length < a.method.length)
    (hurl : url.length < a.url.length) (hversion : version.length < a.version.length) :
    ∃ a', sscanf line a = .ok a' ∧ Wrote a.method a'.method 0 (method ++ [0]) ∧
      Wrote a.url a'.url 0 (url ++ [0]) ∧ Wrote a.version a'.version 0 (version ++ [0]) := by
  obtain ⟨rest, rest', rest'', hscan, hscan', hscan''⟩ := tokens_eq_some h
  obtain ⟨m, hm, hwrote⟩ := storeAll_word hmethod
  obtain ⟨u, hu, hwrote'⟩ := storeAll_word hurl
  obtain ⟨v, hv, hwrote''⟩ := storeAll_word hversion
  rw [sscanf, hscan]
  simp only [hm, Checked.ok_bind, hscan', hu, hscan'', hv]
  exact ⟨_, rfl, hwrote, hwrote', hwrote''⟩

/-- Where a word is missing, nothing is stored for the version. -/
theorem version_of_tokens_none {line : Bytes} {a a' : Words} (h : tokens line = none)
    (hok : sscanf line a = .ok a') : a'.version = a.version := by
  rw [sscanf] at hok
  cases hscan : scanWord line with
  | none =>
    rw [hscan] at hok
    rw [← Except.ok.inj hok]
  | some r =>
    rw [hscan] at hok
    obtain ⟨method, -, hok⟩ := Checked.bind_eq_ok.mp hok
    cases hscan' : scanWord r.2 with
    | none =>
      rw [hscan'] at hok
      rw [← Except.ok.inj hok]
    | some r' =>
      rw [hscan'] at hok
      obtain ⟨url, -, hok⟩ := Checked.bind_eq_ok.mp hok
      cases hscan'' : scanWord r'.2 with
      | none =>
        rw [hscan''] at hok
        rw [← Except.ok.inj hok]
      | some r'' =>
        simp only [tokens, hscan, hscan', hscan'', Option.bind_eq_bind, Option.bind_some] at h
        cases h

/-! ## Any words and any arrays -/

/-- The words that there are arrays for are shorter than these. -/
def WordsFit (sizes : List ℕ) (line : Bytes) : Prop :=
  ∀ p ∈ (words line).zip sizes, p.1.length < p.2

instance decidableWordsFit (sizes : List ℕ) (line : Bytes) : Decidable (WordsFit sizes line) :=
  List.decidableBAll _ _

theorem wordsFit_of_scanWord (size : ℕ) (sizes : List ℕ) (line : Bytes) :
    WordsFit (size :: sizes) line ↔
      ∀ r ∈ scanWord line, r.1.length < size ∧ WordsFit sizes r.2 := by
  rw [WordsFit, words_of_scanWord]
  cases scanWord line with
  | none => simp
  | some r => simp [WordsFit]

/-- Storing a word, and whatever is done behind that. -/
theorem storeAll_word_bind_iff {β : Type} {a word : Bytes} {f : Bytes → Checked β} {P : Prop}
    (hf : ∀ a', (∃ r, f a' = .ok r) ↔ P) :
    (∃ r, (storeAll a 0 (word ++ [0]) >>= f) = .ok r) ↔ word.length < a.length ∧ P := by
  by_cases hlt : word.length < a.length
  · obtain ⟨a', ha', -⟩ := storeAll_word hlt
    rw [ha', Checked.ok_bind, hf a']
    exact (and_iff_right hlt).symm
  · obtain ⟨e, he⟩ := storeAll_long_word hlt
    rw [he, Checked.error_bind]
    refine iff_of_false ?_ fun h ↦ hlt h.1
    rintro ⟨r, hr⟩
    cases hr

/-- **`sscanf` stays inside the arrays** exactly when its words fit them. -/
theorem sscanf_ok_iff (line : Bytes) (a : Words) :
    (∃ a', sscanf line a = .ok a') ↔
      WordsFit [a.method.length, a.url.length, a.version.length] line := by
  rw [wordsFit_of_scanWord, sscanf]
  cases scanWord line with
  | none => simp
  | some r =>
    obtain ⟨method, rest⟩ := r
    simp only [Option.mem_def, Option.some_inj, forall_eq']
    refine storeAll_word_bind_iff fun m ↦ ?_
    rw [wordsFit_of_scanWord]
    cases scanWord rest with
    | none => simp
    | some r =>
      obtain ⟨url, rest⟩ := r
      simp only [Option.mem_def, Option.some_inj, forall_eq']
      refine storeAll_word_bind_iff fun u ↦ ?_
      rw [wordsFit_of_scanWord]
      cases scanWord rest with
      | none => simp
      | some r =>
        obtain ⟨version, rest⟩ := r
        simp only [Option.mem_def, Option.some_inj, forall_eq']
        refine storeAll_word_bind_iff fun v ↦ ?_
        simp [WordsFit]

end WebServer

end CodeOnLinux
