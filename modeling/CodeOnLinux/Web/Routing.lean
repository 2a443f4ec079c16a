import CodeOnLinux.LibeventServer.Reading

/-!
# The two web servers side by side: which path they look up

Both servers take a request line apart in the same way and then decide on their own what to look up.
`01_webserver` refuses a method that does not start with `GET`, and takes `./` for a URL that
decodes to `/`; `02_Libevent_Server` notices the method but goes on, and takes `./` where nothing is
behind the first byte of the URL.

So they route alike where the method starts with `GET` and the URL either has something behind its
first byte or has a slash there (`routedAlike_iff`).
-/

namespace CodeOnLinux

namespace Web

open Pub Stdio
open WebServer (tokens wordsWithin_of_tokens cString_cons_of_ne cString_zero_cons)

/-- Both servers refuse the line or both look up the same path, whatever is on their stacks. The
lines may differ in white space: `get_line` leaves the LF, `evbuffer_readln` does not. The libevent
server has no way to refuse. -/
def RoutedAlike (line line' : Bytes) : Prop :=
  ∀ (stack : WebServer.Stack) (stack' : LibeventServer.Stack), ∃ d : Option Bytes,
    WebServer.lookup line stack.words = .ok d ∧
      (LibeventServer.lookup line' stack'.words).map some = .ok d

theorem cString_eq_nil_iff (s : Bytes) : cString s = [] ↔ s.getD 0 0 = 0 := by
  cases s with
  | nil => exact iff_of_true rfl rfl
  | cons b s =>
    by_cases hb : b = 0
    · subst hb
      exact iff_of_true (cString_zero_cons s) rfl
    · rw [cString_cons_of_ne hb]
      exact iff_of_false (List.cons_ne_nil _ _) hb

/-- Only a slash with nothing behind it is the root for `01_webserver`. -/
theorem cString_eq_slash_iff (d : Bytes) :
    cString d = ascii "/" ↔ d.head? = some (byte '/') ∧ d.getD 1 0 = 0 := by
  have hslash : ascii "/" = [byte '/'] := rfl
  cases d with
  | nil => exact iff_of_false (List.cons_ne_nil _ _).symm fun h ↦ nomatch h.1
  | cons b d =>
    have hsecond : (b :: d).getD 1 0 = d.getD 0 0 := rfl
    rw [List.head?_cons, Option.some_inj, hslash, hsecond, ← cString_eq_nil_iff]
    by_cases hb : b = 0
    · subst hb
      exact iff_of_false (List.cons_ne_nil _ _).symm fun h ↦ absurd h.1 (by decide)
    · rw [cString_cons_of_ne hb, List.cons.injEq]

/-- **The paths**, compared for a URL that both servers look up. -/
theorem target_eq_iff (url : Bytes) : WebServer.target url = LibeventServer.target url ↔
    (urlEscaping.decode url).getD 1 0 ≠ 0 ∨
      (urlEscaping.decode url).head? = some (byte '/') := by
  rw [WebServer.target, LibeventServer.target]
  generalize urlEscaping.decode url = d
  by_cases hnul : d.getD 1 0 = 0
  · rw [if_pos hnul]
    by_cases hhead : d.head? = some (byte '/')
    · rw [if_pos ((cString_eq_slash_iff d).mpr ⟨hhead, hnul⟩)]
      exact iff_of_true rfl (Or.inr hhead)
    · -- `01_webserver` looks up the empty path
      have hempty : cString (d.drop 1) = [] := by
        rw [cString_eq_nil_iff, List.getD_eq_getElem?_getD, List.getElem?_drop,
          ← List.getD_eq_getElem?_getD]
        exact hnul
      rw [if_neg fun h ↦ hhead ((cString_eq_slash_iff d).mp h).1, hempty]
      exact iff_of_false (by decide) (not_or.mpr ⟨not_not.mpr hnul, hhead⟩)
  · rw [if_neg hnul, if_neg fun h ↦ hnul ((cString_eq_slash_iff d).mp h).2]
    exact iff_of_true rfl (Or.inl hnul)

section

variable {line line' method url version : Bytes}

theorem webServer_lookup (hline : tokens (cString line) = some (method, url, version))
    (hmethod : method.length < 32) (hurl : url.length < 512) (hversion : version.length < 32)
    (stack : WebServer.Stack) : WebServer.lookup line stack.words =
      .ok (if method.take 3 = ascii "GET" then some (WebServer.target url) else none) := by
  have hwide : url.length < 1024 := by omega
  exact WebServer.lookup_eq (wordsWithin_of_tokens hline hmethod hwide hversion) stack

theorem libeventServer_lookup (hline : tokens (cString line) = some (method, url, version))
    (hmethod : method.length < 32) (hurl : url.length < 512) (hversion : version.length < 32)
    (stack : LibeventServer.Stack) :
    LibeventServer.lookup line stack.words = .ok (LibeventServer.target url) :=
  LibeventServer.lookup_eq (wordsWithin_of_tokens hline hmethod hurl hversion) stack

/-- **Routing alike**, exactly, for words that fit the arrays of both servers. -/
theorem routedAlike_iff (hline : tokens (cString line) = some (method, url, version))
    (hline' : tokens (cString line') = some (method, url, version))
    (hmethod : method.length < 32) (hurl : url.length < 512) (hversion : version.length < 32) :
    RoutedAlike line line' ↔
      method.take 3 = ascii "GET" ∧ ((urlEscaping.decode url).getD 1 0 ≠ 0 ∨
        (urlEscaping.decode url).head? = some (byte '/')) := by
  have hdecisions : RoutedAlike line line' ↔
      (if method.take 3 = ascii "GET" then some (WebServer.target url) else none) =
        some (LibeventServer.target url) := by
    constructor
    · intro h
      obtain ⟨d, hd, hd'⟩ := h .ones .ones
      rw [webServer_lookup hline hmethod hurl hversion] at hd
      rw [libeventServer_lookup hline' hmethod hurl hversion] at hd'
      exact (Except.ok.inj hd).trans (Except.ok.inj hd').symm
    · intro h stack stack'
      rw [webServer_lookup hline hmethod hurl hversion,
        libeventServer_lookup hline' hmethod hurl hversion]
      exact ⟨_, congrArg Except.ok h, rfl⟩
  rw [hdecisions, Option.ite_none_right_eq_some, ← target_eq_iff, Option.some_inj]

end

/-- `GET` for a file below a directory is routed alike. -/
theorem routedAlike_file :
    RoutedAlike (ascii "GET /doc/a%20b HTTP/1.1\n") (ascii "GET /doc/a%20b HTTP/1.1") := by
  have hline : tokens (cString (ascii "GET /doc/a%20b HTTP/1.1\n")) =
      some (ascii "GET", ascii "/doc/a%20b", ascii "HTTP/1.1") := by decide +kernel
  have hline' : tokens (cString (ascii "GET /doc/a%20b HTTP/1.1")) =
      some (ascii "GET", ascii "/doc/a%20b", ascii "HTTP/1.1") := by decide +kernel
  exact (routedAlike_iff hline hline' (by decide) (by decide) (by decide)).mpr (by decide +kernel)

/-- The libevent server answers a `POST`. -/
theorem not_routedAlike : ¬∀ line line' method url version : Bytes,
    tokens (cString line) = some (method, url, version) →
    tokens (cString line') = some (method, url, version) → method.length < 32 →
    url.length < 512 → version.length < 32 → RoutedAlike line line' := by
  intro h
  have hline : tokens (cString (ascii "POST / HTTP/1.1")) =
      some (ascii "POST", ascii "/", ascii "HTTP/1.1") := by decide +kernel
  have hmethod : (ascii "POST").length < 32 := by decide
  have hurl : (ascii "/").length < 512 := by decide
  have hversion : (ascii "HTTP/1.1").length < 32 := by decide
  obtain ⟨d, hd, hd'⟩ := h _ _ _ _ _ hline hline hmethod hurl hversion .ones .ones
  rw [webServer_lookup hline hmethod hurl hversion, if_neg (by decide)] at hd
  rw [libeventServer_lookup hline hmethod hurl hversion, ← Except.ok.inj hd] at hd'
  exact absurd (Except.ok.inj hd') (Option.some_ne_none _)

end Web

end CodeOnLinux
