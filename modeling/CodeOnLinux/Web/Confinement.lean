import CodeOnLinux.Foundation.DirPath
import CodeOnLinux.Web.Routing

/-!
# The two web servers side by side: whether a request can leave the served directory

Both servers change into a directory at the start, and take a URL for a path below it by dropping
its first byte, which is meant to be the slash. Nothing looks at what follows. A second slash makes
the path absolute, and `..` leads up, also where either is spelled `%2f` or `%2e`: the path is taken
after the decoding.

What is looked up stays inside exactly where the decoded text behind the slash does not start with a
slash itself, and none of its initial parts has more components `..` than names
(`lookups_confined_iff`).
-/

namespace CodeOnLinux

namespace Web

open Pub Stdio DirPath
open WebServer (wordsWithin)

/-- The text behind the slash of a URL, decoded, up to a NUL. -/
def behindSlash (url : Bytes) : Bytes := cString (urlEscaping.decode (url.drop 1))

/-- The path is relative and, read component by component, stays below its start. -/
def Inside (path : Bytes) : Prop := Confined (byte '/') (byte '.') path

/-- What `http_request` looks up for the line stays inside, whatever is on the stack. -/
def WebServerConfined (line : Bytes) : Prop :=
  ∀ stack : WebServer.Stack, ∃ d : Option Bytes,
    WebServer.lookup line stack.words = .ok d ∧ ∀ path ∈ d, Inside path

/-- What `bev_read_cb` looks up for the line stays inside, whatever is on the stack. -/
def LibeventServerConfined (line : Bytes) : Prop :=
  ∀ stack : LibeventServer.Stack, ∃ path : Bytes,
    LibeventServer.lookup line stack.words = .ok path ∧ Inside path

/-! ## The path for a URL with a slash in front -/

theorem decode_of_slash {url : Bytes} (h : url.head? = some (byte '/')) :
    urlEscaping.decode url = byte '/' :: urlEscaping.decode (url.drop 1) := by
  obtain ⟨tail, rfl⟩ := List.head?_eq_some_iff.mp h
  have hplain : byte '/' ≠ urlEscaping.mark := by decide
  exact Escaping.decode_cons_of_ne_mark hplain tail

theorem libeventServer_target_of_slash {url : Bytes} (h : url.head? = some (byte '/')) :
    LibeventServer.target url = if behindSlash url = [] then ascii "./" else behindSlash url := by
  rw [LibeventServer.target, decode_of_slash h, behindSlash]
  by_cases hnul : (urlEscaping.decode (url.drop 1)).getD 0 0 = 0
  · rw [if_pos ((cString_eq_nil_iff _).mpr hnul)]
    exact if_pos hnul
  · rw [if_neg (mt (cString_eq_nil_iff _).mp hnul)]
    exact if_neg hnul

theorem webServer_target_of_slash {url : Bytes} (h : url.head? = some (byte '/')) :
    WebServer.target url = LibeventServer.target url := by
  rw [target_eq_iff, decode_of_slash h]
  exact Or.inr rfl

/-- The root is inside, and any other path is the text behind the slash. -/
theorem inside_target_iff {url : Bytes} (h : url.head? = some (byte '/')) :
    Inside (LibeventServer.target url) ↔ (behindSlash url).head? ≠ some (byte '/') ∧
      Covered 0 (steps (byte '/') (byte '.') (behindSlash url)) := by
  rw [← confined_iff, libeventServer_target_of_slash h, Inside]
  by_cases hroot : behindSlash url = []
  · rw [if_pos hroot, hroot]
    exact iff_of_true (by decide) (by decide)
  · rw [if_neg hroot]

/-! ## The lookups of both servers -/

section

variable {line method url : Bytes}

theorem webServerConfined_iff (hline : wordsWithin 1024 (cString line) = some (method, url)) :
    WebServerConfined line ↔ method.take 3 ≠ ascii "GET" ∨ Inside (WebServer.target url) := by
  constructor
  · intro h
    obtain ⟨d, hd, hinside⟩ := h .ones
    rw [WebServer.lookup_eq hline] at hd
    obtain rfl := Except.ok.inj hd
    rw [← imp_iff_not_or]
    intro hget
    exact hinside _ (if_pos hget)
  · intro h stack
    refine ⟨_, WebServer.lookup_eq hline stack, fun path hpath ↦ ?_⟩
    obtain ⟨hget, hpath⟩ := Option.ite_none_right_eq_some.mp hpath
    exact Option.some_inj.mp hpath ▸ h.resolve_left (not_not.mpr hget)

theorem libeventServerConfined_iff (hline : wordsWithin 512 (cString line) = some (method, url)) :
    LibeventServerConfined line ↔ Inside (LibeventServer.target url) := by
  constructor
  · intro h
    obtain ⟨path, hpath, hinside⟩ := h .ones
    rw [LibeventServer.lookup_eq hline] at hpath
    exact Except.ok.inj hpath ▸ hinside
  · intro h stack
    exact ⟨_, LibeventServer.lookup_eq hline stack, h⟩

/-- **Confinement**, exactly, for a line whose words fit the arrays of the server and whose URL has
a slash in front. -/
theorem lookups_confined_iff (hslash : url.head? = some (byte '/')) :
    (wordsWithin 1024 (cString line) = some (method, url) →
      (WebServerConfined line ↔ method.take 3 ≠ ascii "GET" ∨
        (behindSlash url).head? ≠ some (byte '/') ∧
          Covered 0 (steps (byte '/') (byte '.') (behindSlash url)))) ∧
    (wordsWithin 512 (cString line) = some (method, url) →
      (LibeventServerConfined line ↔
        (behindSlash url).head? ≠ some (byte '/') ∧
          Covered 0 (steps (byte '/') (byte '.') (behindSlash url)))) := by
  constructor
  · intro hline
    rw [webServerConfined_iff hline, webServer_target_of_slash hslash, inside_target_iff hslash]
  · intro hline
    rw [libeventServerConfined_iff hline, inside_target_iff hslash]

end

/-- Going up from a directory that was entered before is harmless. -/
theorem lookups_confined_back : WebServerConfined (ascii "GET /doc/.%2e/a HTTP/1.1") ∧
    LibeventServerConfined (ascii "GET /doc/.%2e/a HTTP/1.1") := by
  have hline : wordsWithin 1024 (cString (ascii "GET /doc/.%2e/a HTTP/1.1")) =
      some (ascii "GET", ascii "/doc/.%2e/a") := by decide +kernel
  have hline' : wordsWithin 512 (cString (ascii "GET /doc/.%2e/a HTTP/1.1")) =
      some (ascii "GET", ascii "/doc/.%2e/a") := by decide +kernel
  have hslash : (ascii "/doc/.%2e/a").head? = some (byte '/') := by decide
  have hrelative : (behindSlash (ascii "/doc/.%2e/a")).head? ≠ some (byte '/') := by
    decide +kernel
  have hcovered : Covered 0 (steps (byte '/') (byte '.') (behindSlash (ascii "/doc/.%2e/a"))) :=
    (walk_isSome_iff [] _).mp (by decide +kernel)
  obtain ⟨hweb, hlibevent⟩ := lookups_confined_iff hslash
  exact ⟨(hweb hline).mpr (Or.inr ⟨hrelative, hcovered⟩),
    (hlibevent hline').mpr ⟨hrelative, hcovered⟩⟩

/-- `..` in front leads out. -/
theorem not_lookups_confined : ¬∀ line method url : Bytes, url.head? = some (byte '/') →
    (wordsWithin 1024 (cString line) = some (method, url) → WebServerConfined line) ∧
    (wordsWithin 512 (cString line) = some (method, url) → LibeventServerConfined line) := by
  intro h
  have hline : wordsWithin 1024 (cString (ascii "GET /../etc/passwd HTTP/1.1")) =
      some (ascii "GET", ascii "/../etc/passwd") := by decide +kernel
  have hslash : (ascii "/../etc/passwd").head? = some (byte '/') := by decide
  have hconfined := (h _ _ _ hslash).1 hline
  rw [webServerConfined_iff hline] at hconfined
  have houtside : ¬Inside (WebServer.target (ascii "/../etc/passwd")) := by
    have htarget : WebServer.target (ascii "/../etc/passwd") = ascii "../etc/passwd" := by
      decide +kernel
    rw [htarget, Inside]
    decide +kernel
  exact hconfined.elim (fun hget ↦ hget (by decide)) houtside

end Web

end CodeOnLinux
