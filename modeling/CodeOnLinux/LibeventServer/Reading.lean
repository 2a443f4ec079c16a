import CodeOnLinux.LibeventServer.Server
import CodeOnLinux.WebServer.Reading

/-!
# What `bev_read_cb` looks up for a line

For a line with words that fit, the path is `target` of its URL and does not depend on the stack
(`lookup_eq`). For any other line it does: on a stack without NULs the callback leaves the defined
behaviour (`lookup_of_none`).
-/

namespace CodeOnLinux

namespace LibeventServer

open Memory Stdio Pub
open WebServer (wordsWithin sscanf_of_wordsWithin sscanf_of_wordsWithin_none url_of_wordsWithin
  strdecode_self strdecode_ones decode_ne_nil cString_cons_of_ne)

/-- The path that is looked up for a URL. -/
def target (url : Bytes) : Bytes :=
  if (urlEscaping.decode url).getD 1 0 = 0 then ascii "./"
  else cString ((urlEscaping.decode url).drop 1)

theorem lookup_eq {line method url : Bytes}
    (hline : wordsWithin 512 (cString line) = some (method, url)) (stack : Stack) :
    lookup line stack.words = .ok (target url) := by
  obtain ⟨a, ha, -, hurl⟩ := sscanf_of_wordsWithin hline stack.length_method stack.length_url
    stack.length_version
  obtain ⟨hne, hsub⟩ := url_of_wordsWithin hline
  have hzero : 0 ∉ url := fun h ↦ zero_notMem_cString line (hsub h)
  obtain ⟨u, tail, hu, rfl⟩ := strdecode_self (hurl.strAt hzero)
  rw [lookup, ha, Checked.ok_bind, hu, Checked.ok_bind, target]
  obtain ⟨b, d, hd⟩ := List.exists_cons_of_ne_nil (decode_ne_nil hne)
  rw [hd]
  -- the second cell is the second byte of the decoded URL, or its NUL
  have hload : load (b :: d ++ 0 :: tail) 1 = .ok (d.getD 0 0) := by
    cases d with
    | nil => rfl
    | cons c d => rfl
  have hread : readStr (b :: d ++ 0 :: tail) 1 = .ok (cString d) := readStr_append tail
  rw [hload, Checked.ok_bind, hread]
  by_cases hc : d.getD 0 0 = 0
  · rw [if_pos hc]
    exact congrArg Except.ok (if_pos hc).symm
  · rw [if_neg hc]
    exact congrArg Except.ok (if_neg hc).symm

/-- A stack that is full of ones. -/
def Stack.ones : Stack where
  words := { WebServer.Stack.ones.words with url := List.replicate 512 1 }
  length_method := WebServer.Stack.ones.length_method
  length_url := List.length_replicate
  length_version := WebServer.Stack.ones.length_version

theorem lookup_of_none {line : Bytes} (hline : wordsWithin 512 (cString line) = none) :
    ∃ e, lookup line Stack.ones.words = .error e := by
  rw [lookup]
  rcases sscanf_of_wordsWithin_none hline Stack.ones.length_method Stack.ones.length_url
    Stack.ones.length_version with ⟨e, he⟩ | ⟨a, ha, hurl⟩
  · exact ⟨e, by rw [he, Checked.error_bind]⟩
  · obtain ⟨e, he⟩ := strdecode_ones 512
    exact ⟨e, by rw [ha, Checked.ok_bind, hurl, Stack.ones, he, Checked.error_bind]⟩

end LibeventServer

end CodeOnLinux
