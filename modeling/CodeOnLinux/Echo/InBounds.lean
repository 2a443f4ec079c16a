import CodeOnLinux.Echo.Trim

/-!
# Which messages can be trimmed

What follows a successful `recv` in the echo servers is one idiom: trim, print, send back. It stays
inside the buffer if and only if the message does not start with a NUL and leaves a NUL somewhere,
its own or one that `bzero` has left behind it (`trims_iff`). `recv` promises neither.
-/

namespace CodeOnLinux

namespace Echo

open Memory

/-! ## The servers -/

/-- `03_epoll_svr_multi_access`: the text that is printed and the bytes that are sent. -/
def epollSvrMultiAccess (text : Bytes) : Checked (Bytes × Bytes) := do
  let buffer ← trim (received text)
  let printed ← readStr buffer 0
  let n ← strlen buffer
  return (printed, buffer.take n)

/-- `03_select_svr_multi_access`, and `02_select_svr` for what its one client sends: all of the
buffer is sent. -/
def selectSvrMultiAccess (text : Bytes) : Checked (Bytes × Bytes) := do
  let buffer ← trim (received text)
  let printed ← readStr buffer 0
  return (printed, buffer)

/-- `svr_rw` of `03_tcp_pthread`; `none` after `quit`. -/
def svrRw (text : Bytes) : Checked (Option (Bytes × Bytes)) := do
  let buffer ← trim (received text)
  if isQuit buffer then return none
  let printed ← readStr buffer 0
  let n ← strlen buffer
  return some (printed, buffer.take n)

/-- `read_connfd` of `03_libevent_svr`: nothing is sent back. -/
def readConnfd (text : Bytes) : Checked Bytes := do
  let buffer ← trim (received text)
  readStr buffer 0

/-- What `03_epoll_svr_multi_access` sends is `reply`. -/
theorem reply_eq (text : Bytes) : reply text = (epollSvrMultiAccess text).map Prod.snd := by
  rw [reply, epollSvrMultiAccess]
  cases trim (received text) with
  | error e => rfl
  | ok buffer =>
    simp only [Checked.ok_bind, strlen, readStr, List.drop_zero]
    split <;> rfl

/-! ## Trimming -/

/-- The message does not start with a NUL, and there is one behind its first byte. -/
def Trimmable (text : Bytes) : Prop := text.head? ≠ some 0 ∧ (text.length < size ∨ 0 ∈ text)

instance decidableTrimmable (text : Bytes) : Decidable (Trimmable text) :=
  inferInstanceAs (Decidable (text.head? ≠ some 0 ∧ (text.length < size ∨ 0 ∈ text)))

theorem received_eq_padded (text : Bytes) : received text = padded size text := rfl

theorem zero_mem_received_iff {text : Bytes} :
    0 ∈ received text ↔ text.length < size ∨ 0 ∈ text := zero_mem_padded_iff

theorem head?_received {text : Bytes} (hne : text ≠ []) : (received text).head? = text.head? := by
  obtain ⟨b, s, rfl⟩ := List.exists_cons_of_ne_nil hne
  rfl

theorem strlen_ok {buffer : Bytes} (h : 0 ∈ buffer) :
    strlen buffer = .ok (cString buffer).length := if_pos h

theorem strlen_error {buffer : Bytes} (h : 0 ∉ buffer) : strlen buffer = .error .outOfBounds :=
  if_neg h

/-- The NUL stays, or another one is stored in place of the newline. -/
theorem trim_ok {buffer : Bytes} (hzero : 0 ∈ buffer) (hne : cString buffer ≠ []) :
    ∃ trimmed, trim buffer = .ok trimmed ∧ 0 ∈ trimmed ∧
      cString trimmed = Lines.chomp (cString buffer) := by
  obtain ⟨tail, htail⟩ := exists_eq_cString_append hzero
  have hstring := zero_notMem_cString buffer
  have hlen := strlen_ok hzero
  generalize cString buffer = s at *
  subst htail
  rcases List.eq_nil_or_concat s with rfl | ⟨front, b, rfl⟩
  · exact absurd rfl hne
  rw [List.concat_eq_append] at *
  have hindex : lastIndex (front ++ [b] ++ 0 :: tail) = .ok front.length := by
    rw [lastIndex, hlen, Checked.ok_bind, List.length_append, List.length_singleton,
      if_neg (Nat.succ_ne_zero _), Nat.add_sub_cancel]
  have hlast : (front ++ [b] ++ 0 :: tail)[front.length]? = some b := by simp
  have hlt : front.length < (front ++ [b] ++ 0 :: tail).length := by simp
  have hset : (front ++ [b] ++ 0 :: tail).set front.length 0 = front ++ 0 :: 0 :: tail := by simp
  rw [List.mem_append, not_or] at hstring
  rw [trim, hindex, Checked.ok_bind, load_ok hlast, Checked.ok_bind, Lines.chomp_concat]
  split
  · refine ⟨_, store_ok hlt 0, List.mem_set hlt 0, ?_⟩
    rw [hset, cString_append_zero, cString_eq_self hstring.1]
  · refine ⟨_, rfl, hzero, ?_⟩
    rw [cString_append_zero, cString_eq_self (List.mem_append.not.mpr (not_or.mpr hstring))]

/-- **Trimming** stays inside the buffer exactly for these messages, and leaves a string in it. -/
theorem trim_received {text : Bytes} (hne : text ≠ []) :
    (Trimmable text ∧ ∃ buffer, trim (received text) = .ok buffer ∧ 0 ∈ buffer) ∨
      ¬Trimmable text ∧ ∃ e, trim (received text) = .error e := by
  have hreceived : received text ≠ [] := List.append_ne_nil_of_left_ne_nil hne _
  by_cases hzero : 0 ∈ received text
  · by_cases hempty : cString (received text) = []
    · -- the string is empty and has no last character
      have hhead : text.head? = some 0 := by
        rw [← head?_received hne]
        exact ((cString_eq_nil_iff _).mp hempty).resolve_left hreceived
      refine Or.inr ⟨fun h ↦ h.1 hhead, .outOfBounds, ?_⟩
      rw [trim, lastIndex, strlen_ok hzero, hempty]
      rfl
    · obtain ⟨buffer, htrim, hbuffer, -⟩ := trim_ok hzero hempty
      refine Or.inl ⟨⟨fun hhead ↦ hempty ?_, zero_mem_received_iff.mp hzero⟩, buffer, htrim,
        hbuffer⟩
      rw [cString_eq_nil_iff, head?_received hne]
      exact Or.inr hhead
  · refine Or.inr ⟨fun h ↦ hzero (zero_mem_received_iff.mpr h.2), .outOfBounds, ?_⟩
    rw [trim, lastIndex, strlen_error hzero]
    rfl

/-- What follows the trimming stays inside the buffer where it needs no more than a string there. -/
theorem trim_bind_ok_iff {β : Type} {text : Bytes} {f : Bytes → Checked β} (hne : text ≠ [])
    (hf : ∀ buffer, 0 ∈ buffer → ∃ r, f buffer = .ok r) :
    (∃ r, (trim (received text) >>= f) = .ok r) ↔ Trimmable text := by
  rcases trim_received hne with ⟨htext, buffer, htrim, hzero⟩ | ⟨htext, e, htrim⟩
  · rw [htrim, Checked.ok_bind]
    exact iff_of_true (hf buffer hzero) htext
  · rw [htrim, Checked.error_bind]
    refine iff_of_false ?_ htext
    rintro ⟨r, hr⟩
    cases hr

section

variable {text : Bytes} (hne : text ≠ [])

include hne

theorem epollSvrMultiAccess_ok_iff : (∃ r, epollSvrMultiAccess text = .ok r) ↔ Trimmable text := by
  refine trim_bind_ok_iff hne fun buffer hzero ↦ ?_
  rw [readStr_ok hzero, Checked.ok_bind, strlen_ok hzero]
  exact ⟨_, rfl⟩

theorem selectSvrMultiAccess_ok_iff :
    (∃ r, selectSvrMultiAccess text = .ok r) ↔ Trimmable text := by
  refine trim_bind_ok_iff hne fun buffer hzero ↦ ?_
  rw [readStr_ok hzero]
  exact ⟨_, rfl⟩

theorem svrRw_ok_iff : (∃ r, svrRw text = .ok r) ↔ Trimmable text := by
  refine trim_bind_ok_iff hne fun buffer hzero ↦ ?_
  split
  · exact ⟨_, rfl⟩
  · rw [readStr_ok hzero, Checked.ok_bind, strlen_ok hzero]
    exact ⟨_, rfl⟩

theorem readConnfd_ok_iff : (∃ r, readConnfd text = .ok r) ↔ Trimmable text :=
  trim_bind_ok_iff hne fun _ hzero ↦ ⟨_, readStr_ok hzero⟩

end

/-- **Trimming stays inside the buffer**, in each of the servers, exactly for the messages that do
not start with a NUL and do not fill the `SIZE` bytes without one. -/
theorem trims_iff {text : Bytes} (hpos : 1 ≤ text.length) (hle : text.length ≤ size) :
    (received text).length = size ∧
    ((∃ r, epollSvrMultiAccess text = .ok r) ↔ Trimmable text) ∧
    ((∃ r, selectSvrMultiAccess text = .ok r) ↔ Trimmable text) ∧
    ((∃ r, svrRw text = .ok r) ↔ Trimmable text) ∧
    ((∃ r, readConnfd text = .ok r) ↔ Trimmable text) := by
  have hne : text ≠ [] := List.ne_nil_of_length_pos hpos
  exact ⟨length_received hle, epollSvrMultiAccess_ok_iff hne, selectSvrMultiAccess_ok_iff hne,
    svrRw_ok_iff hne, readConnfd_ok_iff hne⟩

theorem trims_iff_hello : (∃ r, epollSvrMultiAccess (ascii "hello\n") = .ok r) ∧
    (∃ r, selectSvrMultiAccess (ascii "hello\n") = .ok r) ∧
    (∃ r, svrRw (ascii "hello\n") = .ok r) ∧ ∃ r, readConnfd (ascii "hello\n") = .ok r := by
  have hlen : 1 ≤ (ascii "hello\n").length ∧ (ascii "hello\n").length ≤ size := by decide
  have htext : Trimmable (ascii "hello\n") := by decide
  obtain ⟨-, hepoll, hselect, hthread, hlibevent⟩ := trims_iff hlen.1 hlen.2
  exact ⟨hepoll.mpr htext, hselect.mpr htext, hthread.mpr htext, hlibevent.mpr htext⟩

/-- A message that can be received, and that no server trims inside its buffer. -/
def TrimmedNowhere (text : Bytes) : Prop :=
  (1 ≤ text.length ∧ text.length ≤ size) ∧ (¬∃ r, epollSvrMultiAccess text = .ok r) ∧
    (¬∃ r, selectSvrMultiAccess text = .ok r) ∧ (¬∃ r, svrRw text = .ok r) ∧
    ¬∃ r, readConnfd text = .ok r

theorem trimmedNowhere_of_not_trimmable {text : Bytes} (hpos : 1 ≤ text.length)
    (hle : text.length ≤ size) (htext : ¬Trimmable text) : TrimmedNowhere text := by
  have hne : text ≠ [] := List.ne_nil_of_length_pos hpos
  rw [TrimmedNowhere, epollSvrMultiAccess_ok_iff hne, selectSvrMultiAccess_ok_iff hne,
    svrRw_ok_iff hne, readConnfd_ok_iff hne]
  exact ⟨⟨hpos, hle⟩, htext, htext, htext, htext⟩

/-- One fills the buffer, and one is a NUL. -/
theorem not_trims : TrimmedNowhere (List.replicate size (byte 'a')) ∧ TrimmedNowhere [0] := by
  refine ⟨trimmedNowhere_of_not_trimmable ?_ ?_ ?_, trimmedNowhere_of_not_trimmable ?_ ?_ ?_⟩
  · decide +kernel
  · exact (List.length_replicate).le
  · decide +kernel
  · decide
  · decide
  · decide

end Echo

end CodeOnLinux
