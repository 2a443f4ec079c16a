import CodeOnLinux.Foundation.Lines

/-!
# Trimming a message before it is sent back

The echo servers zero a buffer of `SIZE` bytes, receive into it, replace a newline at the end of
the string by a NUL, and send the string back. All lengths are taken with `strlen`, which runs out
of a buffer that is full and has no NUL; and the empty string has no last character.
-/

namespace CodeOnLinux

namespace Echo

/-- `SIZE` -/
def size : ℕ := 128

/-- The zeroed buffer after `recv` has stored `text` in it. -/
def received (text : Bytes) : Bytes := text ++ List.replicate (size - text.length) 0

def strlen (buffer : Bytes) : Checked ℕ :=
  if 0 ∈ buffer then .ok (cString buffer).length else .error .outOfBounds

/-- `strlen(buffer) - 1` as an index: of the empty string it lies in front of the buffer. -/
def lastIndex (buffer : Bytes) : Checked ℕ := do
  let n ← strlen buffer
  if n = 0 then .error .outOfBounds else .ok (n - 1)

/-- `if (buffer[strlen(buffer)-1] == '\n') buffer[strlen(buffer)-1] = '\0'` -/
def trim (buffer : Bytes) : Checked Bytes := do
  let k ← lastIndex buffer
  let b ← Memory.load buffer k
  if b = Lines.lf then Memory.store buffer k 0 else .ok buffer

/-- The string that is sent back for what was received. -/
def reply (text : Bytes) : Checked Bytes := do
  let buffer ← trim (received text)
  let n ← strlen buffer
  .ok (buffer.take n)

/-- `strncmp(buffer, "quit", 4) == 0`, for a buffer that holds the string `text`. -/
def isQuit (text : Bytes) : Bool := decide (text.take 4 = ascii "quit")

theorem length_received {text : Bytes} (htext : text.length ≤ size) :
    (received text).length = size := length_padded htext

theorem length_trim {buffer trimmed : Bytes} (h : trim buffer = .ok trimmed) :
    trimmed.length = buffer.length := by
  obtain ⟨k, -, h⟩ := Checked.bind_eq_ok.mp h
  obtain ⟨b, -, h⟩ := Checked.bind_eq_ok.mp h
  split_ifs at h
  · rw [Memory.store] at h
    split_ifs at h
    rw [← Except.ok.inj h, List.length_set]
  · rw [Except.ok.inj h]

/-- A reply is no longer than the buffer. -/
theorem length_reply_le {text answer : Bytes} (htext : text.length ≤ size)
    (h : reply text = .ok answer) : answer.length ≤ size := by
  obtain ⟨trimmed, htrim, h⟩ := Checked.bind_eq_ok.mp h
  obtain ⟨n, -, h⟩ := Checked.bind_eq_ok.mp h
  rw [← Except.ok.inj h, ← length_received htext, ← length_trim htrim]
  exact List.length_take_le' n trimmed

end Echo

end CodeOnLinux
