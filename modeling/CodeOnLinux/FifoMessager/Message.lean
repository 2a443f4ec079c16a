import CodeOnLinux.Echo.InBounds
import CodeOnLinux.Foundation.Stdio

/-!
# The two messengers: `fifo_messager.c` and `fifo_messanger_part2.c`

Tom and Jerry each read a line of at most 511 bytes with `fgets`, take the newline off, put their
name in front and write the string into a FIFO; the other side reads at most 512 bytes into a zeroed
buffer and prints it. The buffer `send` has room for the longest message of either. That of the
reader has not: it would have to hold the name as well, and the NUL that no `write` brings.
-/

namespace CodeOnLinux

namespace FifoMessager

open Memory Lines Stdio
open Echo (trim trim_ok strlen_ok lastIndex)

/-- `SIZE` -/
def size : ℕ := 512

/-- `B_SIZE` -/
def bSize : ℕ := 520

/-- What `fgets` can put in the buffer: bytes up to a newline, or as many as there is room for. -/
structure Line where
  /-- The bytes. -/
  text : Bytes
  /-- There is one at least. -/
  ne_nil : text ≠ []
  /-- They leave room for the NUL. -/
  length_lt : text.length < size
  /-- A newline is the last of them. -/
  lf_notMem : lf ∉ text.dropLast

/-! ## The programs -/

/-- One turn of the loop that writes, up to what `write` is given. -/
def writeTurn (name : Bytes) (line : Bytes) : Checked Bytes := do
  let buffer ← trim (padded size line)
  let text ← readStr buffer 0
  sprintf bSize (name ++ text)

/-- One turn of the loop that reads: what `read` returns and the text that is printed. The pipe
holds `pipe`. -/
def readTurn (pipe : Bytes) : Checked (ℕ × Bytes) := do
  let bufferRead := padded size (pipe.take size)
  let text ← readStr bufferRead 0
  return ((pipe.take size).length, text)

/-- `fifo_messager.c` -/
def tomWrites (line : Bytes) : Checked Bytes := writeTurn (ascii "Tom:") line

def tomReads (pipe : Bytes) : Checked (ℕ × Bytes) := readTurn pipe

/-- `fifo_messanger_part2.c` -/
def jerryWrites (line : Bytes) : Checked Bytes := writeTurn (ascii "Jerry:") line

def jerryReads (pipe : Bytes) : Checked (ℕ × Bytes) := readTurn pipe

/-! ## Writing -/

/-- The string in the buffer, without its newline. -/
def Line.string (l : Line) : Bytes := chomp (cString l.text)

theorem length_chomp_le (s : Bytes) : (chomp s).length ≤ s.length := by
  rw [chomp]
  split
  · rw [List.length_dropLast]
    exact Nat.sub_le _ _
  · exact le_refl _

theorem zero_notMem_chomp {s : Bytes} (h : 0 ∉ s) : 0 ∉ chomp s := by
  rw [chomp]
  split
  · exact fun hmem ↦ h (List.mem_of_mem_dropLast hmem)
  · exact h

theorem Line.length_string_lt (l : Line) : l.string.length < size :=
  (length_chomp_le _).trans_lt ((length_cString_le _).trans_lt l.length_lt)

theorem Line.zero_notMem_string (l : Line) : 0 ∉ l.string :=
  zero_notMem_chomp (zero_notMem_cString _)

/-- A name that has room in front of every line. -/
structure Name where
  /-- The bytes. -/
  text : Bytes
  /-- It has no NUL. -/
  zero_notMem : 0 ∉ text
  /-- The rest of the buffer has room for a line. -/
  length_le : text.length ≤ bSize - size

theorem writeTurn_ok (n : Name) (l : Line) (hhead : l.text.head? ≠ some 0) :
    writeTurn n.text l.text = .ok (n.text ++ l.string) := by
  have hzero : 0 ∈ padded size l.text := zero_mem_padded_iff.mpr (Or.inl l.length_lt)
  have hne : cString (padded size l.text) ≠ [] := by
    rw [cString_padded, ne_eq, cString_eq_nil_iff, not_or]
    exact ⟨l.ne_nil, hhead⟩
  obtain ⟨buffer, htrim, hbuffer, hstring⟩ := trim_ok hzero hne
  rw [cString_padded] at hstring
  have hfits : (n.text ++ l.string).length < bSize := by
    have hname := n.length_le
    have hline := l.length_string_lt
    rw [List.length_append]
    rw [bSize, size] at *
    omega
  have hmessage : 0 ∉ n.text ++ l.string := by
    rw [List.mem_append, not_or]
    exact ⟨n.zero_notMem, l.zero_notMem_string⟩
  rw [writeTurn, htrim, Checked.ok_bind, readStr_ok hbuffer, Checked.ok_bind, hstring,
    ← Line.string, sprintf_ok hfits, cString_eq_self hmessage]

/-- The string is empty, and `strlen(buffer) - 1` in front of the buffer. -/
theorem writeTurn_error (name : Bytes) {line : Bytes} (hlt : line.length < size)
    (hhead : line.head? = some 0) : writeTurn name line = .error .outOfBounds := by
  have hzero : 0 ∈ padded size line := zero_mem_padded_iff.mpr (Or.inl hlt)
  have hempty : cString (padded size line) = [] := by
    rw [cString_padded, cString_eq_nil_iff]
    exact Or.inr hhead
  rw [writeTurn, trim, lastIndex, strlen_ok hzero, hempty]
  rfl

/-! ## Reading -/

theorem readTurn_ok {message : Bytes} (hlt : message.length < size) (hzero : 0 ∉ message) :
    readTurn message = .ok (message.length, message) := by
  have hmem : 0 ∈ padded size message := zero_mem_padded_iff.mpr (Or.inl hlt)
  rw [readTurn, List.take_of_length_le hlt.le, readStr_ok hmem, cString_padded,
    cString_eq_self hzero]
  rfl

/-- A message of 512 bytes fills the buffer; a longer one does not even fit it. -/
theorem readTurn_error {message : Bytes} (hle : size ≤ message.length) (hzero : 0 ∉ message) :
    readTurn message = .error .outOfBounds := by
  have hlen : (message.take size).length = size := by
    rw [List.length_take, Nat.min_eq_left hle]
  have hmem : 0 ∉ padded size (message.take size) := by
    rw [zero_mem_padded_iff, not_or, hlen]
    exact ⟨Nat.lt_irrefl _, fun h ↦ hzero (List.mem_of_mem_take h)⟩
  rw [readTurn, readStr, List.drop_zero, if_neg hmem]
  rfl

/-! ## From one to the other -/

/-- The message fits the writer's buffer; from an empty pipe one `read` brings all of it, and the
reader prints it. -/
def Agrees (writes : Bytes → Checked Bytes) (reads : Bytes → Checked (ℕ × Bytes)) (name : Bytes)
    (l : Line) : Prop :=
  writes l.text = .ok (name ++ l.string) ∧
    reads (name ++ l.string) = .ok ((name ++ l.string).length, name ++ l.string)

theorem agrees_iff (n : Name) (l : Line) : Agrees (writeTurn n.text) readTurn n.text l ↔
    l.text.head? ≠ some 0 ∧ n.text.length + l.string.length < size := by
  have hzero : 0 ∉ n.text ++ l.string := by
    rw [List.mem_append, not_or]
    exact ⟨n.zero_notMem, l.zero_notMem_string⟩
  rw [Agrees, ← List.length_append]
  constructor
  · rintro ⟨hwrites, hreads⟩
    refine ⟨fun hhead ↦ ?_, ?_⟩
    · cases (writeTurn_error n.text l.length_lt hhead).symm.trans hwrites
    · by_contra hlong
      cases (readTurn_error (Nat.le_of_not_lt hlong) hzero).symm.trans hreads
  · rintro ⟨hhead, hlt⟩
    exact ⟨writeTurn_ok n l hhead, readTurn_ok hlt hzero⟩

def tom : Name := ⟨ascii "Tom:", by decide, by decide⟩

def jerry : Name := ⟨ascii "Jerry:", by decide, by decide⟩

/-- **Message sizes.** Every message fits the buffer it is formatted into, unless the line starts
with a NUL. It arrives whole, with a NUL behind it, exactly if moreover the line without its newline
has at most 507 bytes from Tom to Jerry, and at most 505 from Jerry to Tom. -/
theorem messages_iff (l : Line) :
    (l.text.head? ≠ some 0 → tomWrites l.text = .ok (ascii "Tom:" ++ l.string) ∧
      jerryWrites l.text = .ok (ascii "Jerry:" ++ l.string)) ∧
    (Agrees tomWrites jerryReads (ascii "Tom:") l ↔
      l.text.head? ≠ some 0 ∧ l.string.length ≤ 507) ∧
    (Agrees jerryWrites tomReads (ascii "Jerry:") l ↔
      l.text.head? ≠ some 0 ∧ l.string.length ≤ 505) := by
  refine ⟨fun hhead ↦ ⟨writeTurn_ok tom l hhead, writeTurn_ok jerry l hhead⟩,
    (agrees_iff tom l).trans (and_congr_right fun _ ↦ ?_),
    (agrees_iff jerry l).trans (and_congr_right fun _ ↦ ?_)⟩
  · have hname : tom.text.length = 4 := rfl
    rw [hname, size]
    omega
  · have hname : jerry.text.length = 6 := rfl
    rw [hname, size]
    omega

def hello : Line := ⟨ascii "hello\n", by decide, by decide, by decide⟩

theorem messages_iff_hello : Agrees tomWrites jerryReads (ascii "Tom:") hello ∧
    Agrees jerryWrites tomReads (ascii "Jerry:") hello := by
  obtain ⟨-, htom, hjerry⟩ := messages_iff hello
  exact ⟨htom.mpr (by decide), hjerry.mpr (by decide)⟩

/-- 506 and 508 bytes and a newline. -/
def long506 : Line :=
  ⟨List.replicate 506 (byte 'a') ++ [lf], by decide +kernel, by decide +kernel, by decide +kernel⟩

def long508 : Line :=
  ⟨List.replicate 508 (byte 'a') ++ [lf], by decide +kernel, by decide +kernel, by decide +kernel⟩

theorem not_messages : ¬Agrees tomWrites jerryReads (ascii "Tom:") long508 ∧
    ¬Agrees jerryWrites tomReads (ascii "Jerry:") long506 := by
  have htom : ¬tom.text.length + long508.string.length < size := by decide +kernel
  have hjerry : ¬jerry.text.length + long506.string.length < size := by decide +kernel
  exact ⟨fun h ↦ htom ((agrees_iff tom long508).mp h).2,
    fun h ↦ hjerry ((agrees_iff jerry long506).mp h).2⟩

end FifoMessager

end CodeOnLinux
