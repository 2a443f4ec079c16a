import CodeOnLinux.Foundation.Fgets
import CodeOnLinux.Foundation.Merge
import CodeOnLinux.Foundation.Transition

/-!
# Messages in a FIFO: `write_to_fifo.c` and `read_from_fifo.c`

The writer puts a line of at most 127 bytes into a zeroed buffer and writes all of the buffer, and a
reader reads that many bytes. A write of so few bytes goes into the pipe in one piece, so the pipe
always holds whole buffers, and every read finds one. Several readers may be started: each line is
printed by one of them, whole and once (`printed_once`).
-/

namespace CodeOnLinux

namespace Fifo

open Transition Lines Merge Memory

/-! ## The programs -/

/-- `SIZE` -/
def size : ℕ := 128

/-- The buffer of the writer: the line, zeros, and a NUL in the last cell. -/
def frame (line : Bytes) : Bytes := (padded size line).set (size - 1) 0

/-- `overrun` is a reader whose `printf` has run out of the buffer. -/
inductive Reader
  | reading
  | ended
  | overrun
  deriving DecidableEq

/-- The writer, the pipe, and the readers `ρ`. -/
structure State (ρ : Type*) where
  /-- What was not typed yet. -/
  stdin : Bytes
  /-- Not in the source: the lines that were written. -/
  lines : List Bytes
  /-- Whether the writer is still there. -/
  writing : Bool
  /-- What is in the pipe. -/
  pipe : Bytes
  /-- What each reader is doing. -/
  reader : ρ → Reader
  /-- The buffers of the readers. -/
  buffer : ρ → Bytes
  /-- What each reader has printed. -/
  printed : ρ → List Bytes

inductive Label (ρ : Type*)
  | write
  /-- `write` fails, or the writer is stopped. -/
  | writeEnds
  | read (i : ρ)
  /-- The pipe is empty and the writer is gone. -/
  | readEnd (i : ρ)
  | readFails (i : ρ)

variable {ρ : Type*}

/-- The buffers of the readers are not initialised. -/
def init (stdin : Bytes) (buffer : ρ → Bytes) : State ρ where
  stdin := stdin
  lines := []
  writing := true
  pipe := []
  reader _ := .reading
  buffer := buffer
  printed _ := []

/-- At the end of the input `fgets` stores nothing, and the zeroed buffer is written. -/
abbrev State.typed (s : State ρ) : Bytes × Bytes := typedLine size s.stdin

variable [DecidableEq ρ]

/-- `read` stores over the front of the buffer, and `printf` prints the string that is there then.
-/
def State.readTurn (s : State ρ) (i : ρ) : State ρ :=
  let text := s.pipe.take size
  let buffer := text ++ (s.buffer i).drop text.length
  let s := { s with pipe := s.pipe.drop size, buffer := Function.update s.buffer i buffer }
  match readStr buffer 0 with
  | .ok line => { s with printed := Function.update s.printed i (s.printed i ++ [line]) }
  | .error _ => { s with reader := Function.update s.reader i .overrun }

/-- The pipe has room for `capacity` bytes; a write for which there is no room waits. -/
def step (capacity : ℕ) (s : State ρ) : Label ρ → Option (State ρ)
  | .write => guarded (s.writing = true ∧ s.pipe.length + size ≤ capacity)
      { s with
        stdin := s.typed.2
        lines := s.lines ++ [s.typed.1]
        pipe := s.pipe ++ frame s.typed.1 }
  | .writeEnds => guarded (s.writing = true) { s with writing := false }
  | .read i => guarded (s.reader i = .reading ∧ s.pipe ≠ []) (s.readTurn i)
  | .readEnd i => guarded (s.reader i = .reading ∧ s.pipe = [] ∧ s.writing = false)
      { s with reader := Function.update s.reader i .ended }
  | .readFails i => guarded (s.reader i = .reading)
      { s with reader := Function.update s.reader i .ended }

/-! ## Whole buffers -/

theorem padded_of_length_lt {line : Bytes} (h : line.length < size) :
    padded size line = line ++ 0 :: List.replicate (size - line.length - 1) 0 := by
  rw [padded]
  obtain ⟨n, hn⟩ := Nat.exists_eq_add_of_lt h
  have hleft : size - line.length = n + 1 := by omega
  rw [hleft, List.replicate_succ, Nat.add_sub_cancel]

/-- `fgets` has left the last cell zero. -/
theorem frame_eq {line : Bytes} (h : line.length < size) : frame line = padded size line := by
  have hlast : (padded size line)[size - 1]? = some 0 := by
    rw [padded, List.getElem?_append_right (by omega), List.getElem?_replicate, if_pos (by omega)]
  obtain ⟨hlt, hzero⟩ := List.getElem?_eq_some_iff.mp hlast
  calc (padded size line).set (size - 1) 0
      = (padded size line).set (size - 1) (padded size line)[size - 1] := by rw [hzero]
    _ = padded size line := List.set_getElem_self hlt

variable {s t : State ρ} {a : Label ρ} {i : ρ} {input : Bytes} {capacity : ℕ}

/-- What was typed is in the lines, and the lines are with the readers or in the pipe. -/
structure Inv (input : Bytes) (s : State ρ) : Prop where
  /-- The lines are what was typed. -/
  typed : s.lines.flatten ++ s.stdin = input
  /-- Each fits into the buffer. -/
  short : ∀ line ∈ s.lines, line.length < size
  /-- The lines are with the readers or whole in the pipe. -/
  messages : ∃ taken queue, s.lines = taken ++ queue ∧ s.pipe = queue.flatMap (padded size) ∧
    IsMerge s.printed (taken.map cString)
  /-- No reader has run out of his buffer. -/
  reader : ∀ i, s.reader i ≠ .overrun

theorem inv_init (input : Bytes) (buffer : ρ → Bytes) : Inv input (init input buffer) where
  typed := rfl
  short _ h := absurd h List.not_mem_nil
  messages := ⟨[], [], rfl, rfl, [], rfl, fun _ ↦ rfl⟩
  reader _ h := by cases h

theorem Inv.write (hs : Inv input s) : Inv input { s with
    stdin := s.typed.2
    lines := s.lines ++ [s.typed.1]
    pipe := s.pipe ++ frame s.typed.1 } where
  typed := by
    rw [List.flatten_append, List.flatten_singleton, List.append_assoc, typedLine_append, hs.typed]
  short line h := by
    rcases List.mem_append.mp h with h | h
    · exact hs.short line h
    · exact List.mem_singleton.mp h ▸ length_typedLine_lt s.stdin (by decide)
  messages := by
    obtain ⟨taken, queue, hlines, hpipe, hmerge⟩ := hs.messages
    refine ⟨taken, queue ++ [s.typed.1], ?_, ?_, hmerge⟩
    · rw [hlines, List.append_assoc]
    · rw [hpipe, frame_eq (length_typedLine_lt s.stdin (by decide)), List.flatMap_append,
        List.flatMap_singleton]
  reader := hs.reader

/-- A reader finds a whole buffer, with its NUL. -/
theorem Inv.read (hs : Inv input s) (hpipe : s.pipe ≠ []) : Inv input (s.readTurn i) := by
  obtain ⟨taken, queue, hlines, hqueue, hmerge⟩ := hs.messages
  cases queue with
  | nil => exact absurd hqueue hpipe
  | cons line queue =>
    have hshort : line.length < size := hs.short line (by rw [hlines]; simp)
    have hfront : s.pipe = padded size line ++ queue.flatMap (padded size) := hqueue
    have hlen : (padded size line).length = size := length_padded hshort.le
    have htake : s.pipe.take size = padded size line := by rw [hfront, List.take_left' hlen]
    have hdrop : s.pipe.drop size = queue.flatMap (padded size) := by
      rw [hfront, List.drop_left' hlen]
    have hread : ∀ tail, readStr (padded size line ++ tail) 0 = .ok (cString line) := by
      intro tail
      rw [padded_of_length_lt hshort, List.append_assoc, List.cons_append, readStr_append]
    rw [State.readTurn, htake, hdrop]
    simp only [hread]
    refine ⟨hs.typed, hs.short, ⟨taken ++ [line], queue, ?_, rfl, ?_⟩, hs.reader⟩
    · rw [hlines, List.append_assoc]
      rfl
    · rw [List.map_append]
      exact hmerge.snoc i (cString line)

theorem Inv.reader_ends (hs : Inv input s) :
    Inv input { s with reader := Function.update s.reader i .ended } where
  typed := hs.typed
  short := hs.short
  messages := hs.messages
  reader j h := by
    by_cases hj : j = i
    · simp only [hj, Function.update_self, reduceCtorEq] at h
    · simp only [Function.update_of_ne hj] at h
      exact hs.reader j h

theorem Inv.step (hs : Inv input s) (h : Fifo.step capacity s a = some t) : Inv input t := by
  cases a with
  | write =>
    obtain ⟨-, rfl⟩ := guarded_eq_some.mp h
    exact hs.write
  | writeEnds =>
    obtain ⟨-, rfl⟩ := guarded_eq_some.mp h
    exact ⟨hs.typed, hs.short, hs.messages, hs.reader⟩
  | read i =>
    obtain ⟨⟨-, hpipe⟩, rfl⟩ := guarded_eq_some.mp h
    exact hs.read hpipe
  | readEnd i =>
    obtain ⟨-, rfl⟩ := guarded_eq_some.mp h
    exact hs.reader_ends
  | readFails i =>
    obtain ⟨-, rfl⟩ := guarded_eq_some.mp h
    exact hs.reader_ends

/-- **Each line is printed once, and whole.** Whatever is typed, however the writer and the readers
take turns, and whatever was in the buffers: no reader runs out of its buffer, and the lines that
are no longer in the pipe were printed, each by one reader, and by each reader in their order. A
line with a NUL in it is printed up to there. Put together the lines are what was typed. -/
theorem printed_once (input : Bytes) (buffer : ρ → Bytes) (labels : List (Label ρ)) (s : State ρ)
    (hrun : run (step capacity) (init input buffer) labels = some s) :
    (∀ i, s.reader i ≠ .overrun) ∧ s.lines.flatten ++ s.stdin = input ∧
      ∃ taken queue, s.lines = taken ++ queue ∧ s.pipe = queue.flatMap (padded size) ∧
        IsMerge s.printed (taken.map cString) := by
  have hs : Inv input s :=
    invariant_of_run (fun _ _ _ hs h ↦ hs.step h) (inv_init input buffer) hrun
  exact ⟨hs.reader, hs.typed, hs.messages⟩

/-- Two lines, one for each of two readers. -/
def twoReaders : List (Label Bool) := [.write, .read true, .write, .read false]

theorem two_lines_printed : ∃ s : State Bool,
    run (step 65536) (init (ascii "to\nbe\n") fun _ ↦ List.replicate size 1) twoReaders = some s ∧
      s.lines = [ascii "to\n", ascii "be\n"] ∧
      ∃ taken queue, s.lines = taken ++ queue ∧ s.pipe = queue.flatMap (padded size) ∧
        IsMerge s.printed (taken.map cString) := by
  have hlines : (run (step 65536) (init (ascii "to\nbe\n") fun _ ↦ List.replicate size 1)
      twoReaders).map State.lines = some [ascii "to\n", ascii "be\n"] := by decide +kernel
  obtain ⟨s, hrun, hs⟩ := Option.map_eq_some_iff.mp hlines
  exact ⟨s, hrun, hs, (printed_once _ _ twoReaders s hrun).2.2⟩

end Fifo

end CodeOnLinux
