import CodeOnLinux.FifoMessager.Message
import CodeOnLinux.Foundation.Fgets
import CodeOnLinux.Foundation.Transition

/-!
# Tom and Jerry talk

Each of the two programs of `Message` forks, and one of its processes writes what is typed while the
other prints what comes. A FIFO carries bytes and not messages: nothing ends a message, so a `read`
brings whatever the pipe holds, up to the size of the buffer. Over any run, all bytes come through
in their order (until a reader runs out of its buffer), but they come message by message exactly if
no message is written before the one in front of it has been read, and none fills the reader's
buffer (`read_apart_iff`).

## Texts and messages

The messages are what the writer has written, the texts what the other side has read so far, one
for each `read`, with what is still in the FIFO at the end. The bytes of both are the same as long
as the reader runs. A write into a FIFO that is not empty joins two messages, and they are not taken
apart again: a `read` that leaves bytes behind has filled the buffer, and the reader runs out of it.
So once there are fewer texts than messages, or bytes are lost, it stays like that
(`Channel.Mixed`).
-/

namespace CodeOnLinux

namespace FifoMessager

open Transition Lines Memory Stdio

/-! ## The programs -/

inductive Side
  | tom
  | jerry
  deriving DecidableEq

def Side.peer : Side → Side
  | .tom => .jerry
  | .jerry => .tom

def Side.name : Side → Name
  | .tom => FifoMessager.tom
  | .jerry => FifoMessager.jerry

def Side.writes : Side → Bytes → Checked Bytes
  | .tom => tomWrites
  | .jerry => jerryWrites

/-- How the other side reads. -/
def Side.peerReads : Side → Bytes → Checked (ℕ × Bytes)
  | .tom => jerryReads
  | .jerry => tomReads

/-- `overrun` has left its buffer. -/
inductive Process
  | running
  | overrun
  | ended
  deriving DecidableEq

/-- One direction: the writer is a process of the one side, the reader one of the other. -/
structure Channel where
  /-- What the one side has not typed yet. -/
  stdin : Bytes
  /-- Not in the source: the lines that were written. -/
  lines : List Bytes
  /-- The FIFO. -/
  pipe : Bytes
  /-- What the other side has printed. -/
  printed : List Bytes
  /-- What the writer is doing. -/
  writer : Process
  /-- What the reader is doing. -/
  reader : Process

/-- After both sides have forked. -/
def init (stdin : Side → Bytes) (i : Side) : Channel where
  stdin := stdin i
  lines := []
  pipe := []
  printed := []
  writer := .running
  reader := .running

/-- Both processes of a side are gone, and with them its ends of the two FIFOs. -/
def Gone (s : Side → Channel) (i : Side) : Prop :=
  (s i).writer = .ended ∧ (s i.peer).reader = .ended

instance decidableGone (s : Side → Channel) (i : Side) : Decidable (Gone s i) :=
  inferInstanceAs (Decidable (_ ∧ _))

inductive Label
  | write (i : Side)
  /-- `write` fails, or the process is killed. -/
  | writerEnds (i : Side)
  /-- The other side of `i` reads. -/
  | read (i : Side)
  | readerEnds (i : Side)

/-- At the end of the input `fgets` stores nothing, and the buffer is all zeros. -/
abbrev Channel.typed (c : Channel) : Bytes × Bytes := typedLine size c.stdin

def Channel.writeTurn (c : Channel) (message : Bytes) : Channel :=
  { c with
    stdin := c.typed.2
    lines := c.lines ++ [c.typed.1]
    pipe := c.pipe ++ message }

def Channel.readTurn (c : Channel) (i : Side) : Channel :=
  match i.peerReads c.pipe with
  | .ok (_, text) => { c with pipe := c.pipe.drop size, printed := c.printed ++ [text] }
  | .error _ => { c with pipe := c.pipe.drop size, reader := .overrun }

/-- A write for which the FIFO has no room waits. From an empty one that nobody has open for writing
`read` returns 0, and an empty line is printed. -/
def step (capacity : ℕ) (s : Side → Channel) : Label → Option (Side → Channel)
  | .write i =>
    match i.writes (s i).typed.1 with
    | .ok message =>
      guarded ((s i).writer = .running ∧ ¬Gone s i.peer ∧
          (s i).pipe.length + message.length ≤ capacity)
        (Function.update s i ((s i).writeTurn message))
    | .error _ =>
      guarded ((s i).writer = .running)
        (Function.update s i { s i with stdin := (s i).typed.2, writer := .overrun })
  | .writerEnds i =>
    guarded ((s i).writer ≠ .ended) (Function.update s i { s i with writer := .ended })
  | .read i =>
    guarded ((s i).reader = .running ∧ ((s i).pipe ≠ [] ∨ Gone s i))
      (Function.update s i ((s i).readTurn i))
  | .readerEnds i =>
    guarded ((s i).reader ≠ .ended) (Function.update s i { s i with reader := .ended })

/-! ## Messages -/

/-- What is written for a line. -/
def message (i : Side) (line : Bytes) : Bytes := i.name.text ++ chomp (cString line)

theorem Side.writes_eq (i : Side) : i.writes = writeTurn i.name.text := by
  cases i <;> rfl

theorem Side.peerReads_eq (i : Side) : i.peerReads = readTurn := by
  cases i <;> rfl

theorem message_ne_nil (i : Side) (line : Bytes) : message i line ≠ [] := by
  refine List.append_ne_nil_of_left_ne_nil ?_ _
  cases i <;> decide

theorem zero_notMem_message (i : Side) (line : Bytes) : 0 ∉ message i line := by
  rw [message, List.mem_append, not_or]
  exact ⟨i.name.zero_notMem, zero_notMem_chomp (zero_notMem_cString _)⟩

/-- The buffer of a writer at the end of his input is that of an empty string. -/
theorem writeTurn_nil (name : Bytes) : writeTurn name [] = writeTurn name [0] := by
  have hpadded : padded size [] = padded size [0] := by
    rw [padded, padded, List.nil_append, List.singleton_append, ← List.replicate_succ]
    rfl
  rw [writeTurn, writeTurn, hpadded]

theorem Channel.writes_eq (c : Channel) (i : Side) {m : Bytes}
    (h : i.writes c.typed.1 = .ok m) : m = message i c.typed.1 := by
  rw [i.writes_eq] at h
  have hhead : c.typed.1.head? ≠ some 0 := fun hhead ↦ by
    rw [writeTurn_error _ (length_typedLine_lt _ (by decide)) hhead] at h
    cases h
  have hne : c.typed.1 ≠ [] := fun hnil ↦ by
    rw [hnil, writeTurn_nil, writeTurn_error _ (by decide) rfl] at h
    cases h
  have hok := writeTurn_ok i.name
    ⟨c.typed.1, hne, length_typedLine_lt _ (by decide), lf_notMem_dropLast_typedLine _⟩ hhead
  exact Except.ok.inj (h.symm.trans hok)

/-! ## Message by message -/

/-- The texts that have come; the last one may still be in the FIFO. -/
def Channel.texts (c : Channel) : List Bytes := (c.printed ++ [c.pipe]).filter (· ≠ [])

def Channel.messages (c : Channel) (i : Side) : List Bytes := c.lines.map (message i)

/-- The step reads less than a buffer, or puts a message into an empty FIFO. -/
def Apart (i : Side) (s : Side → Channel) : Label → Prop
  | .write j => j = i → (i.writes (s i).typed.1).isOk = true → (s i).pipe = []
  | .read j => j = i → (s i).pipe.length < size
  | _ => True

/-- Two messages have come as one, or bytes have been lost. -/
def Channel.Mixed (c : Channel) (i : Side) : Prop :=
  c.texts.length < (c.messages i).length ∨
    (c.printed ++ [c.pipe]).flatten.length < (c.messages i).flatten.length

/-- Bytes are lost only by a reader who leaves his buffer; and what has been mixed is mixed. -/
structure Channel.Inv (input : Bytes) (i : Side) (c : Channel) : Prop where
  /-- The lines are what was typed. -/
  typed : c.writer = .running → c.lines.flatten ++ c.stdin = input
  /-- No NUL is written. -/
  zero : 0 ∉ c.pipe
  /-- While the reader runs, every byte was printed or is in the FIFO. -/
  bytes : c.reader = .running → (c.printed ++ [c.pipe]).flatten = (c.messages i).flatten
  /-- No byte is printed twice. -/
  le : (c.printed ++ [c.pipe]).flatten.length ≤ (c.messages i).flatten.length
  /-- The texts are the messages, or some of them came together. -/
  apart : c.texts = c.messages i ∨ c.Mixed i

section

variable {input : Bytes} {i : Side} {c d : Channel}

theorem Channel.inv_init (stdin : Side → Bytes) (i : Side) : (init stdin i).Inv (stdin i) i where
  typed _ := rfl
  zero := List.not_mem_nil
  bytes _ := rfl
  le := le_refl _
  apart := Or.inl rfl

theorem Channel.Mixed.ne (h : c.Mixed i) : c.texts ≠ c.messages i := by
  intro htexts
  rcases h with hlt | hlt
  · rw [htexts] at hlt
    exact lt_irrefl _ hlt
  · rw [← htexts, Channel.texts, List.flatten_filter_ne_nil] at hlt
    exact lt_irrefl _ hlt

/-- What has to be shown of a step. -/
theorem Channel.apart_of {C : Prop} (hs : c.Inv input i)
    (hkeep : c.texts = c.messages i → C → d.texts = d.messages i)
    (hmixed : c.Mixed i → d.Mixed i) (hbreak : c.texts = c.messages i → ¬C → d.Mixed i) :
    (d.texts = d.messages i ∨ d.Mixed i) ∧
      (d.texts = d.messages i ↔ c.texts = c.messages i ∧ C) := by
  rcases hs.apart with htexts | hm
  · by_cases hC : C
    · exact ⟨Or.inl (hkeep htexts hC), iff_of_true (hkeep htexts hC) ⟨htexts, hC⟩⟩
    · have hm := hbreak htexts hC
      exact ⟨Or.inr hm, iff_of_false hm.ne fun h ↦ hC h.2⟩
  · exact ⟨Or.inr (hmixed hm), iff_of_false (hmixed hm).ne fun h ↦ hm.ne h.1⟩

/-- Neither the FIFO nor what has been printed changes. -/
theorem Channel.Inv.congr (hs : c.Inv input i) (hlines : d.lines = c.lines)
    (hpipe : d.pipe = c.pipe) (hprinted : d.printed = c.printed)
    (htyped : d.writer = .running → c.writer = .running ∧ d.stdin = c.stdin)
    (hreader : d.reader = .running → c.reader = .running) :
    d.Inv input i ∧ (d.texts = d.messages i ↔ c.texts = c.messages i) := by
  have htexts : d.texts = c.texts := by rw [Channel.texts, Channel.texts, hprinted, hpipe]
  have hmessages : d.messages i = c.messages i := by
    rw [Channel.messages, Channel.messages, hlines]
  refine ⟨⟨fun h ↦ ?_, hpipe ▸ hs.zero, fun h ↦ ?_, ?_, ?_⟩, by rw [htexts, hmessages]⟩
  · rw [hlines, (htyped h).2]
    exact hs.typed (htyped h).1
  · rw [hprinted, hpipe, hmessages]
    exact hs.bytes (hreader h)
  · rw [hprinted, hpipe, hmessages]
    exact hs.le
  · rw [Channel.Mixed, htexts, hprinted, hpipe, hmessages]
    exact hs.apart

/-- A message that is written while the FIFO is not empty is mixed with the one before it. -/
theorem Channel.Inv.write (hs : c.Inv input i) (hrunning : c.writer = .running) {m : Bytes}
    (hm : m = message i c.typed.1) : (c.writeTurn m).Inv input i ∧
      ((c.writeTurn m).texts = (c.writeTurn m).messages i ↔
        c.texts = c.messages i ∧ c.pipe = []) := by
  have hne : m ≠ [] := hm ▸ message_ne_nil i _
  have hmessages : (c.writeTurn m).messages i = c.messages i ++ [m] := by
    rw [Channel.messages, Channel.writeTurn, List.map_append, hm]
    rfl
  have htexts : (c.writeTurn m).texts = c.printed.filter (· ≠ []) ++ [c.pipe ++ m] := by
    have hpipe : c.pipe ++ m ≠ [] := List.append_ne_nil_of_right_ne_nil _ hne
    rw [Channel.texts, List.filter_append]
    exact congrArg _ (List.filter_cons_of_pos (decide_eq_true hpipe))
  have hbytes : ((c.writeTurn m).printed ++ [(c.writeTurn m).pipe]).flatten =
      (c.printed ++ [c.pipe]).flatten ++ m := by
    simp [Channel.writeTurn]
  have hflatten : (c.messages i ++ [m]).flatten = (c.messages i).flatten ++ m := by
    rw [List.flatten_append, List.flatten_singleton]
  have hgroups : (c.printed.filter (· ≠ [])).length ≤ c.texts.length := by
    rw [Channel.texts, List.filter_append, List.length_append]
    exact Nat.le_add_right _ _
  have hboth := Channel.apart_of (d := c.writeTurn m) (C := c.pipe = []) hs ?_ ?_ ?_
  · refine ⟨⟨fun _ ↦ ?_, ?_, fun hreader ↦ ?_, ?_, hboth.1⟩, hboth.2⟩
    · simp only [Channel.writeTurn, List.flatten_append, List.flatten_singleton, List.append_assoc,
        typedLine_append, hs.typed hrunning]
    · simp only [Channel.writeTurn, List.mem_append, not_or]
      exact ⟨hs.zero, hm ▸ zero_notMem_message i _⟩
    · rw [hbytes, hmessages, hflatten, hs.bytes hreader]
    · rw [hbytes, hmessages, hflatten, List.length_append, List.length_append]
      exact Nat.add_le_add_right hs.le _
  · intro hgood hpipe
    rw [htexts, hmessages, ← hgood, Channel.texts, hpipe, List.filter_append]
    simp
  · rintro (hlt | hlt)
    · left
      rw [htexts, hmessages, List.length_append, List.length_append]
      exact Nat.add_lt_add_right (hgroups.trans_lt hlt) 1
    · right
      rw [hbytes, hmessages, hflatten, List.length_append, List.length_append]
      exact Nat.add_lt_add_right hlt _
  · intro hgood hpipe
    left
    have hlength : c.texts.length = (c.printed.filter (· ≠ [])).length + 1 := by
      rw [Channel.texts, List.filter_append, List.length_append,
        List.filter_cons_of_pos (by simpa using hpipe)]
      rfl
    rw [htexts, hmessages, ← hgood, List.length_append, List.length_append, hlength]
    exact Nat.lt_succ_self _

/-- A reader prints all that the FIFO holds, or leaves his buffer. -/
theorem Channel.Inv.read (hs : c.Inv input i) : (c.readTurn i).Inv input i ∧
    ((c.readTurn i).texts = (c.readTurn i).messages i ↔
      c.texts = c.messages i ∧ c.pipe.length < size) := by
  by_cases hlt : c.pipe.length < size
  · have hread : c.readTurn i =
        { c with pipe := [], printed := c.printed ++ [c.pipe] } := by
      rw [Channel.readTurn, i.peerReads_eq, readTurn_ok hlt hs.zero, List.drop_eq_nil_of_le hlt.le]
    rw [hread]
    have htexts : Channel.texts { c with pipe := [], printed := c.printed ++ [c.pipe] } =
        c.texts := by
      rw [Channel.texts, List.filter_append]
      exact List.append_nil _
    have hbytes : (c.printed ++ [c.pipe] ++ [[]]).flatten = (c.printed ++ [c.pipe]).flatten := by
      simp
    have hboth := Channel.apart_of (C := c.pipe.length < size)
      (d := { c with pipe := [], printed := c.printed ++ [c.pipe] }) hs ?_ ?_ ?_
    · refine ⟨⟨hs.typed, List.not_mem_nil, fun hreader ↦ ?_, ?_, hboth.1⟩, hboth.2⟩
      · exact hbytes.trans (hs.bytes hreader)
      · exact (congrArg List.length hbytes).trans_le hs.le
    · exact fun hgood _ ↦ htexts.trans hgood
    · refine Or.imp (fun h ↦ ?_) fun h ↦ ?_
      · exact (congrArg List.length htexts).trans_lt h
      · exact (congrArg List.length hbytes).trans_lt h
    · exact fun _ hlong ↦ absurd hlt hlong
  · have hread : c.readTurn i =
        { c with pipe := c.pipe.drop size, reader := .overrun } := by
      rw [Channel.readTurn, i.peerReads_eq, readTurn_error (Nat.le_of_not_lt hlt) hs.zero]
    rw [hread]
    have hlost : (c.printed ++ [c.pipe.drop size]).flatten.length <
        (c.printed ++ [c.pipe]).flatten.length := by
      simp only [List.flatten_append, List.flatten_singleton, List.length_append, List.length_drop]
      have hsize : 0 < size := by decide
      omega
    have hboth := Channel.apart_of (C := c.pipe.length < size)
      (d := { c with pipe := c.pipe.drop size, reader := .overrun }) hs ?_ ?_ ?_
    · refine ⟨⟨hs.typed, fun hmem ↦ hs.zero (List.mem_of_mem_drop hmem), ?_, ?_, hboth.1⟩, hboth.2⟩
      · exact Process.noConfusion
      · exact hlost.le.trans hs.le
    · exact fun _ hC ↦ absurd hC hlt
    · exact fun _ ↦ Or.inr (hlost.trans_le hs.le)
    · exact fun _ _ ↦ Or.inr (hlost.trans_le hs.le)

end

/-! ## Runs -/

section

variable {input : Bytes} {i : Side} {capacity : ℕ} {s t : Side → Channel} {a : Label}

/-- Only the channel that the step is for changes. -/
theorem inv_update {j : Side} {d : Channel} (hs : (s i).Inv input i) (hother : j ≠ i → Apart i s a)
    (hown : j = i → d.Inv input i ∧
      (d.texts = d.messages i ↔ (s i).texts = (s i).messages i ∧ Apart i s a)) :
    (Function.update s j d i).Inv input i ∧
      ((Function.update s j d i).texts = (Function.update s j d i).messages i ↔
        (s i).texts = (s i).messages i ∧ Apart i s a) := by
  by_cases hj : j = i
  · obtain rfl := hj
    rw [Function.update_self]
    exact hown rfl
  · rw [Function.update_of_ne (Ne.symm hj), and_iff_left (hother hj)]
    exact ⟨hs, Iff.rfl⟩

theorem inv_step (hs : (s i).Inv input i) (hstep : step capacity s a = some t) :
    (t i).Inv input i ∧
      ((t i).texts = (t i).messages i ↔ (s i).texts = (s i).messages i ∧ Apart i s a) := by
  cases a with
  | write j =>
    rw [step] at hstep
    split at hstep
    · next m hm =>
      obtain ⟨⟨hrunning, -⟩, rfl⟩ := guarded_eq_some.mp hstep
      refine inv_update hs (fun hj h ↦ absurd h hj) ?_
      rintro rfl
      have hapart : Apart j s (.write j) ↔ (s j).pipe = [] := by
        simp [Apart, hm, Except.isOk, Except.toBool]
      rw [hapart]
      exact hs.write hrunning ((s j).writes_eq j hm)
    · next e he =>
      obtain ⟨hrunning, rfl⟩ := guarded_eq_some.mp hstep
      refine inv_update hs (fun hj h ↦ absurd h hj) ?_
      rintro rfl
      have hapart : Apart j s (.write j) := by simp [Apart, he, Except.isOk, Except.toBool]
      rw [and_iff_left hapart]
      exact hs.congr rfl rfl rfl Process.noConfusion id
  | read j =>
    obtain ⟨⟨hrunning, -⟩, rfl⟩ := guarded_eq_some.mp hstep
    refine inv_update hs (fun hj h ↦ absurd h hj) ?_
    rintro rfl
    have hapart : Apart j s (.read j) ↔ (s j).pipe.length < size := forall_prop_of_true rfl
    rw [hapart]
    exact hs.read
  | writerEnds j =>
    obtain ⟨-, rfl⟩ := guarded_eq_some.mp hstep
    refine inv_update hs (fun _ ↦ trivial) ?_
    rintro rfl
    rw [and_iff_left (show Apart j s (.writerEnds j) from trivial)]
    exact hs.congr rfl rfl rfl Process.noConfusion id
  | readerEnds j =>
    obtain ⟨-, rfl⟩ := guarded_eq_some.mp hstep
    refine inv_update hs (fun _ ↦ trivial) ?_
    rintro rfl
    rw [and_iff_left (show Apart j s (.readerEnds j) from trivial)]
    exact hs.congr rfl rfl rfl (fun h ↦ ⟨h, rfl⟩) Process.noConfusion

end

/-- **Message by message.** Whatever the two type, and whenever the four processes run. What is
typed on a side is in its lines while the writer runs; what they make up is printed by the other
side, byte for byte, but for what the FIFO holds, while the reader runs. And the texts that come are
the messages, one for one, if and only if none was written into a FIFO that was not empty, and none
that filled the buffer was read. -/
theorem read_apart_iff {stdin : Side → Bytes} {capacity : ℕ} {labels : List Label}
    {s : Side → Channel} (hrun : run (step capacity) (init stdin) labels = some s) (i : Side) :
    ((s i).writer = .running → (s i).lines.flatten ++ (s i).stdin = stdin i) ∧
      ((s i).reader = .running →
        (s i).printed.flatten ++ (s i).pipe = ((s i).lines.map (message i)).flatten) ∧
      (((s i).printed ++ [(s i).pipe]).filter (· ≠ []) = (s i).lines.map (message i) ↔
        Along (step capacity) (Apart i) (init stdin) labels) := by
  have hs : (s i).Inv (stdin i) i := invariant_of_run (I := fun s ↦ (s i).Inv (stdin i) i)
    (fun _ _ _ hs hstep ↦ (inv_step hs hstep).1) (Channel.inv_init stdin i) hrun
  have hiff := holds_iff_along (I := fun s ↦ (s i).Inv (stdin i) i)
    (P := fun s ↦ (s i).texts = (s i).messages i) (fun _ _ _ hs hstep ↦ (inv_step hs hstep).1)
    (fun _ _ _ hs hstep ↦ (inv_step hs hstep).2) (Channel.inv_init stdin i) hrun
  rw [and_iff_right (show (init stdin i).texts = (init stdin i).messages i from rfl)] at hiff
  refine ⟨hs.typed, fun hreader ↦ ?_, hiff⟩
  have hbytes := hs.bytes hreader
  rwa [List.flatten_append, List.flatten_singleton] at hbytes

/-- Jerry's reader waits until Tom has written two lines. -/
def waits : List Label := [.write .tom, .write .tom, .read .tom]

theorem not_read_apart_waits : ∃ s,
    run (step 65536) (init fun _ ↦ ascii "to\nbe\n") waits = some s ∧
      (s .tom).printed = [ascii "Tom:toTom:be"] ∧
      (s .tom).lines.map (message .tom) = [ascii "Tom:to", ascii "Tom:be"] ∧
      ¬Along (step 65536) (Apart .tom) (init fun _ ↦ ascii "to\nbe\n") waits := by
  have hend : (run (step 65536) (init fun _ ↦ ascii "to\nbe\n") waits).map
      (fun s ↦ ((s .tom).printed, (s .tom).pipe, (s .tom).lines)) =
        some ([ascii "Tom:toTom:be"], [], [ascii "to\n", ascii "be\n"]) := by decide +kernel
  obtain ⟨s, hrun, hs⟩ := Option.map_eq_some_iff.mp hend
  obtain ⟨hprinted, hpipe, hlines⟩ : (s .tom).printed = [ascii "Tom:toTom:be"] ∧
      (s .tom).pipe = [] ∧ (s .tom).lines = [ascii "to\n", ascii "be\n"] := by
    simpa only [Prod.mk.injEq] using hs
  refine ⟨s, hrun, hprinted, by rw [hlines]; decide, fun halong ↦ ?_⟩
  have htexts := (read_apart_iff hrun .tom).2.2.mpr halong
  rw [hprinted, hpipe, hlines] at htexts
  exact absurd htexts (by decide)

end FifoMessager

end CodeOnLinux
