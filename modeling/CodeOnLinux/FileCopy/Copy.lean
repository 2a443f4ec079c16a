import CodeOnLinux.Foundation.Blocks
import CodeOnLinux.Foundation.Machine
import Mathlib.Order.Filter.AtTopBot.Basic

/-!
# Copying a file: `99_Homework_file_copy/file_copy.c`

The program copies in blocks: what a `read` brings is given to one `write`. Of the number of bytes
that `write` returns it looks at the sign only, so a block that is not taken whole loses its end.
The destination is opened without `O_TRUNC`, so what it held behind the copy stays there.

The loop is embedded over a `System`, the calls it makes, and run on a `Disk` where every `read` and
every `write` may be short, but not empty. What the writes take of the source is `taken`; the
destination ends as `taken` over its old content (`fileCopy_eventually`), and that is the source in
the two cases of `copies_iff` only.
-/

namespace CodeOnLinux

namespace FileCopy

open Blocks Filter

/-! ## The program -/

/-- The system calls of the program. -/
structure System (ω : Type) where
  /-- `open(src, O_RDONLY)` -/
  openRead : ω → ℤ × ω
  /-- `open(dest, O_WRONLY|O_CREAT, 0666)` -/
  openWrite : ω → ℤ × ω
  /-- `read`; `none` is `-1`. -/
  read : ℤ → ℕ → ω → Option Bytes × ω
  /-- `write` -/
  write : ℤ → Bytes → ω → ℤ × ω
  /-- `close` -/
  close : ℤ → ω → ω

/-- `SIZE` -/
def size : ℕ := 512

section

variable {ω : Type} (k : System ω)

def copyLoop (fd newFd : ℤ) : ℕ → ω → Checked ω
  | 0, _ => .error .outOfFuel
  | fuel + 1, w =>
    match k.read fd size w with
    | (some (b :: buffer), w) =>
      let (retWrite, w) := k.write newFd (b :: buffer) w
      if retWrite ≤ 0 then .ok w else copyLoop fd newFd fuel w
    | (_, w) => .ok w

/-- `main` with two arguments. It falls through to the labels behind the loop, so it closes the
source twice and returns 1 in any case. -/
def fileCopy (fuel : ℕ) (w : ω) : Checked (ℤ × ω) := do
  let (fd, w) := k.openRead w
  if fd = -1 then return (1, w)
  let (newFd, w) := k.openWrite w
  if newFd = -1 then return (1, k.close fd w)
  let w ← copyLoop k fd newFd fuel w
  return (1, k.close fd (k.close newFd (k.close fd w)))

end

/-! ## The disk -/

/-- The two files. -/
structure Disk where
  /-- The rest of the source. -/
  source : Bytes
  /-- How many times `read` was called. -/
  reads : ℕ
  /-- The destination, once it exists. -/
  dest : Option Bytes
  /-- The position in it. -/
  pos : ℕ
  /-- How many times `write` was called. -/
  writes : ℕ

/-- The content after `data` has been written at a position that is not behind its end. -/
def overwrite (content : Bytes) (pos : ℕ) (data : Bytes) : Bytes :=
  content.take pos ++ (data ++ content.drop (pos + data.length))

/-- A file that is opened for writing keeps its content; one that is absent is created empty. The
`i`-th `read` brings what `lengths i` says and the `i`-th `write` takes what `rooms i` says, each at
least one byte and no more than there is. -/
def disk (lengths rooms : ℕ → ℕ) : System Disk where
  openRead w := (3, w)
  openWrite w := (4, { w with dest := some (w.dest.getD []), pos := 0 })
  read _ n w :=
    (some (w.source.take (partLength n (lengths w.reads))),
      { w with
        source := w.source.drop (partLength n (lengths w.reads))
        reads := w.reads + 1 })
  write _ data w :=
    let part := data.take (partLength data.length (rooms w.writes))
    (part.length,
      { w with
        dest := some (overwrite (w.dest.getD []) w.pos part)
        pos := w.pos + part.length
        writes := w.writes + 1 })
  close _ w := w

def Disk.start (source : Bytes) (dest : Option Bytes) : Disk := ⟨source, 0, dest, 0, 0⟩

section

variable (lengths rooms : ℕ → ℕ) (source : Bytes)

/-- The lengths of the blocks, as long as the source lasts. -/
def blockLength (i : ℕ) : ℕ := partLength size (lengths i)

/-- The block that the `i`-th `read` brings. -/
def sourceBlock (i : ℕ) : Bytes := block (blockLength lengths) source i

/-- How much of it the `i`-th `write` takes. -/
def room (i : ℕ) : ℕ := partLength (sourceBlock lengths source i).length (rooms i)

/-- What the writes take of the source. -/
def taken : Bytes :=
  offered (blockLength lengths) (room lengths rooms source) source (source.length + 1) 0

end

variable {lengths rooms : ℕ → ℕ} {source : Bytes}

/-- Data that is written behind what has been copied. -/
theorem overwrite_append (done old data : Bytes) :
    overwrite (done ++ old.drop done.length) done.length data =
      (done ++ data) ++ old.drop (done ++ data).length := by
  have hbehind : (done ++ old.drop done.length).drop (done.length + data.length) =
      old.drop (done ++ data).length := by
    rw [← List.drop_drop, List.drop_left, List.drop_drop, List.length_append]
  rw [overwrite, List.take_left, hbehind, List.append_assoc]

theorem blockLength_pos (lengths : ℕ → ℕ) (i : ℕ) : 0 < blockLength lengths i := partLength_pos _ _

/-- The blocks that have been read were written over the content `old`; of the source, the writes
have taken `done`. -/
structure Copied (lengths : ℕ → ℕ) (source old : Bytes) (w : Disk) (done : Bytes) : Prop where
  /-- Each block was written. -/
  writes : w.writes = w.reads
  /-- The rest begins behind the blocks that were read. -/
  source : w.source = source.drop (offset (blockLength lengths) w.reads)
  /-- What was taken stands in front of what is left of the old content. -/
  dest : w.dest = some (done ++ old.drop done.length)
  /-- The position is behind it. -/
  pos : w.pos = done.length

theorem copied_start (lengths : ℕ → ℕ) (source old : Bytes) :
    Copied lengths source old ⟨source, 0, some old, 0, 0⟩ [] := ⟨rfl, rfl, rfl, rfl⟩

section

variable {old done : Bytes} {w : Disk}

theorem Copied.read (h : Copied lengths source old w done) (rooms : ℕ → ℕ) (fd : ℤ) :
    (disk lengths rooms).read fd size w = (some (sourceBlock lengths source w.reads),
      { w with
        source := w.source.drop (blockLength lengths w.reads)
        reads := w.reads + 1 }) := by
  simp only [disk, sourceBlock, block, h.source, blockLength]

/-- At the end of the source the loop is over. -/
theorem Copied.copyLoop_of_nil (h : Copied lengths source old w done) (rooms : ℕ → ℕ) (fd newFd : ℤ)
    (fuel : ℕ) (hblock : sourceBlock lengths source w.reads = []) :
    ∃ w', copyLoop (disk lengths rooms) fd newFd (fuel + 1) w = .ok w' ∧ w'.dest = w.dest := by
  rw [copyLoop, h.read, hblock]
  exact ⟨_, rfl, rfl⟩

/-- **One turn.** The write takes a part of the block that is not empty. -/
theorem Copied.copyLoop_of_ne_nil (h : Copied lengths source old w done) (rooms : ℕ → ℕ)
    (fd newFd : ℤ) (fuel : ℕ) (hblock : sourceBlock lengths source w.reads ≠ []) :
    ∃ w', copyLoop (disk lengths rooms) fd newFd (fuel + 1) w =
        copyLoop (disk lengths rooms) fd newFd fuel w' ∧ w'.reads = w.reads + 1 ∧
      Copied lengths source old w' (done ++
        (sourceBlock lengths source w.reads).take (room lengths rooms source w.reads)) := by
  have hroom : partLength (sourceBlock lengths source w.reads).length (rooms w.writes) =
      room lengths rooms source w.reads := by rw [room, h.writes]
  have hpos : 0 < room lengths rooms source w.reads := partLength_pos _ _
  rw [copyLoop, h.read]
  obtain ⟨b, l, hcons⟩ := List.exists_cons_of_ne_nil hblock
  rw [hcons] at hroom ⊢
  generalize hpart : (b :: l).take (room lengths rooms source w.reads) = part
  have hret : ¬(part.length : ℤ) ≤ 0 := by
    rw [← hpart, List.length_take, List.length_cons]
    omega
  refine ⟨{ w with
    source := w.source.drop (blockLength lengths w.reads)
    reads := w.reads + 1
    dest := some (overwrite (done ++ old.drop done.length) done.length part)
    pos := done.length + part.length
    writes := w.writes + 1 }, ?_, rfl, ?_⟩
  · simp only [disk, h.dest, Option.getD_some, h.pos, hroom, hpart, if_neg hret]
  · refine ⟨congrArg (· + 1) h.writes, ?_, ?_, List.length_append.symm⟩
    · exact (congrArg (List.drop _) h.source).trans (drop_drop_offset _ source w.reads)
    · exact congrArg some (overwrite_append done old part)

/-- **The loop** writes what the writes take of each block over the old content. -/
theorem copyLoop_eq (h : Copied lengths source old w done) (rooms : ℕ → ℕ) (fd newFd : ℤ)
    {fuel : ℕ} (hfuel : w.source.length < fuel) :
    ∃ w' all, copyLoop (disk lengths rooms) fd newFd fuel w = .ok w' ∧
      all = done ++
        offered (blockLength lengths) (room lengths rooms source) source fuel w.reads ∧
      w'.dest = some (all ++ old.drop all.length) := by
  induction fuel generalizing w done with
  | zero => exact absurd hfuel (Nat.not_lt_zero _)
  | succ fuel ih =>
    by_cases hblock : sourceBlock lengths source w.reads = []
    · obtain ⟨w', hw', hdest⟩ := h.copyLoop_of_nil rooms fd newFd fuel hblock
      have hover := drop_offset_eq_nil (blockLength_pos lengths w.reads) hblock
      refine ⟨w', done, hw', ?_, hdest.trans h.dest⟩
      rw [offered_of_nil hover, List.append_nil]
    · obtain ⟨w₁, hturn, hreads, h₁⟩ := h.copyLoop_of_ne_nil rooms fd newFd fuel hblock
      have hless := length_drop_offset_lt hblock
      rw [← h.source, ← hreads, ← h₁.source] at hless
      obtain ⟨w', all, hw', hall, hdest⟩ := ih h₁ (by omega)
      have hroom : room lengths rooms source w.reads ≠ 0 := (partLength_pos _ _).ne'
      refine ⟨w', all, hturn.trans hw', ?_, hdest⟩
      rw [hall, hreads, offered_of_room hroom, List.append_assoc]
      rfl

end

/-! ## The copy -/

/-- The program ends, and the destination holds the source. -/
def Copies (lengths rooms : ℕ → ℕ) (source : Bytes) (dest : Option Bytes) : Prop :=
  ∀ᶠ fuel in atTop, ∃ w, fileCopy (disk lengths rooms) fuel (.start source dest) = .ok (1, w) ∧
    w.dest = some source

/-- Every write takes its whole block. -/
def FullWrites (lengths rooms : ℕ → ℕ) (source : Bytes) : Prop :=
  ∀ i, (sourceBlock lengths source i).length ≤ room lengths rooms source i

theorem taken_eq_iff : taken lengths rooms source = source ↔ FullWrites lengths rooms source := by
  have hiff : taken lengths rooms source = source ↔
      ∀ i, 0 ≤ i → (sourceBlock lengths source i).length ≤ room lengths rooms source i :=
    offered_eq_iff (blockLength_pos lengths) (Nat.lt_succ_self _)
  exact hiff.trans ⟨fun h i ↦ h i (Nat.zero_le i), fun h i _ ↦ h i⟩

/-- What the program leaves: the bytes that were taken, and the old content behind them. -/
theorem fileCopy_eq (lengths rooms : ℕ → ℕ) (dest : Option Bytes) {fuel : ℕ}
    (hfuel : source.length < fuel) :
    ∃ w, fileCopy (disk lengths rooms) fuel (.start source dest) = .ok (1, w) ∧
      w.dest = some (taken lengths rooms source ++
        (dest.getD []).drop (taken lengths rooms source).length) := by
  obtain ⟨w, all, hw, hall, hdest⟩ :=
    copyLoop_eq (copied_start lengths source (dest.getD [])) rooms 3 4 hfuel
  have htaken : all = taken lengths rooms source := by
    rw [hall, List.nil_append]
    exact offered_eq_offered (blockLength_pos lengths) hfuel (Nat.lt_succ_self _)
  have hopen : (disk lengths rooms).openRead (.start source dest) = (3, .start source dest) := rfl
  have hopen' : (disk lengths rooms).openWrite (.start source dest) =
      (4, ⟨source, 0, some (dest.getD []), 0, 0⟩) := rfl
  have hthree : ¬(3 : ℤ) = -1 := by decide
  have hfour : ¬(4 : ℤ) = -1 := by decide
  refine ⟨w, ?_, htaken ▸ hdest⟩
  rw [fileCopy, hopen]
  simp only [if_neg hthree, hopen', if_neg hfour, hw, Checked.ok_bind]
  rfl

theorem copies_iff_append {dest : Option Bytes} : Copies lengths rooms source dest ↔
    taken lengths rooms source ++ (dest.getD []).drop (taken lengths rooms source).length =
      source := by
  constructor
  · intro h
    obtain ⟨fuel, ⟨w, hw, hdest⟩, hfuel⟩ := (h.and (eventually_gt_atTop source.length)).exists
    obtain ⟨w', hw', hdest'⟩ := fileCopy_eq lengths rooms dest hfuel
    obtain rfl : w = w' := (Prod.mk.inj (Except.ok.inj (hw.symm.trans hw'))).2
    exact Option.some_inj.mp (hdest'.symm.trans hdest)
  · intro h
    filter_upwards [eventually_gt_atTop source.length] with fuel hfuel
    obtain ⟨w, hw, hdest⟩ := fileCopy_eq lengths rooms dest hfuel
    exact ⟨w, hw, hdest.trans (congrArg some h)⟩

/-- **An exact copy.** Whatever the lengths of the reads and the writes, the destination ends as the
source exactly if every write took its whole block and the old content was not longer than the
source; or, with a short write, if what was taken is a front of the source and the old content goes
on from there like the source. -/
theorem copies_iff (lengths rooms : ℕ → ℕ) (source : Bytes) (dest : Option Bytes) :
    Copies lengths rooms source dest ↔
      (FullWrites lengths rooms source ∧ (dest.getD []).length ≤ source.length) ∨
      (¬FullWrites lengths rooms source ∧ taken lengths rooms source <+: source ∧
        (dest.getD []).drop (taken lengths rooms source).length =
          source.drop (taken lengths rooms source).length) := by
  rw [copies_iff_append]
  by_cases hfull : FullWrites lengths rooms source
  · have htaken := taken_eq_iff.mpr hfull
    rw [htaken, List.append_right_eq_self, List.drop_eq_nil_iff]
    simp [hfull]
  · have hsplit : ∀ front behind : Bytes,
        front ++ behind = source ↔ front <+: source ∧ behind = source.drop front.length := by
      intro front behind
      constructor
      · rintro rfl
        exact ⟨List.prefix_append _ _, (List.drop_left).symm⟩
      · rintro ⟨hpre, rfl⟩
        exact (List.prefix_iff_eq_append.mp hpre)
    rw [hsplit]
    simp [hfull]

/-- A fresh destination, which has nothing to make up for a short write. -/
theorem copies_none_iff : Copies lengths rooms source none ↔ FullWrites lengths rooms source := by
  rw [copies_iff_append, Option.getD_none, List.drop_nil, List.append_nil, taken_eq_iff]

/-- An old content that is longer, with full writes, and a write of one byte into a fresh file. -/
theorem not_copies :
    ¬Copies (fun _ ↦ size) (fun _ ↦ size) (ascii "ab") (some (ascii "xyz")) ∧
      ¬Copies (fun _ ↦ size) (fun _ ↦ 1) (ascii "ab") none := by
  constructor
  · rw [copies_iff_append]
    decide
  · rw [copies_none_iff]
    intro hfull
    exact absurd (hfull 0) (by decide)

end FileCopy

end CodeOnLinux
