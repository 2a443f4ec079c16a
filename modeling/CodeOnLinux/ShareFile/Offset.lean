import CodeOnLinux.FileCopy.Copy
import CodeOnLinux.Foundation.Transition

/-!
# Two processes with one file offset: `01_homework_01/test_share_file.c`

The child copies a file into `txt`, block by block, while its parent sleeps for a second, goes back
to the beginning of `txt` and prints what it reads. The descriptor of `txt` was opened before the
fork, so both use the same offset, and the second is all there is to keep them apart. A run is any
order of their system calls.

When a block is written somewhere in front of the end of `txt`, because the parent has moved the
offset, `txt` is too short from then on. So it ends as a copy of the file exactly if every block was
written, as a whole, at the end of `txt` (`copied_iff`).
-/

namespace CodeOnLinux

namespace ShareFile

open Transition Memory
open FileCopy (overwrite size)

/-! ## The program -/

inductive Child
  | reading
  | writing (block : Bytes)
  | ended
  deriving DecidableEq

inductive Parent
  | sleeping
  | reading
  | ended
  /-- `printf` has run out of `read_buffer`. -/
  | overrun
  deriving DecidableEq

/-- The two processes and the files. -/
structure State where
  /-- What is left of the file that is copied. -/
  rest : Bytes
  /-- `txt` -/
  txt : Bytes
  /-- The offset of `fd`. -/
  pos : ℕ
  /-- What the child is doing. -/
  child : Child
  /-- What the parent is doing. -/
  parent : Parent
  /-- The buffer of the parent. -/
  readBuffer : Bytes
  /-- What the parent has printed. -/
  printed : List Bytes
  /-- Not in the source: what the child has read, but for the block that it is about to write. -/
  copied : Bytes

/-- After `open` with `O_TRUNC`, `fork` and `memset`. -/
def start (file : Bytes) : State :=
  ⟨file, [], 0, .reading, .sleeping, List.replicate size 0, [], []⟩

inductive Label
  /-- The child reads `k` bytes, or finds the end of the file. -/
  | childReads (k : ℕ)
  | childReadFails
  /-- It writes its block, of which `k` bytes are taken; its result is not looked at. -/
  | childWrites (k : ℕ)
  | childWriteFails
  | seek
  | parentReads (k : ℕ)
  | parentReadFails

/-- What was read from `txt` goes to the front of the buffer, and the buffer is printed. -/
def State.print (s : State) (text : Bytes) : State :=
  let s := { s with pos := s.pos + text.length, readBuffer := overwrite s.readBuffer 0 text }
  match readStr s.readBuffer 0 with
  | .ok line => { s with printed := s.printed ++ [line] }
  | .error _ => { s with parent := .overrun }

def step (s : State) : Label → Option State
  | .childReads k =>
    if s.child = .reading then
      if s.rest = [] then some { s with child := .ended }
      else guarded (0 < k ∧ k ≤ min size s.rest.length)
        { s with child := .writing (s.rest.take k), rest := s.rest.drop k }
    else none
  | .childReadFails => guarded (s.child = .reading) { s with child := .ended }
  | .childWrites k =>
    match s.child with
    | .writing block => guarded (0 < k ∧ k ≤ block.length)
        { s with
          child := .reading
          txt := overwrite s.txt s.pos (block.take k)
          pos := s.pos + k
          copied := s.copied ++ block }
    | _ => none
  | .childWriteFails =>
    match s.child with
    | .writing block => some { s with child := .reading, copied := s.copied ++ block }
    | _ => none
  | .seek => guarded (s.parent = .sleeping) { s with parent := .reading, pos := 0 }
  | .parentReads k =>
    if s.parent = .reading then
      if s.txt.drop s.pos = [] then some { s with parent := .ended }
      else guarded (0 < k ∧ k ≤ min size (s.txt.drop s.pos).length)
        (s.print ((s.txt.drop s.pos).take k))
    else none
  | .parentReadFails => guarded (s.parent = .reading) { s with parent := .ended }

/-! ## The copy -/

/-- Where the child writes, it writes all of its block, at the end of `txt`. -/
def Appends (s : State) (a : Label) : Prop :=
  match a with
  | .childWrites k => s.pos = s.txt.length ∧ ∀ block, s.child = .writing block → k = block.length
  | .childWriteFails => False
  | _ => True

/-- The block that the child has read and not written yet. -/
def Child.pending : Child → Bytes
  | .writing block => block
  | _ => []

/-- The offset is not behind the end of `txt`, and `txt` is what was copied or is shorter. -/
structure Inv (file : Bytes) (s : State) : Prop where
  /-- The offset is not behind the end of `txt`. -/
  pos : s.pos ≤ s.txt.length
  /-- There is something to write. -/
  block : ∀ block, s.child = .writing block → block ≠ []
  /-- The file is what was copied, or is shorter. -/
  txt : s.txt = s.copied ∨ s.txt.length < s.copied.length
  /-- The source was read from its beginning. -/
  copied : s.copied ++ s.child.pending ++ s.rest = file

variable {file : Bytes} {s t : State} {a : Label}

theorem inv_start (file : Bytes) : Inv file (start file) where
  pos := le_rfl
  block block h := by cases h
  txt := Or.inl rfl
  copied := rfl

theorem length_overwrite {content : Bytes} (data : Bytes) {pos : ℕ} (h : pos ≤ content.length) :
    (overwrite content pos data).length = max content.length (pos + data.length) := by
  simp only [overwrite, List.length_append, List.length_take, List.length_drop]
  omega

/-- What is written at the end is appended. -/
theorem overwrite_end (content data : Bytes) :
    overwrite content content.length data = content ++ data := by
  rw [overwrite, List.take_length, List.drop_eq_nil_of_le (Nat.le_add_right _ _), List.append_nil]

/-- **A write** makes `txt` a copy if and only if it was one and the whole block is appended;
otherwise `txt` is shorter than a copy. -/
theorem Inv.write (hs : Inv file s) {block : Bytes} (hblock : block ≠ []) {k : ℕ}
    (hk : k ≤ block.length) :
    (overwrite s.txt s.pos (block.take k) = s.copied ++ block ↔
      s.txt = s.copied ∧ s.pos = s.txt.length ∧ k = block.length) ∧
    (overwrite s.txt s.pos (block.take k) = s.copied ++ block ∨
      (overwrite s.txt s.pos (block.take k)).length < (s.copied ++ block).length) := by
  have hlen := length_overwrite (block.take k) hs.pos
  have hpos := hs.pos
  rw [List.length_take, Nat.min_eq_left hk] at hlen
  by_cases hgood : s.txt = s.copied ∧ s.pos = s.txt.length ∧ k = block.length
  · obtain ⟨htxt, hend, rfl⟩ := hgood
    have heq : overwrite s.txt s.pos (block.take block.length) = s.copied ++ block := by
      rw [hend, List.take_length, overwrite_end, htxt]
    exact ⟨iff_of_true heq ⟨htxt, hend, rfl⟩, Or.inl heq⟩
  · have hlt : (overwrite s.txt s.pos (block.take k)).length < (s.copied ++ block).length := by
      have hne := List.length_pos_of_ne_nil hblock
      rw [hlen, List.length_append]
      rcases hs.txt with htxt | htxt
      · have hlength := congrArg List.length htxt
        by_cases hend : s.pos = s.txt.length
        · have hshort : k ≠ block.length := fun h ↦ hgood ⟨htxt, hend, h⟩
          omega
        · omega
      · omega
    exact ⟨iff_of_false (fun h ↦ absurd hlt (by rw [h]; exact lt_irrefl _)) hgood, Or.inr hlt⟩

/-- What the parent does, and a child that does not write, leave the copy as it is. -/
theorem Inv.keep (hs : Inv file s) (ha : Appends s a) (htxt : t.txt = s.txt)
    (hcopied : t.copied = s.copied) (hpos : t.pos ≤ t.txt.length)
    (hblock : ∀ block, t.child = .writing block → block ≠ [])
    (hrest : t.child.pending ++ t.rest = s.child.pending ++ s.rest) :
    Inv file t ∧ (t.txt = t.copied ↔ s.txt = s.copied ∧ Appends s a) := by
  refine ⟨⟨hpos, hblock, ?_, ?_⟩, by rw [htxt, hcopied, and_iff_left ha]⟩
  · rw [htxt, hcopied]
    exact hs.txt
  · rw [hcopied, List.append_assoc, hrest, ← List.append_assoc]
    exact hs.copied

theorem Inv.step (hs : Inv file s) (hstep : step s a = some t) :
    Inv file t ∧ (t.txt = t.copied ↔ s.txt = s.copied ∧ Appends s a) := by
  cases a with
  | childReads k =>
    rw [ShareFile.step] at hstep
    split_ifs at hstep with hreading hrest
    · obtain rfl := Option.some_inj.mp hstep
      refine hs.keep trivial rfl rfl hs.pos (fun _ h ↦ by cases h) ?_
      rw [hreading]
      rfl
    · obtain ⟨⟨hk, -⟩, rfl⟩ := guarded_eq_some.mp hstep
      refine hs.keep trivial rfl rfl hs.pos (fun block h ↦ ?_) ?_
      · obtain rfl := Child.writing.inj h
        rw [ne_eq, List.take_eq_nil_iff, not_or]
        exact ⟨hk.ne', hrest⟩
      · rw [hreading]
        exact List.take_append_drop _ _
  | childReadFails =>
    obtain ⟨hreading, rfl⟩ := guarded_eq_some.mp hstep
    refine hs.keep trivial rfl rfl hs.pos (fun _ h ↦ by cases h) ?_
    rw [hreading]
    rfl
  | childWrites k =>
    rw [ShareFile.step] at hstep
    split at hstep
    · next block hwriting =>
      obtain ⟨⟨-, hk⟩, rfl⟩ := guarded_eq_some.mp hstep
      obtain ⟨hiff, hcases⟩ := hs.write (hs.block block hwriting) hk
      have hcopied := hs.copied
      rw [hwriting] at hcopied
      refine ⟨⟨?_, fun _ h ↦ ?_, hcases, ?_⟩, ?_⟩
      · simp only [length_overwrite _ hs.pos, List.length_take, Nat.min_eq_left hk]
        exact le_max_right _ _
      · cases h
      · simpa only [Child.pending, List.append_nil] using hcopied
      · rw [hiff, Appends, hwriting]
        simp only [Child.writing.injEq, forall_eq']
    · cases hstep
  | childWriteFails =>
    rw [ShareFile.step] at hstep
    split at hstep
    · next block hwriting =>
      obtain rfl := Option.some_inj.mp hstep
      have hne := List.length_pos_of_ne_nil (hs.block block hwriting)
      have hcopied := hs.copied
      rw [hwriting] at hcopied
      have hlt : s.txt.length < (s.copied ++ block).length := by
        rw [List.length_append]
        rcases hs.txt with htxt | htxt
        · have hlength := congrArg List.length htxt
          omega
        · omega
      refine ⟨⟨hs.pos, fun _ h ↦ ?_, Or.inr hlt, ?_⟩, ?_⟩
      · cases h
      · simpa only [Child.pending, List.append_nil] using hcopied
      · refine iff_of_false (fun h ↦ ?_) fun h ↦ h.2
        rw [show s.txt = s.copied ++ block from h] at hlt
        exact lt_irrefl _ hlt
    · cases hstep
  | seek =>
    obtain ⟨-, rfl⟩ := guarded_eq_some.mp hstep
    exact hs.keep trivial rfl rfl (Nat.zero_le _) hs.block rfl
  | parentReads k =>
    rw [ShareFile.step] at hstep
    split_ifs at hstep with hreading hend
    · obtain rfl := Option.some_inj.mp hstep
      exact hs.keep trivial rfl rfl hs.pos hs.block rfl
    · obtain ⟨⟨-, hk⟩, rfl⟩ := guarded_eq_some.mp hstep
      rw [State.print]
      have hpos : s.pos + ((s.txt.drop s.pos).take k).length ≤ s.txt.length := by
        have hle := hs.pos
        rw [List.length_take, List.length_drop]
        omega
      dsimp only
      split
      · exact hs.keep trivial rfl rfl hpos hs.block rfl
      · exact hs.keep trivial rfl rfl hpos hs.block rfl
  | parentReadFails =>
    obtain ⟨-, rfl⟩ := guarded_eq_some.mp hstep
    exact hs.keep trivial rfl rfl hs.pos hs.block rfl

/-- **What becomes of the copy.** In every run in which the child has ended: `txt`, with what the
child has not read, is the file if and only if every block was written as a whole, and at the end of
`txt`. -/
theorem copied_iff {labels : List Label} (hrun : run step (start file) labels = some s)
    (hended : s.child = .ended) :
    s.txt ++ s.rest = file ↔ Along step Appends (start file) labels := by
  have hs : Inv file s := invariant_of_run (fun _ _ _ hs hstep ↦ (hs.step hstep).1)
    (inv_start file) hrun
  have hcopied : s.copied ++ s.rest = file := by
    have h := hs.copied
    rw [hended] at h
    simpa only [Child.pending, List.append_nil] using h
  have hiff := holds_iff_along (I := Inv file) (P := fun s ↦ s.txt = s.copied)
    (fun _ _ _ hs hstep ↦ (hs.step hstep).1) (fun _ _ _ hs hstep ↦ (hs.step hstep).2)
    (inv_start file) hrun
  have htxt : s.txt ++ s.rest = file ↔ s.txt = s.copied := by
    rw [← hcopied, List.append_left_inj]
  rw [htxt, hiff]
  exact and_iff_right rfl

/-- The parent wakes up too early: it moves the offset between two blocks. -/
def tooEarly : List Label :=
  [.childReads 2, .childWrites 2, .seek, .childReads 1, .childWrites 1, .childReads 0]

theorem not_copied_tooEarly : ∃ s, run step (start (ascii "abc")) tooEarly = some s ∧
    s.child = .ended ∧ s.txt ++ s.rest ≠ ascii "abc" := by
  have hended : (run step (start (ascii "abc")) tooEarly).map (fun s ↦ s.child) =
      some .ended := by
    decide +kernel
  obtain ⟨s, hrun, hs⟩ := Option.map_eq_some_iff.mp hended
  refine ⟨s, hrun, hs, fun h ↦ ?_⟩
  have halong := (copied_iff hrun hs).mp h
  -- the last block is written at the beginning of `txt`
  have hlast := ((((halong.2 _ rfl).2 _ rfl).2 _ rfl).2 _ rfl).1
  exact absurd hlast.1 (by decide)

end ShareFile

end CodeOnLinux
