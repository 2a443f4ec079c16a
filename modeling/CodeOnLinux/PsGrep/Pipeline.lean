import CodeOnLinux.Foundation.Descriptors
import CodeOnLinux.Foundation.Machine
import CodeOnLinux.Foundation.Transition

/-!
# `ps aux | grep bash`: `ps_grep.c`

The process makes a pipe and forks. The child makes the reading end its standard input and becomes
`grep`; the parent makes the writing end its standard output and becomes `ps`. Neither closes the
descriptors of the pipe first, and they stay open over `execlp`.

So `grep` has the writing end of its own input open. Everything that `ps` writes reaches it, but the
end of the stream does not, and when `ps` is gone and everything was read, nothing can happen any
more (`grep_blocked`).
-/

namespace CodeOnLinux

namespace PsGrep

open Transition Descriptors

/-! ## The program -/

inductive Proc
  | parent
  | child
  deriving DecidableEq

inductive End
  | console
  | reading
  | writing
  deriving DecidableEq

/-- `forked` is before `dup2`, `duped` before `execlp`, and `waiting` in `wait(NULL)`. -/
inductive Parent
  | forked
  | duped
  | ps
  | waiting
  | gone
  deriving DecidableEq

inductive Child
  | forked
  | duped
  | grep
  | gone
  deriving DecidableEq

/-- The two processes and the pipe between them. -/
structure State where
  /-- The descriptors of both processes. -/
  tables : Tables Proc End
  /-- What the parent is doing, which becomes `grep`. -/
  parent : Parent
  /-- What the child is doing, which becomes `ps`. -/
  child : Child
  /-- What is in the pipe. -/
  pipe : Bytes
  /-- What `ps` has still to write. -/
  toWrite : Bytes
  /-- What `grep` has read. -/
  received : Bytes

inductive Label
  | dupParent
  /-- `return 3` -/
  | dupParentFails
  | execParent
  | execParentFails
  /-- `wait` returns, and both ends are closed. -/
  | reaped
  | write (k : ℕ)
  | psExits
  /-- `ps` writes to a pipe that nobody reads. -/
  | psKilled
  | dupChild
  | execChild
  /-- `exit(0)` -/
  | execChildFails
  | read (k : ℕ)
  /-- `read` returns `0`. -/
  | readEnd

/-- The capacity of a pipe -/
def capacity : ℕ := 65536

/-- `fd[0]` and `fd[1]` -/
def fd₀ : ℕ := 3

def fd₁ : ℕ := 4

/-- Behind the fork, with what `ps` is going to write. -/
def init (output : Bytes) : State where
  tables _ fd :=
    if fd < fd₀ then some .console
    else if fd = fd₀ then some .reading
    else if fd = fd₁ then some .writing
    else none
  parent := .forked
  child := .forked
  pipe := []
  toWrite := output
  received := []

def State.exitParent (s : State) : State :=
  { s with parent := .gone, tables := exit s.tables .parent }

def State.exitChild (s : State) : State :=
  { s with child := .gone, tables := exit s.tables .child }

/-- Some process has the end open. -/
def State.held (s : State) (e : End) : Bool := isHeld [.parent, .child] (fd₁ + 1) s.tables e

def step (s : State) : Label → Option State
  | .dupParent => guarded (s.parent = .forked)
      { s with parent := .duped, tables := dup2 s.tables .parent fd₁ 1 }
  | .dupParentFails => guarded (s.parent = .forked) s.exitParent
  | .execParent => guarded (s.parent = .duped) { s with parent := .ps }
  | .execParentFails => guarded (s.parent = .duped) { s with parent := .waiting }
  | .reaped => guarded (s.parent = .waiting ∧ s.child = .gone) s.exitParent
  | .write k => guarded (s.parent = .ps ∧ s.tables .parent 1 = some .writing ∧
      s.held .reading = true ∧ 0 < k ∧ k ≤ s.toWrite.length ∧ s.pipe.length + k ≤ capacity)
      { s with pipe := s.pipe ++ s.toWrite.take k, toWrite := s.toWrite.drop k }
  | .psExits => guarded (s.parent = .ps ∧ s.toWrite = []) s.exitParent
  | .psKilled => guarded (s.parent = .ps ∧ s.toWrite ≠ [] ∧ s.held .reading = false) s.exitParent
  | .dupChild => guarded (s.child = .forked)
      { s with child := .duped, tables := dup2 s.tables .child fd₀ 0 }
  | .execChild => guarded (s.child = .duped) { s with child := .grep }
  | .execChildFails => guarded (s.child = .duped) s.exitChild
  | .read k => guarded (s.child = .grep ∧ s.tables .child 0 = some .reading ∧ 0 < k ∧
      k ≤ s.pipe.length)
      { s with pipe := s.pipe.drop k, received := s.received ++ s.pipe.take k }
  | .readEnd => guarded (s.child = .grep ∧ s.tables .child 0 = some .reading ∧ s.pipe = [] ∧
      s.held .writing = false) s.exitChild

/-! ## The writing end -/

variable {s t : State} {a : Label} {output : Bytes}

/-- Nothing is lost in the pipe, and the child, while it is there, has both ends open. -/
structure Inv (output : Bytes) (s : State) : Prop where
  /-- Nothing is lost in the pipe. -/
  accounted : s.received ++ s.pipe ++ s.toWrite = output
  /-- The child is there. -/
  alive : s.child ≠ .gone
  /-- It has the reading end open. -/
  reading : s.tables .child fd₀ = some .reading
  /-- It has the writing end open. -/
  writing : s.tables .child fd₁ = some .writing

theorem inv_init (output : Bytes) : Inv output (init output) where
  accounted := rfl
  alive := by simp [init]
  reading := rfl
  writing := rfl

theorem Inv.held_writing (hs : Inv output s) : s.held .writing = true :=
  isHeld_of_mem (p := .child) (by simp) (Nat.lt_succ_self fd₁) hs.writing

/-- What does not touch the descriptors of the child. -/
theorem Inv.congr (hs : Inv output s) (htable : t.tables .child = s.tables .child)
    (halive : t.child ≠ .gone)
    (haccounted : t.received ++ t.pipe ++ t.toWrite = s.received ++ s.pipe ++ s.toWrite) :
    Inv output t where
  accounted := haccounted.trans hs.accounted
  alive := halive
  reading := by rw [htable, hs.reading]
  writing := by rw [htable, hs.writing]

theorem Inv.exitParent (hs : Inv output s) : Inv output s.exitParent :=
  hs.congr (exit_of_ne (T := s.tables) (p := .parent) (q := .child) (by decide)) hs.alive rfl

theorem Inv.step (hs : Inv output s) (ha : a ≠ .execChildFails) (h : PsGrep.step s a = some t) :
    Inv output t := by
  cases a with
  | dupParent =>
    obtain ⟨-, rfl⟩ := guarded_eq_some.mp h
    have htable : dup2 s.tables .parent fd₁ 1 .child = s.tables .child := dup2_of_ne (by decide)
    exact hs.congr htable hs.alive rfl
  | dupParentFails =>
    obtain ⟨-, rfl⟩ := guarded_eq_some.mp h
    exact hs.exitParent
  | execParent =>
    obtain ⟨-, rfl⟩ := guarded_eq_some.mp h
    exact hs.congr rfl hs.alive rfl
  | execParentFails =>
    obtain ⟨-, rfl⟩ := guarded_eq_some.mp h
    exact hs.congr rfl hs.alive rfl
  | reaped =>
    obtain ⟨-, rfl⟩ := guarded_eq_some.mp h
    exact hs.exitParent
  | write k =>
    obtain ⟨-, rfl⟩ := guarded_eq_some.mp h
    refine hs.congr rfl hs.alive ?_
    simp only [List.append_assoc, List.take_append_drop]
  | psExits =>
    obtain ⟨-, rfl⟩ := guarded_eq_some.mp h
    exact hs.exitParent
  | psKilled =>
    obtain ⟨-, rfl⟩ := guarded_eq_some.mp h
    exact hs.exitParent
  | dupChild =>
    obtain ⟨-, rfl⟩ := guarded_eq_some.mp h
    refine ⟨hs.accounted, by simp, ?_, ?_⟩
    · have htable : dup2 s.tables .child fd₀ 0 .child fd₀ = _ := dup2_of_fd_ne (by decide)
      exact htable.trans hs.reading
    · have htable : dup2 s.tables .child fd₀ 0 .child fd₁ = _ := dup2_of_fd_ne (by decide)
      exact htable.trans hs.writing
  | execChild =>
    obtain ⟨-, rfl⟩ := guarded_eq_some.mp h
    exact hs.congr rfl (by simp) rfl
  | execChildFails => exact absurd rfl ha
  | read k =>
    obtain ⟨-, rfl⟩ := guarded_eq_some.mp h
    refine hs.congr rfl hs.alive ?_
    rw [List.append_assoc s.received, List.take_append_drop]
  | readEnd =>
    -- the reader itself holds the end that would have to be closed
    obtain ⟨⟨-, -, -, hclosed⟩, -⟩ := guarded_eq_some.mp h
    rw [hs.held_writing] at hclosed
    cases hclosed

/-- **`grep` waits for itself.** Unless `execlp` fails in the child: in every state of every run the
child is there and has lost nothing of what `ps` wrote, and once it has become `grep`, and the
parent is gone and everything was read, no step is possible. -/
theorem grep_blocked {labels : List Label} (hrun : run step (init output) labels = some s)
    (hexec : ∀ a ∈ labels, a ≠ .execChildFails) :
    s.child ≠ .gone ∧ s.received ++ s.pipe ++ s.toWrite = output ∧
      (s.child = .grep → s.parent = .gone → s.pipe = [] → ∀ a, step s a = none) := by
  have hs : Inv output s := invariant_of_along (fun _ _ _ hs ha h ↦ hs.step ha h) (inv_init output)
    ((along_iff_forall hrun).mpr hexec) hrun
  refine ⟨hs.alive, hs.accounted, fun hchild hparent hpipe a ↦ ?_⟩
  have hwriting := hs.held_writing
  cases a <;> simp [step, guarded, hchild, hparent, hpipe, hwriting]
  omega

/-- A run in which everything was written and read. -/
def wholeRun : List Label :=
  [.dupParent, .dupChild, .execParent, .execChild, .write 4, .psExits, .read 4]

/-- The four bytes have arrived, and `grep` is blocked. -/
theorem whole_run_blocked : ∃ s, run step (init (ascii "bash")) wholeRun = some s ∧
    s.received = ascii "bash" ∧ ∀ a, step s a = none := by
  have hlast : (run step (init (ascii "bash")) wholeRun).map
      (fun s ↦ (s.child, s.parent, s.pipe, s.toWrite)) = some (.grep, .gone, [], []) := by decide
  obtain ⟨s, hrun, hs⟩ := Option.map_eq_some_iff.mp hlast
  obtain ⟨hchild, hparent, hpipe, hwritten⟩ : _ ∧ _ ∧ _ ∧ _ := by
    simpa only [Prod.mk.injEq] using hs
  obtain ⟨-, haccounted, hblocked⟩ := grep_blocked hrun (by simp [wholeRun])
  refine ⟨s, hrun, ?_, hblocked hchild hparent hpipe⟩
  rw [← haccounted, hpipe, hwritten, List.append_nil, List.append_nil]

end PsGrep

end CodeOnLinux
