import Mathlib.Algebra.BigOperators.Group.Finset.Basic
import Mathlib.Tactic.Common

/-!
# Reaping children: `rec_child`

The servers that fork a child for each client, `02_tcp_process` and `99_tcp_chatroom`, install the
same handler for `SIGCHLD`. It calls `wait` until `wait` fails. But `wait` fails only where there is
no child at all; where none has terminated and some are still serving their clients it blocks, and
the parent, which runs the handler, does not get back to `accept`.

While the handler runs, further children may terminate; `exits i` is how many do before call `i` of
`wait`. The handler returns exactly if these terminations come in time (`neverStalls_iff`). If there
are none, it returns exactly if no child was still running.
-/

namespace CodeOnLinux

namespace ProcessServer

/-- The children of the parent that were not reaped yet. -/
structure Children where
  /-- Those that have ended. -/
  terminated : ℕ
  /-- Those that have not. -/
  running : ℕ

def Children.count (c : Children) : ℕ := c.terminated + c.running

/-- `n` of the running children terminate, or all of them if there are not so many. -/
def Children.exit (c : Children) (n : ℕ) : Children where
  terminated := c.terminated + min c.running n
  running := c.running - n

/-- What `wait(NULL)` does. -/
inductive Wait
  | reaped
  /-- It returns `-1`. -/
  | noChildren
  | blocks
  deriving DecidableEq

def wait (c : Children) : Wait × Children :=
  if 0 < c.terminated then (.reaped, { c with terminated := c.terminated - 1 })
  else if c.running = 0 then (.noChildren, c)
  else (.blocks, c)

/-- How a run of the handler goes. -/
inductive Outcome
  | returned (c : Children)
  /-- `wait` was called where no child had terminated and some were running. -/
  | stalled (c : Children)
  | outOfFuel

/-- `while(-1 != wait(NULL));` -/
def recChildLoop (exits : ℕ → ℕ) : ℕ → Children → Outcome
  | 0, _ => .outOfFuel
  | fuel + 1, c =>
    match wait (c.exit (exits 0)) with
    | (.reaped, c) => recChildLoop (fun i ↦ exits (i + 1)) fuel c
    | (.noChildren, c) => .returned c
    | (.blocks, c) => .stalled c

/-- Each turn of the loop but the last reaps a child. -/
def recChild (exits : ℕ → ℕ) (c : Children) : Outcome := recChildLoop exits (c.count + 1) c

/-- The handler returns and has reaped all children that had terminated. -/
def Reaps (o : Outcome) : Prop := ∃ c, o = .returned c ∧ c.terminated = 0

/-- By the time of each call but the last, more children have terminated than were reaped. -/
def InTime (exits : ℕ → ℕ) (c : Children) : Prop :=
  ∀ i < c.count, i < c.terminated + min c.running (∑ j ∈ Finset.range (i + 1), exits j)

instance (exits : ℕ → ℕ) (c : Children) : Decidable (InTime exits c) :=
  inferInstanceAs (Decidable (∀ i < _, _))

theorem Children.count_exit (c : Children) (n : ℕ) : (c.exit n).count = c.count := by
  simp only [Children.count, Children.exit]
  omega

/-- The first call finds a child that has terminated, and the others come in time for the rest. -/
theorem inTime_iff {exits : ℕ → ℕ} {c : Children} (hpos : 0 < c.count) :
    InTime exits c ↔ 0 < (c.exit (exits 0)).terminated ∧ InTime (fun i ↦ exits (i + 1))
      ⟨(c.exit (exits 0)).terminated - 1, (c.exit (exits 0)).running⟩ := by
  have hcount := c.count_exit (exits 0)
  simp only [Children.count, Children.exit] at hcount hpos ⊢
  simp only [InTime, Children.count]
  constructor
  · intro h
    have hfirst := h 0 hpos
    rw [Finset.sum_range_one] at hfirst
    refine ⟨by omega, fun i hi ↦ ?_⟩
    have hnext := h (i + 1) (by omega)
    rw [Finset.sum_range_succ'] at hnext
    omega
  · rintro ⟨hfirst, hrest⟩ i hi
    cases i with
    | zero =>
      rw [Finset.sum_range_one]
      omega
    | succ i =>
      have hnext := hrest i (by omega)
      rw [Finset.sum_range_succ']
      omega

theorem reaps_loop_iff {exits : ℕ → ℕ} {c : Children} {fuel : ℕ} (hfuel : c.count < fuel) :
    Reaps (recChildLoop exits fuel c) ↔ InTime exits c := by
  induction fuel generalizing exits c with
  | zero => exact absurd hfuel (Nat.not_lt_zero _)
  | succ fuel ih =>
    have hcount := c.count_exit (exits 0)
    rw [recChildLoop, wait]
    by_cases hterminated : 0 < (c.exit (exits 0)).terminated
    · -- a child is reaped, and the loop goes on with one child less
      have hpos : 0 < c.count := by
        rw [← hcount, Children.count]
        omega
      rw [if_pos hterminated, inTime_iff hpos, and_iff_right hterminated]
      refine ih ?_
      rw [Children.count] at hcount ⊢
      dsimp only
      omega
    · rw [if_neg hterminated]
      by_cases hrunning : (c.exit (exits 0)).running = 0
      · rw [if_pos hrunning]
        have hzero : c.count = 0 := by
          rw [← hcount, Children.count]
          omega
        refine iff_of_true ⟨_, rfl, Nat.eq_zero_of_not_pos hterminated⟩ fun i hi ↦ ?_
        exact absurd (hzero ▸ hi) (Nat.not_lt_zero i)
      · rw [if_neg hrunning]
        have hpos : 0 < c.count := by
          rw [← hcount, Children.count]
          omega
        refine iff_of_false ?_ fun h ↦ hterminated ((inTime_iff hpos).mp h).1
        rintro ⟨c', hreturned, -⟩
        cases hreturned

/-- Where no child terminates meanwhile, none may be running. -/
theorem inTime_still_iff (c : Children) : InTime (fun _ ↦ 0) c ↔ c.running = 0 := by
  simp only [InTime, Finset.sum_const_zero, Nat.min_zero, Nat.add_zero, Children.count]
  constructor
  · intro h
    by_contra hne
    exact absurd (h c.terminated (by omega)) (Nat.lt_irrefl _)
  · intro h i hi
    rwa [h, Nat.add_zero] at hi

end ProcessServer

namespace Chatroom

/-- The handler of `99_tcp_chatroom`. -/
def recChild : (ℕ → ℕ) → ProcessServer.Children → ProcessServer.Outcome := ProcessServer.recChild

end Chatroom

namespace ProcessServer

/-- **When the handler returns**, in both servers: it reaps all children that have terminated,
without ever calling `wait` where none has and some are running, if and only if those that were
running terminate in time. If no child terminates while it runs, that is: if none was running. -/
theorem neverStalls_iff (c : Children) :
    (∀ exits, (Reaps (recChild exits c) ↔ InTime exits c) ∧
      (Reaps (Chatroom.recChild exits c) ↔ InTime exits c)) ∧
    (Reaps (recChild (fun _ ↦ 0) c) ↔ c.running = 0) ∧
    (Reaps (Chatroom.recChild (fun _ ↦ 0) c) ↔ c.running = 0) := by
  have hreaps : ∀ exits, Reaps (recChild exits c) ↔ InTime exits c := fun exits ↦
    reaps_loop_iff (Nat.lt_succ_self c.count)
  have hstill := (hreaps fun _ ↦ 0).trans (inTime_still_iff c)
  exact ⟨fun exits ↦ ⟨hreaps exits, hreaps exits⟩, hstill, hstill⟩

/-- One of two clients leaves while the other one stays: the first call of `wait` reaps the child,
the second one blocks. -/
theorem stalls_one_stays : ¬∀ c : Children, Reaps (recChild (fun _ ↦ 0) c) := by
  intro h
  obtain ⟨c, hreturned, -⟩ := h ⟨1, 1⟩
  cases hreturned

end ProcessServer

end CodeOnLinux
