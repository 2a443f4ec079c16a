import CodeOnLinux.Echo.InBounds
import CodeOnLinux.Foundation.Fgets
import CodeOnLinux.Foundation.Transition

/-!
# The client with `select`: `03_select_svr_multi_access/client.c`

The client waits in `select` for its standard input and its socket. When there is something on the
standard input it takes a line from it with `fgets` and sends it; when there is something on the
socket it prints it. The same program is in `01_select` and `02_select_svr`.

`select` looks at the descriptor, and `fgets` at the buffer of the stream: it reads as much as there
is, hands out one line, and keeps the others for later calls. `select` does not know of them. So of
what a `read` has brought, only the first line is sent, and the others stay where they are until
something more is typed or the input ends (`held_of_run`). Nothing is lost. A user at a terminal,
where a `read` brings one line at a time, does not notice, and in a file there is always something
to be read, be it the end; a program that writes into a pipe and then waits for the answers does.
-/

namespace CodeOnLinux

namespace SelectClient

open Memory Transition Lines
open Echo (size received)

/-! ## The program -/

inductive Phase
  /-- It is about to call `select`. -/
  | polling
  /-- It is in `fgets`; `sock` is whether the socket is ready, too. -/
  | typing (sock : Bool)
  /-- It is about to call `recv`. -/
  | receiving
  | left
  /-- `buf[strlen(buf) - 1]` was in front of the buffer, and the client may do anything. -/
  | underrun
  /-- `printf` has run out of the buffer. -/
  | overrun
  deriving DecidableEq

/-- The client, and what was typed. -/
structure State where
  /-- Where it is. -/
  phase : Phase
  /-- The bytes that `stdin` has read and not handed out yet. -/
  held : Bytes
  /-- The bytes on the descriptor. -/
  waiting : Bytes
  /-- Whether the input has ended. -/
  eof : Bool
  /-- Not in the source: all that was typed. -/
  typed : Bytes
  /-- Not in the source: what the last `read` of the standard input has brought. -/
  block : Bytes
  /-- Not in the source: the lines that were handed out and sent. -/
  lines : List Bytes
  /-- What was sent for them. -/
  sent : List Bytes
  /-- What was printed. -/
  printed : List Bytes

def init : State := ⟨.polling, [], [], false, [], [], [], [], []⟩

inductive Label
  | type (bytes : Bytes)
  | close
  /-- `select` returns; `sock` is whether the socket is ready. -/
  | select (sock : Bool)
  | selectFails
  /-- `fgets` needs more, and `read` brings `k` bytes. -/
  | read (k : ℕ)
  /-- `fgets` returns, and the line is sent. -/
  | line (sendFails : Bool)
  /-- What `recv` brings; nothing at the end of the stream and where it fails. -/
  | recv (text : Bytes)

/-- After the standard input it is the socket's turn, if it was ready. -/
def after (sock : Bool) : Phase := if sock then .receiving else .polling

/-- `fgets` hands out a line, up to `send`. At the end of the input nothing is stored in the zeroed
buffer. -/
def State.handOut (s : State) (sock sendFails : Bool) : State :=
  let (line, rest) := takeTyped (size - 1) s.held
  match Echo.reply line with
  | .error _ => { s with phase := .underrun }
  | .ok text =>
    if sendFails then { s with phase := .left }
    else
      { s with
        phase := after sock
        held := rest
        lines := s.lines ++ [line]
        sent := s.sent ++ [text] }

/-- From `recv` to `printf`. -/
def State.recv (s : State) (text : Bytes) : State :=
  if text = [] then { s with phase := .left }
  else match readStr (received text) 0 with
    | .ok line => { s with phase := .polling, printed := s.printed ++ [line] }
    | .error _ => { s with phase := .overrun }

/-- `bufsiz` is the size of the buffer of `stdin`. -/
def step (bufsiz : ℕ) (s : State) : Label → Option State
  | .type bytes => guarded (s.eof = false ∧ bytes ≠ [])
      { s with waiting := s.waiting ++ bytes, typed := s.typed ++ bytes }
  | .close => some { s with eof := true }
  | .select sock =>
    if s.phase = .polling then
      if s.waiting ≠ [] ∨ s.eof then some { s with phase := .typing sock }
      else guarded (sock = true) { s with phase := .receiving }
    else none
  | .selectFails => guarded (s.phase = .polling) { s with phase := .left }
  | .read k =>
    match s.phase with
    | .typing _ => guarded (¬Complete (size - 1) s.held ∧ 0 < k ∧ k ≤ min bufsiz s.waiting.length)
        { s with
          held := s.held ++ s.waiting.take k
          waiting := s.waiting.drop k
          block := s.waiting.take k }
    | _ => none
  | .line sendFails =>
    match s.phase with
    | .typing sock => guarded (Complete (size - 1) s.held ∨ s.eof = true ∧ s.waiting = [])
        (s.handOut sock sendFails)
    | _ => none
  | .recv text => guarded (s.phase = .receiving ∧ text.length ≤ size) (s.recv text)

/-! ## What is held back -/

/-- All that was read before the last block is sent, but for the beginning of a line. The line was
completed from the block; what the block has behind it is held. -/
def Rested (s : State) : Prop :=
  ∃ earlier line start, s.lines = earlier ++ [line] ∧ ¬Complete (size - 1) start ∧
    takeTyped (size - 1) (start ++ s.block) = (line, s.held)

/-- What holds in every state. -/
structure Inv (s : State) : Prop where
  /-- Every byte is in a line, in the stream or on the descriptor. -/
  typed : s.lines.flatten ++ s.held ++ s.waiting = s.typed
  /-- What was sent is the answers to the lines. -/
  sent : s.lines.map Echo.reply = s.sent.map .ok
  /-- While `fgets` has not read anything, there is something to read. -/
  typing : s.eof = false → ∀ sock, s.phase = .typing sock →
    s.waiting ≠ [] ∨ ∃ start, ¬Complete (size - 1) start ∧ s.held = start ++ s.block
  /-- When nothing is left to read, the last `fgets` has read it. -/
  rested : s.eof = false → s.phase = .polling ∨ s.phase = .receiving → s.waiting = [] →
    s.typed = [] ∨ Rested s

variable {bufsiz : ℕ} {s t : State} {a : Label}

theorem inv_init : Inv init where
  typed := rfl
  sent := rfl
  typing _ sock h := by cases h
  rested _ _ _ := Or.inl rfl

theorem after_ne_typing (sock sock' : Bool) : after sock ≠ .typing sock' := by
  cases sock <;> exact fun h ↦ by cases h

namespace Inv

/-- The client leaves its loop, or goes astray. -/
theorem stop (hs : Inv s) {phase : Phase} (htyping : ∀ sock, phase ≠ .typing sock)
    (hloop : phase ≠ .polling ∧ phase ≠ .receiving) : Inv { s with phase := phase } where
  typed := hs.typed
  sent := hs.sent
  typing _ sock h := absurd h (htyping sock)
  rested _ h := by
    rcases h with h | h
    · exact absurd h hloop.1
    · exact absurd h hloop.2

/-- The client goes on in `select` or `recv` without having touched its input. -/
theorem goOn (hs : Inv s) (hphase : s.phase = .polling ∨ s.phase = .receiving) {phase : Phase}
    (htyping : ∀ sock, phase ≠ .typing sock) (printed : List Bytes) :
    Inv { s with phase := phase, printed := printed } where
  typed := hs.typed
  sent := hs.sent
  typing _ sock h := absurd h (htyping sock)
  rested heof _ hwaiting := hs.rested heof hphase hwaiting

theorem handOut (hs : Inv s) {sock : Bool} (hphase : s.phase = .typing sock) (sendFails : Bool) :
    Inv (s.handOut sock sendFails) := by
  obtain ⟨⟨line, rest⟩, hline⟩ : ∃ r, takeTyped (size - 1) s.held = r := ⟨_, rfl⟩
  have happend : line ++ rest = s.held := by
    have h := takeTyped_append (size - 1) s.held
    rwa [hline] at h
  simp only [State.handOut, hline]
  cases hreply : Echo.reply line with
  | error e => exact hs.stop (fun _ h ↦ by cases h) ⟨by decide, by decide⟩
  | ok text =>
    cases sendFails with
    | true => exact hs.stop (fun _ h ↦ by cases h) ⟨by decide, by decide⟩
    | false =>
      refine ⟨?_, ?_, fun _ sock' h ↦ absurd h (after_ne_typing sock sock'), fun heof _ hnil ↦ ?_⟩
      · simp only [Bool.false_eq_true, if_false, List.flatten_append, List.flatten_singleton]
        rw [List.append_assoc (s.lines.flatten), happend, hs.typed]
      · simp only [Bool.false_eq_true, if_false, List.map_append, List.map_singleton, hs.sent,
          hreply]
      · -- nothing waits, so this `fgets` has read the last block
        rcases hs.typing heof sock hphase with hne | ⟨start, hstart, hheld⟩
        · exact absurd hnil hne
        · refine Or.inr ⟨s.lines, line, start, rfl, hstart, ?_⟩
          simp only [Bool.false_eq_true, if_false]
          rw [← hheld, hline]

theorem recv (hs : Inv s) (hphase : s.phase = .receiving) (text : Bytes) : Inv (s.recv text) := by
  rw [State.recv]
  split_ifs
  · exact hs.stop (fun _ h ↦ by cases h) ⟨by decide, by decide⟩
  · split
    · exact hs.goOn (Or.inr hphase) (fun _ h ↦ by cases h) _
    · exact hs.stop (fun _ h ↦ by cases h) ⟨by decide, by decide⟩

theorem step (hs : Inv s) (hstep : step bufsiz s a = some t) : Inv t := by
  cases a with
  | type bytes =>
    obtain ⟨⟨-, hne⟩, rfl⟩ := guarded_eq_some.mp hstep
    have hwaiting : s.waiting ++ bytes ≠ [] := List.append_ne_nil_of_right_ne_nil _ hne
    refine ⟨?_, hs.sent, fun _ _ _ ↦ Or.inl hwaiting, fun _ _ h ↦ absurd h hwaiting⟩
    simp only [← hs.typed, List.append_assoc]
  | close =>
    obtain rfl := Option.some_inj.mp hstep
    refine ⟨hs.typed, hs.sent, fun h ↦ ?_, fun h ↦ ?_⟩
    · cases h
    · cases h
  | select sock =>
    rw [SelectClient.step] at hstep
    split_ifs at hstep with hphase hready
    · obtain rfl := Option.some_inj.mp hstep
      refine ⟨hs.typed, hs.sent, fun heof _ _ ↦ Or.inl ?_, fun _ h ↦ ?_⟩
      · refine hready.resolve_right fun h ↦ ?_
        rw [show s.eof = false from heof] at h
        cases h
      · rcases h with h | h <;> cases h
    · obtain ⟨-, rfl⟩ := guarded_eq_some.mp hstep
      exact hs.goOn (Or.inl hphase) (fun _ h ↦ by cases h) s.printed
  | selectFails =>
    obtain ⟨-, rfl⟩ := guarded_eq_some.mp hstep
    exact hs.stop (fun _ h ↦ by cases h) ⟨by decide, by decide⟩
  | read k =>
    rw [SelectClient.step] at hstep
    split at hstep
    · next sock hphase =>
      obtain ⟨⟨hcomplete, -, -⟩, rfl⟩ := guarded_eq_some.mp hstep
      refine ⟨?_, hs.sent, fun _ _ _ ↦ Or.inr ⟨s.held, hcomplete, rfl⟩, fun _ h ↦ ?_⟩
      · simp only [List.append_assoc, List.take_append_drop]
        rw [← List.append_assoc, hs.typed]
      · rw [show _ = s.phase from rfl, hphase] at h
        rcases h with h | h <;> cases h
    · cases hstep
  | line sendFails =>
    rw [SelectClient.step] at hstep
    split at hstep
    · next sock hphase =>
      obtain ⟨-, rfl⟩ := guarded_eq_some.mp hstep
      exact hs.handOut hphase sendFails
    · cases hstep
  | recv text =>
    obtain ⟨⟨hphase, -⟩, rfl⟩ := guarded_eq_some.mp hstep
    exact hs.recv hphase text

end Inv

theorem inv_of_run {labels : List Label} (hrun : run (step bufsiz) init labels = some s) : Inv s :=
  invariant_of_run (fun _ _ _ hs hstep ↦ hs.step hstep) inv_init hrun

/-! ## Until more is typed -/

/-- Nothing moves until the user types. -/
structure Quiet (lines : List Bytes) (s : State) : Prop where
  /-- There is nothing to read. -/
  waiting : s.waiting = []
  /-- The input has not ended. -/
  eof : s.eof = false
  /-- These lines were sent. -/
  lines : s.lines = lines
  /-- The client is not in `fgets`. -/
  phase : ∀ sock, s.phase ≠ .typing sock

/-- Something happens at the standard input. -/
def Label.input : Label → Bool
  | .type _ => true
  | .close => true
  | _ => false

theorem Quiet.step {lines : List Bytes} (hs : Quiet lines s) (hinput : a.input = false)
    (hstep : step bufsiz s a = some t) : Quiet lines t := by
  cases a with
  | type bytes => cases hinput
  | close => cases hinput
  | select sock =>
    rw [SelectClient.step] at hstep
    split_ifs at hstep with hphase hready
    · rw [hs.waiting, hs.eof] at hready
      rcases hready with h | h
      · exact absurd rfl h
      · cases h
    · obtain ⟨-, rfl⟩ := guarded_eq_some.mp hstep
      exact ⟨hs.waiting, hs.eof, hs.lines, fun _ h ↦ by cases h⟩
  | selectFails =>
    obtain ⟨-, rfl⟩ := guarded_eq_some.mp hstep
    exact ⟨hs.waiting, hs.eof, hs.lines, fun _ h ↦ by cases h⟩
  | read k =>
    rw [SelectClient.step] at hstep
    split at hstep
    · next sock hphase => exact absurd hphase (hs.phase sock)
    · cases hstep
  | line sendFails =>
    rw [SelectClient.step] at hstep
    split at hstep
    · next sock hphase => exact absurd hphase (hs.phase sock)
    · cases hstep
  | recv text =>
    obtain ⟨-, rfl⟩ := guarded_eq_some.mp hstep
    rw [State.recv]
    split_ifs
    · exact ⟨hs.waiting, hs.eof, hs.lines, fun _ h ↦ by cases h⟩
    · split
      · exact ⟨hs.waiting, hs.eof, hs.lines, fun _ h ↦ by cases h⟩
      · exact ⟨hs.waiting, hs.eof, hs.lines, fun _ h ↦ by cases h⟩

/-- **Lines that are held back.** Whenever the client waits in `select`, the input has not ended and
all that was typed so far has been read, everything in front of the last block was sent, but for the
beginning of a line. That line was completed from the block, and is the last one that was sent: what
the block has behind it is held, and is not sent, whatever comes from the server, until the user
types again or ends his input. -/
theorem held_of_run {labels : List Label} (hrun : run (step bufsiz) init labels = some s)
    (hphase : s.phase = .polling) (heof : s.eof = false) (hwaiting : s.waiting = [])
    (htyped : s.typed ≠ []) :
    (∃ earlier line start, s.lines = earlier ++ [line] ∧
      s.lines.map Echo.reply = s.sent.map .ok ∧
      earlier.flatten ++ start ++ s.block = s.typed ∧ ¬Complete (size - 1) start ∧
      takeTyped (size - 1) (start ++ s.block) = (line, s.held)) ∧
    ∀ more t, (∀ a ∈ more, a.input = false) → run (step bufsiz) s more = some t →
      t.lines = s.lines := by
  have hs := inv_of_run hrun
  obtain ⟨earlier, line, start, hlines, hstart, htake⟩ :=
    (hs.rested heof (Or.inl hphase) hwaiting).resolve_left htyped
  refine ⟨⟨earlier, line, start, hlines, hs.sent, ?_, hstart, htake⟩, fun more t hmore hrun' ↦ ?_⟩
  · have happend := takeTyped_append (size - 1) (start ++ s.block)
    rw [htake] at happend
    rw [← hs.typed, hlines, hwaiting, List.flatten_append, List.flatten_singleton, List.append_nil,
      List.append_assoc, List.append_assoc, happend]
  · have hquiet : Quiet s.lines s := by
      refine ⟨hwaiting, heof, rfl, fun sock h ↦ ?_⟩
      rw [hphase] at h
      cases h
    exact (invariant_of_along (C := fun _ a ↦ a.input = false)
      (fun _ _ _ hs hinput hstep ↦ hs.step hinput hstep) hquiet
      ((along_iff_forall hrun').mpr hmore) hrun').lines

/-- Three lines come at once, through a pipe that stays open. -/
def threeLines : List Label :=
  [.type (ascii "to\nbe\nor\n"), .select false, .read 9, .line false]

theorem held_threeLines : ∃ s, run (step 4096) init threeLines = some s ∧
    s.held = ascii "be\nor\n" ∧ ∀ more t, (∀ a ∈ more, a.input = false) →
      run (step 4096) s more = some t → t.lines = [ascii "to\n"] := by
  have hseen : (run (step 4096) init threeLines).map
      (fun s ↦ ((s.phase, s.eof), (s.waiting, s.typed), (s.held, s.lines))) =
        some ((.polling, false), ([], ascii "to\nbe\nor\n"),
          (ascii "be\nor\n", [ascii "to\n"])) := by
    decide +kernel
  obtain ⟨s, hrun, hs⟩ := Option.map_eq_some_iff.mp hseen
  obtain ⟨⟨hphase, heof⟩, ⟨hwaiting, htyped⟩, hheld, hlines⟩ : (_ ∧ _) ∧ (_ ∧ _) ∧ _ ∧ _ := by
    simpa only [Prod.mk.injEq] using hs
  refine ⟨s, hrun, hheld, fun more t hmore hrun' ↦ ?_⟩
  have hne : s.typed ≠ [] := by
    rw [htyped]
    decide
  rw [(held_of_run hrun hphase heof hwaiting hne).2 more t hmore hrun', hlines]

end SelectClient

end CodeOnLinux
