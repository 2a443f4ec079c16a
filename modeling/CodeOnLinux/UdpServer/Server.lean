import CodeOnLinux.Echo.InBounds
import CodeOnLinux.Foundation.Transition

/-!
# The echo server on UDP: `05_Day14/01_udp/server.c`

The server answers one datagram after the other with the string it finds in its buffer. A label of
`step` is what one turn of the loop is given: a failure of `recvfrom`, or a datagram and whether
`sendto` fails. `sendto` otherwise takes the whole answer and returns its length.

A reply without bytes is a success for which `sendto` returns zero, and the loop takes it for a
failure. So it is not enough that no call fails: the server goes on as long as every datagram has a
string in it that is not empty (`serves_iff`).
-/

namespace CodeOnLinux

namespace UdpServer

open Memory Transition
open Echo (size received received_eq_padded strlen strlen_ok zero_mem_received_iff)

/-! ## The loop -/

inductive Phase
  /-- The server is about to call `recvfrom`. -/
  | receiving
  /-- It has gone to `err1` and closed its socket. -/
  | left
  | crashed (f : Fault)
  deriving DecidableEq

/-- The server, for the type `A` of addresses. -/
structure State (A : Type) where
  /-- Where it is. -/
  phase : Phase
  /-- Not in the source: what `recvfrom` has returned. -/
  arrived : List (A × Bytes)
  /-- Not in the source: what `sendto` has sent. -/
  sent : List (A × Bytes)
  /-- Not in the source: whether one of the two has returned `-1`. -/
  failed : Bool

inductive Label (A : Type)
  | recvfromFails
  | datagram (sender : A) (text : Bytes) (sendtoFails : Bool)

variable {A : Type}

def init (A : Type) : State A := ⟨.receiving, [], [], false⟩

/-- The bytes that are sent for a datagram; the buffer takes `SIZE` bytes of it. -/
def answer (text : Bytes) : Checked Bytes := do
  let buffer := received (text.take size)
  let _ ← readStr buffer 0
  let n ← strlen buffer
  return buffer.take n

/-- From `recvfrom`, which has returned a datagram, to the next one. -/
def State.turn (s : State A) (sender : A) (text : Bytes) (sendtoFails : Bool) : State A :=
  let s := { s with arrived := s.arrived ++ [(sender, text)] }
  match answer text with
  | .error f => { s with phase := .crashed f }
  | .ok reply =>
    let ret : ℤ := if sendtoFails then -1 else reply.length
    let s := { s with
      sent := if sendtoFails then s.sent else s.sent ++ [(sender, reply)]
      failed := sendtoFails }
    if ret ≤ 0 then { s with phase := .left } else s

def step (s : State A) : Label A → Option (State A)
  | .recvfromFails => guarded (s.phase = .receiving) { s with phase := .left, failed := true }
  | .datagram sender text sendtoFails =>
    guarded (s.phase = .receiving) (s.turn sender text sendtoFails)

/-! ## One datagram -/

/-- There is a NUL in the buffer: the datagram leaves one or brings one. -/
def Terminated (text : Bytes) : Prop := (text.take size).length < size ∨ 0 ∈ text.take size

/-- There is something in front of it. -/
def Begun (text : Bytes) : Prop := ∃ b ∈ text.head?, b ≠ 0

instance decidableTerminated (text : Bytes) : Decidable (Terminated text) :=
  inferInstanceAs (Decidable ((text.take size).length < size ∨ 0 ∈ text.take size))

theorem answer_of_terminated {text : Bytes} (h : Terminated text) :
    answer text = .ok (cString (text.take size)) := by
  have hzero := zero_mem_received_iff.mpr h
  rw [answer, readStr_ok hzero, Checked.ok_bind, strlen_ok hzero, Checked.ok_bind,
    take_length_cString, received_eq_padded, cString_padded]
  rfl

theorem answer_of_not_terminated {text : Bytes} (h : ¬Terminated text) :
    answer text = .error .outOfBounds := by
  have hzero : 0 ∉ received (text.take size) := fun hmem ↦ h (zero_mem_received_iff.mp hmem)
  rw [answer, readStr, List.drop_zero, if_neg hzero]
  rfl

theorem begun_iff (text : Bytes) : Begun text ↔ cString (text.take size) ≠ [] := by
  have hhead : (text.take size).head? = text.head? := by
    rw [List.head?_take, if_neg (by decide)]
  rw [ne_eq, cString_eq_nil_iff, hhead, ← List.head?_eq_none_iff, hhead, Begun]
  cases text.head? with
  | none => simp
  | some b => simp

instance decidableBegun (text : Bytes) : Decidable (Begun text) :=
  decidable_of_iff (cString (text.take size) ≠ []) (begun_iff text).symm

/-! ## Service -/

/-- Every datagram has been answered, to its sender, and the server waits for the next one; or it
has left the loop because a call failed. -/
def Serving (s : State A) : Prop :=
  s.phase = .receiving ∧ s.sent.map Prod.fst = s.arrived.map Prod.fst ∨
    s.phase = .left ∧ s.failed = true

/-- What the loop needs of its environment: a datagram has a NUL in the buffer, and one that does
not stand at its front unless `sendto` fails anyway. -/
def Label.Handled : Label A → Prop
  | .recvfromFails => True
  | .datagram _ text sendtoFails => Terminated text ∧ (sendtoFails = true ∨ Begun text)

/-- What is sent for a datagram. -/
def reply (d : A × Bytes) : A × Bytes := (d.1, cString (d.2.take size))

/-- `Serving`, with the answers. -/
def Answering (s : State A) : Prop :=
  s.phase = .receiving ∧ s.sent = s.arrived.map reply ∨ s.phase = .left ∧ s.failed = true

theorem Answering.serving {s : State A} (h : Answering s) : Serving s := by
  rcases h with ⟨hphase, hsent⟩ | hleft
  · refine Or.inl ⟨hphase, ?_⟩
    rw [hsent, List.map_map]
    rfl
  · exact Or.inr hleft

variable {s : State A} {sender : A} {text : Bytes}

theorem turn_of_begun (s : State A) (sender : A) (h : Terminated text) (hbegun : Begun text) :
    s.turn sender text false =
      { s with
        arrived := s.arrived ++ [(sender, text)]
        sent := s.sent ++ [reply (sender, text)]
        failed := false } := by
  have hpos : ¬((cString (text.take size)).length : ℤ) ≤ 0 := by
    have := List.length_pos_of_ne_nil ((begun_iff text).mp hbegun)
    omega
  simp only [State.turn, answer_of_terminated h, Bool.false_eq_true, if_false, if_neg hpos, reply]

/-- `sendto` returns 0 for an answer without bytes. -/
theorem turn_of_not_begun (s : State A) (sender : A) (h : Terminated text) (hbegun : ¬Begun text) :
    (s.turn sender text false).phase = .left ∧ (s.turn sender text false).failed = false := by
  have hnil : cString (text.take size) = [] := by
    rwa [begun_iff, not_not] at hbegun
  simp only [State.turn, answer_of_terminated h, hnil, Bool.false_eq_true, if_false,
    List.length_nil, Nat.cast_zero, le_refl, if_true, and_self]

theorem turn_of_sendtoFails (h : Terminated text) :
    (s.turn sender text true).phase = .left ∧ (s.turn sender text true).failed = true := by
  have hneg : (-1 : ℤ) ≤ 0 := by decide
  simp only [State.turn, answer_of_terminated h, if_true, if_pos hneg, and_self]

theorem turn_of_not_terminated (s : State A) (sender : A) (h : ¬Terminated text)
    (sendtoFails : Bool) :
    (s.turn sender text sendtoFails).phase = .crashed .outOfBounds := by
  simp only [State.turn, answer_of_not_terminated h]

theorem Serving.phase (hs : Serving s) :
    s.phase = .receiving ∨ s.phase = .left ∧ s.failed = true := by
  rcases hs with ⟨hphase, -⟩ | hleft
  · exact Or.inl hphase
  · exact Or.inr hleft

/-- **One turn** keeps the service up exactly for the labels that are handled. -/
theorem answering_step {t : State A} {a : Label A} (hs : Answering s) (hst : step s a = some t) :
    (a.Handled → Answering t) ∧ (Serving t → a.Handled) := by
  cases a with
  | recvfromFails =>
    obtain ⟨-, rfl⟩ := guarded_eq_some.mp hst
    exact ⟨fun _ ↦ Or.inr ⟨rfl, rfl⟩, fun _ ↦ trivial⟩
  | datagram sender text sendtoFails =>
    obtain ⟨hphase, rfl⟩ := guarded_eq_some.mp hst
    have hsent : s.sent = s.arrived.map reply := by
      rcases hs with ⟨-, hsent⟩ | ⟨hleft, -⟩
      · exact hsent
      · cases hphase.symm.trans hleft
    constructor
    · rintro ⟨hterm, hok⟩
      cases sendtoFails with
      | true => exact Or.inr (turn_of_sendtoFails hterm)
      | false =>
        have hbegun : Begun text := hok.resolve_left Bool.false_ne_true
        rw [turn_of_begun s sender hterm hbegun]
        refine Or.inl ⟨hphase, ?_⟩
        rw [List.map_append, ← hsent]
        rfl
    · intro ht
      have hterm : Terminated text := by
        by_contra hterm
        have hcrashed := turn_of_not_terminated s sender hterm sendtoFails
        rcases ht.phase with hphase | ⟨hphase, -⟩ <;> cases hcrashed.symm.trans hphase
      refine ⟨hterm, ?_⟩
      cases sendtoFails with
      | true => exact Or.inl rfl
      | false =>
        right
        by_contra hbegun
        -- the loop was left, and nothing had failed
        obtain ⟨hleft, hfailed⟩ := turn_of_not_begun s sender hterm hbegun
        rcases ht.phase with hphase | ⟨-, htrue⟩
        · cases hleft.symm.trans hphase
        · cases hfailed.symm.trans htrue

theorem answering_init : Answering (init A) := Or.inl ⟨rfl, rfl⟩

/-! ## Sequences of datagrams -/

/-- Datagrams whose answers are all taken. -/
def datagrams (ds : List (A × Bytes)) : List (Label A) := ds.map fun d ↦ .datagram d.1 d.2 false

theorem receiving_of_run {s t : State A} {as : List (Label A)} (hrun : run step s as = some t)
    (ht : t.phase = .receiving) : s.phase = .receiving := by
  cases as with
  | nil =>
    obtain rfl := Option.some_inj.mp hrun
    exact ht
  | cons a as =>
    obtain ⟨u, hu, -⟩ := run_cons_eq_some.mp hrun
    cases a with
    | recvfromFails => exact (guarded_eq_some.mp hu).1
    | datagram sender text sendtoFails => exact (guarded_eq_some.mp hu).1

theorem handled_of_turn (h : (s.turn sender text false).phase = .receiving) :
    Terminated text ∧ Begun text := by
  have hterm : Terminated text := by
    by_contra hterm
    cases (turn_of_not_terminated s sender hterm false).symm.trans h
  refine ⟨hterm, ?_⟩
  by_contra hbegun
  cases (turn_of_not_begun s sender hterm hbegun).1.symm.trans h

theorem handled_of_run {ds : List (A × Bytes)} {s t : State A}
    (hrun : run step s (datagrams ds) = some t) (ht : t.phase = .receiving) :
    ∀ d ∈ ds, Terminated d.2 ∧ Begun d.2 := by
  induction ds generalizing s with
  | nil => exact fun d hd ↦ absurd hd List.not_mem_nil
  | cons d ds ih =>
    obtain ⟨u, hu, htail⟩ := run_cons_eq_some.mp hrun
    have hphase := receiving_of_run htail ht
    obtain ⟨-, rfl⟩ := guarded_eq_some.mp hu
    exact List.forall_mem_cons.mpr ⟨handled_of_turn hphase, ih htail⟩

theorem run_datagrams {ds : List (A × Bytes)} (hds : ∀ d ∈ ds, Terminated d.2 ∧ Begun d.2)
    {s : State A} (hphase : s.phase = .receiving) (hfailed : s.failed = false) :
    run step s (datagrams ds) =
      some { s with arrived := s.arrived ++ ds, sent := s.sent ++ ds.map reply } := by
  induction ds generalizing s with
  | nil => simp only [datagrams, List.map_nil, run_nil, List.append_nil]
  | cons d ds ih =>
    obtain ⟨⟨hterm, hbegun⟩, hds⟩ := List.forall_mem_cons.mp hds
    have hturn := turn_of_begun s d.1 hterm hbegun
    have hrest := ih hds (s := s.turn d.1 d.2 false) (by rw [hturn]; exact hphase) (by rw [hturn])
    refine run_cons_of (guarded_of hphase _) (hrest.trans ?_)
    simp only [hturn, List.append_assoc, List.singleton_append, List.map_cons, hfailed]

/-- **The service**, over every run and for every sequence of datagrams.

In a run the server is up in every state, and every datagram has been answered there, exactly if
each label is handled; then the answers are the strings that the datagrams start with. A sequence of
datagrams, with answers that `sendto` takes, brings the server back to `recvfrom` exactly if each of
them has a string in it that is not empty. -/
theorem serves_iff :
    (∀ (as : List (Label A)) (t : State A), run step (init A) as = some t →
      ((∀ done u, done <+: as → run step (init A) done = some u → Serving u) ↔
        ∀ a ∈ as, a.Handled) ∧
      ((∀ a ∈ as, a.Handled) → Answering t)) ∧
    ∀ ds : List (A × Bytes),
      (∃ t, run step (init A) (datagrams ds) = some t ∧ t.phase = .receiving ∧ t.arrived = ds ∧
        t.sent = ds.map reply) ↔
      ∀ d ∈ ds, Terminated d.2 ∧ Begun d.2 := by
  constructor
  · intro as t hrun
    rw [← along_iff_forall hrun]
    refine ⟨?_, fun halong ↦ ?_⟩
    · exact throughout_iff_along (fun _ hs ↦ hs.serving)
        (fun _ _ _ hs hst ↦ answering_step hs hst) answering_init hrun
    · exact invariant_of_along (fun _ _ _ hs ha hst ↦ (answering_step hs hst).1 ha)
        answering_init halong hrun
  · intro ds
    constructor
    · rintro ⟨t, hrun, hphase, -⟩
      exact handled_of_run hrun hphase
    · intro hds
      exact ⟨_, run_datagrams hds rfl rfl, rfl, List.nil_append ds, List.nil_append _⟩

/-- Two clients, the first of them twice; the second has a NUL in his datagram. -/
def greetings : List (ℕ × Bytes) :=
  [(1, ascii "hello\n"), (2, ascii "bye" ++ 0 :: ascii "x"), (1, ascii "again\n")]

theorem serves_iff_hello : ∃ t, run step (init ℕ) (datagrams greetings) = some t ∧
    t.phase = .receiving ∧ t.arrived = greetings ∧
      t.sent = [(1, ascii "hello\n"), (2, ascii "bye"), (1, ascii "again\n")] :=
  (serves_iff.2 greetings).mpr (by decide)

/-- The server does not wait for another datagram behind this one. -/
def EndsWith (text : Bytes) : Prop :=
  ¬∃ t, run step (init ℕ) (datagrams [(1, text)]) = some t ∧ t.phase = .receiving

theorem endsWith_of_not {text : Bytes} (h : ¬(Terminated text ∧ Begun text)) : EndsWith text := by
  rintro ⟨t, hrun, hphase⟩
  exact h (handled_of_run hrun hphase _ (List.mem_singleton_self _))

/-- A datagram without bytes, one that starts with a NUL, and one that fills the buffer without a
NUL. -/
theorem not_serves :
    EndsWith [] ∧ EndsWith (0 :: ascii "hello") ∧ EndsWith (List.replicate size (byte 'a')) := by
  refine ⟨endsWith_of_not ?_, endsWith_of_not ?_, endsWith_of_not ?_⟩
  · decide
  · decide
  · decide +kernel

end UdpServer

end CodeOnLinux
