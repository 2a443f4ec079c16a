import CodeOnLinux.Chatroom.Server
import CodeOnLinux.Foundation.Merge

/-!
# The order of the messages in the chat room

The children of the chat server relay at the same time, and a message is written to one client after
the other. So a run of `Room.step` takes the loop of a child over `fd_list` entry by entry, and any
other process may move between two entries.

A message is what one `read` brings, up to its first NUL. A `read` that fills the buffer and brings
no NUL is left out, since `strlen` runs past the end of the buffer then; and a write takes the whole
message.

For each sender everything is in order: every client from the first one up to the sender's own gets
all of his messages as he said them, but for the one that is just being relayed, which the clients
in front of the list have and those behind have not (`sent_of_run`). Nobody else gets any.

Messages of two senders may reach two clients `d` and `e`, `e` the later one, in different orders.
How much the orders differ is bounded on one side, for those senders that both can hear, who did not
join before `e`: whatever `d` has been sent by them before some message, `e` has been sent before
that message too, but for at most one message of each of them (`seen_before`). Senders who joined
before `e` may have said any number of things to `d`, and `e` hears none of them.
-/

namespace CodeOnLinux

namespace Chatroom

open Transition Merge

/-! ## Relaying entry by entry -/

/-- The server, and where the children are in their loops. -/
structure Room where
  /-- The processes. -/
  server : State
  /-- The text in the `buffer` of the child of each client. -/
  buffer : ℕ → Bytes
  /-- The `j` of its loop over `fd_list`; `SIZE` while it is not in that loop. -/
  j : ℕ → ℕ
  /-- Not in the source: the messages that each child has taken up. -/
  said : ℕ → List Bytes
  /-- Not in the source: what was written to which connection, on behalf of whom. -/
  written : List (File × ℕ × Bytes)

inductive Event
  /-- A step of the parent, or of a child that is not relaying. -/
  | server (a : Label)
  /-- The child of client `c` reads a message. -/
  | message (c : ℕ) (text : Bytes)
  /-- It looks at the next entry of its list; whether the write succeeds matters if there is one. -/
  | entry (c : ℕ) (succeeds : Bool)

def Room.init (sockfd : ℕ) : Room where
  server := Chatroom.init sockfd
  buffer := fun _ ↦ []
  j := fun _ ↦ size
  said := fun _ ↦ []
  written := []

/-- The process that takes the step waits in `accept` or `read`. Messages are not read in this way:
they are relayed entry by entry. -/
def Label.waiting (j : ℕ → ℕ) : Label → Bool
  | .accept _ _ => true
  | .interrupted => true
  | .acceptFails => true
  | .message _ _ _ => false
  | .quit c _ => j c = size
  | .endOfStream c => j c = size
  | .readFails c => j c = size

/-- The child of `c` has read `text`; `strlen(buffer)` bytes of it are going to be written. -/
def Room.take (r : Room) (c : ℕ) (text : Bytes) : Room :=
  { r with
    buffer := Function.update r.buffer c (cString text)
    j := Function.update r.j c 0
    said := Function.update r.said c (r.said c ++ [cString text]) }

def Room.next (r : Room) (c : ℕ) : Room := { r with j := Function.update r.j c (r.j c + 1) }

/-- `fd_list[j]`, and what becomes of the write to it. A closed descriptor gives `-1` and an empty
text `0`, and the child leaves. -/
def Room.entry (r : Room) (c : ℕ) (p : Process) (succeeds : Bool) : Room :=
  let fd := p.fdList.getD (r.j c) 0
  if fd = 0 then r.next c
  else match p.table fd with
    | some file =>
      if succeeds ∧ r.buffer c ≠ [] then
        { r.next c with written := r.written ++ [(file, c, r.buffer c)] }
      else { r with server := r.server.exit c }
    | none => { r with server := r.server.exit c }

def Room.step (sockfd : ℕ) (r : Room) : Event → Option Room
  | .server a =>
    if a.waiting r.j then (Chatroom.step sockfd r.server a).map fun s ↦ { r with server := s }
    else none
  | .message c text =>
    (r.server.children c).bind fun _ ↦
      -- a text that fills the buffer without a NUL would be read past its end
      guarded (r.j c = size ∧ text ≠ [] ∧ text.length ≤ size ∧ (0 ∈ text ∨ text.length < size) ∧
        ¬isQuit text) (r.take c text)
  | .entry c succeeds =>
    (r.server.children c).bind fun ch ↦
      guarded (r.j c < size) (r.entry c ch.process succeeds)

/-- The child goes on, leaves, or writes to what the entry stands for. -/
theorem entry_cases (r : Room) (c : ℕ) (p : Process) (succeeds : Bool) :
    r.entry c p succeeds = r.next c ∨
      r.entry c p succeeds = { r with server := r.server.exit c } ∨
      ∃ file, r.entry c p succeeds =
        { r.next c with written := r.written ++ [(file, c, r.buffer c)] } := by
  by_cases hzero : p.fdList.getD (r.j c) 0 = 0
  · exact Or.inl (if_pos hzero)
  · rw [Room.entry, if_neg hzero]
    cases p.table (p.fdList.getD (r.j c) 0) with
    | none => exact Or.inr (Or.inl rfl)
    | some file =>
      by_cases hgood : succeeds ∧ r.buffer c ≠ []
      · exact Or.inr (Or.inr ⟨file, if_pos hgood⟩)
      · exact Or.inr (Or.inl (if_neg hgood))

/-- What was written to the connection of client `d`, with the senders. -/
def Room.stream (r : Room) (d : ℕ) : List (ℕ × Bytes) := part (.client d) r.written

/-- What the child of `c` has written to the connection of client `d`. -/
def Room.sent (r : Room) (c d : ℕ) : List Bytes := part c (r.stream d)

theorem sent_eq_of_written {r q : Room} (h : q.written = r.written) (c d : ℕ) :
    q.sent c d = r.sent c d := by
  rw [Room.sent, Room.stream, h, Room.sent, Room.stream]

theorem sent_snoc {r q : Room} {file : File} {c : ℕ} {text : Bytes}
    (h : q.written = r.written ++ [(file, c, text)]) (b d : ℕ) :
    q.sent b d = if file = .client d ∧ b = c then r.sent b d ++ [text] else r.sent b d := by
  rw [Room.sent, Room.stream, h, part_append, part_append, ← Room.stream, ← Room.sent]
  by_cases hfile : file = .client d
  · rw [hfile, part_cons_self, part_nil]
    by_cases hb : b = c
    · rw [hb, part_cons_self, part_nil, if_pos ⟨rfl, rfl⟩]
    · rw [part_cons_of_ne (Ne.symm hb), part_nil, List.append_nil, if_neg fun h ↦ hb h.2]
  · rw [part_cons_of_ne hfile, part_nil, part_nil, List.append_nil, if_neg fun h ↦ hfile h.1]

/-! ## Each sender's messages -/

/-- What the child of `c` has written: the clients in front of its `j` have all that `c` has said,
those from `j` on have all but the last message. -/
structure Relayed (sockfd : ℕ) (r : Room) : Prop where
  /-- The processes have their lists. -/
  copies : Copies sockfd r.server
  /-- Those who have not joined have said nothing. -/
  said : ∀ c, r.server.accepted ≤ c → r.said c = []
  /-- A child in its loop has the last message in its buffer. -/
  buffer : ∀ c, r.j c < size → ∃ earlier, r.said c = earlier ++ [r.buffer c]
  /-- A client in front of `j` has been sent everything, one from `j` on all but the last message.
  -/
  sent : ∀ c d, d ≤ c → r.sent c d = if d < r.j c then r.said c else (r.said c).dropLast
  /-- Nothing goes to those who joined later. -/
  later : ∀ c d, c < d → r.sent c d = []
  /-- Only connections of clients are written to. -/
  clients : ∀ w ∈ r.written, ∃ d, w.1 = .client d

variable {sockfd : ℕ} {r q : Room} {c d e : ℕ} {ch : Child}

theorem relayed_init (sockfd : ℕ) : Relayed sockfd (Room.init sockfd) where
  copies := copies_init sockfd
  said _ _ := rfl
  buffer _ h := absurd h (lt_irrefl size)
  sent _ _ _ := by split <;> rfl
  later _ _ _ := rfl
  clients w hw := absurd hw List.not_mem_nil

theorem accepted_le_of_step {s t : State} {a : Label} (h : Chatroom.step sockfd s a = some t) :
    s.accepted ≤ t.accepted := by
  cases a with
  | accept peerfd forked =>
    obtain ⟨⟨i, p⟩, -, h⟩ := Option.bind_eq_some_iff.mp h
    obtain ⟨-, rfl⟩ := guarded_eq_some.mp h
    rw [State.accept]
    split_ifs <;> exact Nat.le_succ _
  | interrupted | acceptFails | endOfStream c | readFails c =>
    obtain ⟨-, -, h⟩ := Option.bind_eq_some_iff.mp h
    obtain rfl := Option.some_inj.mp h
    exact le_rfl
  | message c text succeeds =>
    obtain ⟨ch, -, h⟩ := Option.bind_eq_some_iff.mp h
    obtain ⟨-, rfl⟩ := guarded_eq_some.mp h
    split <;> exact le_rfl
  | quit c text =>
    obtain ⟨-, -, h⟩ := Option.bind_eq_some_iff.mp h
    obtain ⟨-, rfl⟩ := guarded_eq_some.mp h
    exact le_rfl

/-- What only concerns the server leaves the messages as they are. -/
theorem Relayed.server (hr : Relayed sockfd r) {s : State} (hcopies : Copies sockfd s)
    (hle : r.server.accepted ≤ s.accepted) : Relayed sockfd { r with server := s } where
  copies := hcopies
  said c hc := hr.said c (hle.trans hc)
  buffer := hr.buffer
  sent := hr.sent
  later := hr.later
  clients := hr.clients

theorem Relayed.exit (hr : Relayed sockfd r) (c : ℕ) :
    Relayed sockfd { r with server := r.server.exit c } :=
  hr.server (hr.copies.exit c) le_rfl

/-- A child takes up a message: all clients have what was said before. -/
theorem Relayed.take (hr : Relayed sockfd r) (hch : r.server.children c = some ch)
    (hj : r.j c = size) (text : Bytes) : Relayed sockfd (r.take c text) := by
  obtain ⟨hc, -, hlists⟩ := hr.copies.child c ch hch
  refine ⟨hr.copies, fun b hb ↦ ?_, fun b hb ↦ ?_, fun b d hd ↦ ?_, hr.later, hr.clients⟩
  · have hbc : b ≠ c := fun h ↦ absurd hc (not_lt_of_ge (h ▸ hb))
    exact (Function.update_of_ne hbc _ _).trans (hr.said b hb)
  · by_cases hbc : b = c
    · subst hbc
      refine ⟨r.said b, ?_⟩
      simp only [Room.take, Function.update_self]
    · simp only [Room.take, Function.update_of_ne hbc] at hb ⊢
      exact hr.buffer b hb
  · rw [sent_eq_of_written (q := r.take c text) (r := r) rfl, hr.sent b d hd]
    by_cases hbc : b = c
    · subst hbc
      have hlt : d < size := hd.trans_lt hlists.le_size
      simp only [Room.take, Function.update_self, hj, if_pos hlt, if_neg (Nat.not_lt_zero d),
        List.dropLast_concat]
    · simp only [Room.take, Function.update_of_ne hbc]

/-- Behind the clients of the list there is nothing to write to. -/
theorem Relayed.next (hr : Relayed sockfd r) (hj : c < r.j c) : Relayed sockfd (r.next c) := by
  refine ⟨hr.copies, hr.said, fun b hb ↦ ?_, fun b d hd ↦ ?_, hr.later, hr.clients⟩
  · by_cases hbc : b = c
    · subst hbc
      simp only [Room.next, Function.update_self] at hb
      exact hr.buffer b (by omega)
    · simp only [Room.next, Function.update_of_ne hbc] at hb
      exact hr.buffer b hb
  · rw [sent_eq_of_written (q := r.next c) (r := r) rfl, hr.sent b d hd]
    by_cases hbc : b = c
    · subst hbc
      simp only [Room.next, Function.update_self]
      rw [if_pos (hd.trans_lt hj), if_pos ((hd.trans_lt hj).trans (Nat.lt_succ_self _))]
    · simp only [Room.next, Function.update_of_ne hbc]

/-- The write to client `j` brings him the last message. -/
theorem Relayed.write (hr : Relayed sockfd r) (hj : r.j c ≤ c) (hlt : r.j c < size) :
    Relayed sockfd { r.next c with
      written := r.written ++ [(.client (r.j c), c, r.buffer c)] } := by
  obtain ⟨earlier, hsaid⟩ := hr.buffer c hlt
  have hsnoc := sent_snoc (r := r)
    (q := { r.next c with written := r.written ++ [(.client (r.j c), c, r.buffer c)] }) rfl
  refine ⟨hr.copies, hr.said, fun b hb ↦ ?_, fun b d hd ↦ ?_, fun b d hd ↦ ?_, fun w hw ↦ ?_⟩
  · by_cases hbc : b = c
    · subst hbc
      exact ⟨earlier, hsaid⟩
    · simp only [Room.next, Function.update_of_ne hbc] at hb
      exact hr.buffer b hb
  · rw [hsnoc, hr.sent b d hd]
    by_cases hbc : b = c
    · subst hbc
      simp only [Room.next, Function.update_self, File.client.injEq, and_true]
      by_cases hd' : d = r.j b
      · rw [if_pos hd'.symm, if_neg (by omega), if_pos (by omega), hsaid, List.dropLast_concat]
      · rw [if_neg (Ne.symm hd')]
        exact if_congr (by omega) rfl rfl
    · rw [if_neg fun h ↦ hbc h.2]
      simp only [Room.next, Function.update_of_ne hbc]
  · rw [hsnoc, if_neg, hr.later b d hd]
    rintro ⟨hfile, rfl⟩
    obtain rfl : r.j b = d := File.client.inj hfile
    omega
  · rcases List.mem_append.mp hw with hw | hw
    · exact hr.clients w hw
    · rw [List.mem_singleton.mp hw]
      exact ⟨_, rfl⟩

theorem Relayed.entry (hr : Relayed sockfd r) (hch : r.server.children c = some ch)
    (hlt : r.j c < size) (succeeds : Bool) : Relayed sockfd (r.entry c ch.process succeeds) := by
  obtain ⟨-, -, hlists⟩ := hr.copies.child c ch hch
  rcases Nat.lt_or_ge c (r.j c) with hj | hj
  · have hzero : ch.process.fdList.getD (r.j c) 0 = 0 := by
      rw [List.getD_eq_getElem?_getD, hlists.empty (r.j c) hj hlt, Option.getD_some]
    rw [Room.entry, if_pos hzero]
    exact hr.next hj
  · obtain ⟨fd, hfd, hne, hclient⟩ := hlists.client (r.j c) (Nat.lt_succ_of_le hj)
    have hget : ch.process.fdList.getD (r.j c) 0 = fd := by
      rw [List.getD_eq_getElem?_getD, hfd, Option.getD_some]
    simp only [Room.entry, hget, if_neg hne, hclient]
    split_ifs
    · exact hr.write hj hlt
    · exact hr.exit c

theorem Relayed.step (hr : Relayed sockfd r) {event : Event}
    (hstep : r.step sockfd event = some q) : Relayed sockfd q := by
  cases event with
  | server a =>
    rw [Room.step] at hstep
    split_ifs at hstep
    obtain ⟨s, hs, rfl⟩ := Option.map_eq_some_iff.mp hstep
    exact hr.server (hr.copies.step hs) (accepted_le_of_step hs)
  | message c text =>
    obtain ⟨ch, hch, hstep⟩ := Option.bind_eq_some_iff.mp hstep
    obtain ⟨⟨hj, -⟩, rfl⟩ := guarded_eq_some.mp hstep
    exact hr.take hch hj text
  | entry c succeeds =>
    obtain ⟨ch, hch, hstep⟩ := Option.bind_eq_some_iff.mp hstep
    obtain ⟨hj, rfl⟩ := guarded_eq_some.mp hstep
    exact hr.entry hch hj succeeds

theorem relayed_of_run {events : List Event}
    (hrun : run (Room.step sockfd) (Room.init sockfd) events = some r) : Relayed sockfd r :=
  invariant_of_run (fun _ _ _ hs hstep ↦ hs.step hstep) (relayed_init sockfd) hrun

/-! ## A message without interruption -/

/-- What the writes bring to which connection. -/
def landed (table : ℕ → Option File) (c : ℕ) (writes : List Write) : List (File × ℕ × Bytes) :=
  writes.filterMap fun w ↦ if w.succeeds then (table w.fd).map (·, c, w.text) else none

/-- The server after the child of `c` has made its writes. -/
def State.afterWrites (s : State) (c : ℕ) (writes : List Write) : State :=
  if ∀ w ∈ writes, w.succeeds then s else s.exit c

theorem afterWrites_cons (s : State) (c : ℕ) {w : Write} (hw : w.succeeds = true)
    (writes : List Write) : s.afterWrites c (w :: writes) = s.afterWrites c writes := by
  refine if_congr ?_ rfl rfl
  rw [List.forall_mem_cons]
  exact and_iff_right hw

theorem landed_cons {table : ℕ → Option File} {fd : ℕ} {file : File} (h : table fd = some file)
    (c : ℕ) (text : Bytes) (writes : List Write) :
    landed table c (⟨fd, text, true⟩ :: writes) = (file, c, text) :: landed table c writes := by
  rw [landed, List.filterMap_cons, if_pos rfl, h]
  rfl

/-- The rest of the loop, when nobody else moves. -/
theorem exists_run_entries (sockfd : ℕ) (succeeds : ℕ → Bool)
    (hch : r.server.children c = some ch)
    (hlen : ch.process.fdList.length = size) (hj : r.j c ≤ size) :
    ∃ events q, run (Room.step sockfd) r events = some q ∧
      q.server = r.server.afterWrites c
        (relay ch.process.table (r.buffer c) succeeds (ch.process.fdList.drop (r.j c))) ∧
      q.written = r.written ++ landed ch.process.table c
        (relay ch.process.table (r.buffer c) succeeds (ch.process.fdList.drop (r.j c))) := by
  obtain ⟨n, hn⟩ : ∃ n, n = size - r.j c := ⟨_, rfl⟩
  induction n generalizing r with
  | zero =>
    have hnil : ch.process.fdList.drop (r.j c) = [] := List.drop_eq_nil_of_le (by omega)
    refine ⟨[], r, rfl, ?_, ?_⟩
    · rw [hnil]
      exact (if_pos fun w hw ↦ absurd hw List.not_mem_nil).symm
    · rw [hnil]
      exact (List.append_nil _).symm
  | succ n ih =>
    have hlt : r.j c < size := by omega
    obtain ⟨fd, hfd⟩ : ∃ fd, ch.process.fdList.getD (r.j c) 0 = fd := ⟨_, rfl⟩
    have hdrop : ch.process.fdList.drop (r.j c) = fd :: ch.process.fdList.drop (r.j c + 1) := by
      have hlt' : r.j c < ch.process.fdList.length := hlen.symm ▸ hlt
      rw [List.drop_eq_getElem_cons hlt', ← hfd, List.getD_eq_getElem?_getD,
        List.getElem?_eq_getElem hlt', Option.getD_some]
    have hentry : ∀ ok, r.step sockfd (.entry c ok) = some (r.entry c ch.process ok) := fun ok ↦ by
      rw [Room.step, hch, Option.bind_some, guarded_of hlt]
    -- after an entry that does not end the loop
    have hgo : ∀ (q : Room) ok, r.entry c ch.process ok = q → q.server = r.server →
        q.buffer = r.buffer → q.j c = r.j c + 1 →
        ∃ events t, run (Room.step sockfd) r events = some t ∧
          t.server = r.server.afterWrites c
            (relay ch.process.table (r.buffer c) succeeds (ch.process.fdList.drop (r.j c + 1))) ∧
          t.written = q.written ++ landed ch.process.table c
            (relay ch.process.table (r.buffer c) succeeds
              (ch.process.fdList.drop (r.j c + 1))) := by
      intro q ok hq hserver hbuffer hj'
      obtain ⟨events, t, ht, hts, htw⟩ := ih (r := q) (by rw [hserver]; exact hch) (by omega)
        (by omega)
      rw [hserver, hbuffer, hj'] at hts
      rw [hbuffer, hj'] at htw
      exact ⟨.entry c ok :: events, t, run_cons_of (hq ▸ hentry ok) ht, hts, htw⟩
    rw [hdrop, relay]
    by_cases hzero : fd = 0
    · rw [if_pos hzero]
      exact hgo (r.next c) false (if_pos (hfd.trans hzero)) rfl rfl (Function.update_self _ _ _)
    · rw [if_neg hzero]
      split_ifs with hgood
      · obtain ⟨hok, hopen, htext⟩ := hgood
        obtain ⟨file, hfile⟩ := Option.ne_none_iff_exists'.mp hopen
        have hwrite : r.entry c ch.process true =
            { r.next c with written := r.written ++ [(file, c, r.buffer c)] } := by
          simp only [Room.entry, hfd, if_neg hzero, hfile]
          exact if_pos ⟨trivial, htext⟩
        obtain ⟨events, t, ht, hts, htw⟩ :=
          hgo _ true hwrite rfl rfl (Function.update_self _ _ _)
        refine ⟨events, t, ht, ?_, ?_⟩
        · rw [hts, afterWrites_cons _ _ rfl]
        · rw [htw, landed_cons hfile, List.append_assoc]
          rfl
      · have hexit : r.entry c ch.process (succeeds fd) =
            { r with server := r.server.exit c } := by
          simp only [Room.entry, hfd, if_neg hzero]
          cases hfile : ch.process.table fd with
          | none => rfl
          | some file =>
            refine if_neg fun h ↦ hgood ⟨h.1, ?_, h.2⟩
            rw [hfile]
            exact Option.some_ne_none file
        refine ⟨[.entry c (succeeds fd)], _, run_cons_of (hexit ▸ hentry (succeeds fd)) rfl, ?_, ?_⟩
        · refine (if_neg fun h ↦ ?_).symm
          exact Bool.false_ne_true (h ⟨fd, r.buffer c, false⟩ (List.mem_singleton_self _))
        · exact (List.append_nil _).symm

/-- **A message without interruption.** Where a relay is one step, its outcome is the one of the
entries of the list taken in a row. -/
theorem exists_run_message {s : State} {text : Bytes} {succeeds : ℕ → Bool}
    (hr : Relayed sockfd r) (hch : r.server.children c = some ch) (hj : r.j c = size)
    (hstep : Chatroom.step sockfd r.server (.message c text succeeds) = some s) :
    ∃ events q, run (Room.step sockfd) r (.message c text :: events) = some q ∧ q.server = s ∧
      q.written = r.written ++ landed ch.process.table c (ch.relay text succeeds) := by
  obtain ⟨-, -, hlists⟩ := hr.copies.child c ch hch
  rw [Chatroom.step, hch, Option.bind_some] at hstep
  obtain ⟨hguard, rfl⟩ := guarded_eq_some.mp hstep
  have htake : r.step sockfd (.message c text) = some (r.take c text) := by
    rw [Room.step, hch, Option.bind_some, guarded_of ⟨hj, hguard⟩]
  have hbuffer : (r.take c text).buffer c = cString text := Function.update_self _ _ _
  have hzero : (r.take c text).j c = 0 := Function.update_self _ _ _
  obtain ⟨events, q, hrun, hserver, hwritten⟩ := exists_run_entries sockfd
    (r := r.take c text) succeeds hch hlists.length_eq (by rw [hzero]; exact Nat.zero_le _)
  rw [hbuffer, hzero, List.drop_zero] at hserver hwritten
  exact ⟨events, q, run_cons_of htake hrun, hserver, hwritten⟩

/-! ## What is said -/

/-- The text that a step makes the child of `c` relay. -/
def Event.said (c : ℕ) : Event → List Bytes
  | .message b text => if b = c then [cString text] else []
  | _ => []

/-- What the child of `c` has read in the course of a run, text by text. -/
def messages (c : ℕ) (events : List Event) : List Bytes := events.flatMap (Event.said c)

theorem said_of_step {event : Event} (c : ℕ) (hstep : r.step sockfd event = some q) :
    q.said c = r.said c ++ event.said c := by
  cases event with
  | server a =>
    rw [Room.step] at hstep
    split_ifs at hstep
    obtain ⟨s, -, rfl⟩ := Option.map_eq_some_iff.mp hstep
    exact (List.append_nil _).symm
  | message b text =>
    obtain ⟨ch, -, hstep⟩ := Option.bind_eq_some_iff.mp hstep
    obtain ⟨-, rfl⟩ := guarded_eq_some.mp hstep
    rw [Event.said]
    split_ifs with hb
    · rw [← hb]
      exact Function.update_self _ _ _
    · rw [List.append_nil]
      exact Function.update_of_ne (Ne.symm hb) _ _
  | entry b succeeds =>
    obtain ⟨ch, -, hstep⟩ := Option.bind_eq_some_iff.mp hstep
    obtain ⟨-, rfl⟩ := guarded_eq_some.mp hstep
    have hsaid : (r.entry b ch.process succeeds).said = r.said := by
      rcases entry_cases r b ch.process succeeds with h | h | ⟨file, h⟩ <;> rw [h] <;> rfl
    rw [hsaid]
    exact (List.append_nil _).symm

theorem said_of_run {events : List Event}
    (hrun : run (Room.step sockfd) (Room.init sockfd) events = some r) (c : ℕ) :
    r.said c = messages c events :=
  log_of_run (fun _ _ _ hstep ↦ said_of_step c hstep) hrun

/-- **The messages of each sender, in order.** In every state of every run, in which no message
fills a buffer, the connection of client `d` has been sent nothing by those who joined before `d`.
By every other client it has been sent all that he has said, each message up to its first NUL, but
for the last one if the child that relays it has not got to `d`. And the children have written to
nothing but the connections of clients. -/
theorem sent_of_run {events : List Event}
    (hrun : run (Room.step sockfd) (Room.init sockfd) events = some r) :
    (∀ c d, r.sent c d =
      if c < d then []
      else if d < r.j c then messages c events
      else (messages c events).dropLast) ∧
      ∀ w ∈ r.written, ∃ d, w.1 = .client d := by
  have hr := relayed_of_run hrun
  refine ⟨fun c d ↦ ?_, hr.clients⟩
  rw [← said_of_run hrun]
  split_ifs with hlt hj
  · exact hr.later c d hlt
  · rw [hr.sent c d (Nat.le_of_not_lt hlt), if_pos hj]
  · rw [hr.sent c d (Nat.le_of_not_lt hlt), if_neg hj]

/-- Three clients; the last two speak at the same time, and the first two hear them in different
orders. -/
def crossing : List Event :=
  [.server (.accept 4 true), .server (.accept 5 true), .server (.accept 6 true),
    .message 1 (ascii "one"), .message 2 (ascii "two"), .entry 1 true, .entry 2 true, .entry 2 true,
    .entry 1 true]

theorem sent_crossing : ∃ r, run (Room.step 3) (Room.init 3) crossing = some r ∧
    r.sent 1 1 = [ascii "one"] ∧ r.sent 1 2 = [] := by
  have hj : (run (Room.step 3) (Room.init 3) crossing).map (fun r ↦ r.j 1) = some 2 := by
    decide +kernel
  obtain ⟨r, hrun, hr⟩ := Option.map_eq_some_iff.mp hj
  have hsent := (sent_of_run hrun).1
  exact ⟨r, hrun, by rw [hsent 1 1, hr]; rfl, by rw [hsent 1 2]; rfl⟩

/-! ## The messages of several senders -/

/-- A client farther behind in the list has the same messages of a sender, or lacks the last one. -/
theorem Relayed.behind (hr : Relayed sockfd r) (hde : d ≤ e) (hec : e ≤ c) :
    r.sent c e <+: r.sent c d ∧ (r.sent c d).length ≤ (r.sent c e).length + 1 := by
  rw [hr.sent c d (hde.trans hec), hr.sent c e hec]
  split_ifs with he hd hd
  · exact ⟨List.prefix_refl _, Nat.le_succ _⟩
  · omega
  · exact ⟨List.dropLast_prefix _, by rw [List.length_dropLast]; omega⟩
  · exact ⟨List.prefix_refl _, Nat.le_succ _⟩

theorem written_of_step {event : Event} (hstep : r.step sockfd event = some q) :
    q.written = r.written ∨ ∃ w, q.written = r.written ++ [w] := by
  cases event with
  | server a =>
    rw [Room.step] at hstep
    split_ifs at hstep
    obtain ⟨s, -, rfl⟩ := Option.map_eq_some_iff.mp hstep
    exact Or.inl rfl
  | message b text =>
    obtain ⟨ch, -, hstep⟩ := Option.bind_eq_some_iff.mp hstep
    obtain ⟨-, rfl⟩ := guarded_eq_some.mp hstep
    exact Or.inl rfl
  | entry b succeeds =>
    obtain ⟨ch, -, hstep⟩ := Option.bind_eq_some_iff.mp hstep
    obtain ⟨-, rfl⟩ := guarded_eq_some.mp hstep
    rcases entry_cases r b ch.process succeeds with h | h | ⟨file, h⟩
    · exact Or.inl (by rw [h]; rfl)
    · exact Or.inl (by rw [h])
    · exact Or.inr ⟨_, by rw [h]⟩

/-- The time at which the connection of a client had been sent just what is in front of a message,
and the message. -/
theorem exists_run_of_stream {events : List Event} {u v : List (ℕ × Bytes)}
    (hrun : run (Room.step sockfd) (Room.init sockfd) events = some r)
    (hstream : r.stream e = u ++ v) :
    ∃ done q, run (Room.step sockfd) (Room.init sockfd) done = some q ∧ q.written <+: r.written ∧
      q.stream e = u := by
  obtain ⟨w, w', hw, hu, -⟩ := exists_append_of_part hstream
  obtain ⟨done, q, -, hq, hwritten⟩ := exists_run_of_log_prefix
    (fun _ _ _ hstep ↦ written_of_step hstep) hrun List.nil_prefix ⟨w', hw.symm⟩
  refine ⟨done, q, hq, ⟨w', by rw [hwritten, hw]⟩, ?_⟩
  rw [Room.stream, hwritten, hu]

/-- No message of an earlier client is on the connection. -/
theorem Relayed.part_eq_nil (hr : Relayed sockfd r) {front back : List (ℕ × Bytes)}
    (hstream : r.stream e = front ++ back) (hlt : c < e) :
    part c front = [] ∧ part c back = [] := by
  have hnil := hr.later c e hlt
  rw [Room.sent, hstream, part_append] at hnil
  exact List.append_eq_nil_iff.mp hnil

/-- When `e` has been sent more messages of `b` than `front` has, `d` has been sent the next one of
them too, if `front` and that message are how its connection goes on. -/
theorem Relayed.sent_next (hr : Relayed sockfd r) (hde : d ≤ e) {b : ℕ} (heb : e ≤ b) {x : Bytes}
    {front back : List (ℕ × Bytes)} (hstream : r.stream d <+: front ++ (b, x) :: back)
    (hmore : (part b front).length < (r.sent b e).length) :
    front ++ [(b, x)] <+: r.stream d := by
  refine List.prefix_of_prefix_length_le ⟨back, by simp⟩ hstream ?_
  by_contra hlt
  rw [List.length_append, List.length_singleton, not_le, Nat.lt_succ_iff] at hlt
  have hfront := List.prefix_of_prefix_length_le hstream (List.prefix_append front _) hlt
  have hle := (part_mono hfront b).length_le
  have hge := (hr.behind hde heb).1.length_le
  rw [Room.sent, Room.sent] at hge
  rw [Room.sent] at hmore
  omega

/-- What `d` has been sent by `c`, but for the last message, `e` has been sent too. -/
theorem Relayed.dropLast_prefix (hr : Relayed sockfd r) (hde : d ≤ e) (hec : e ≤ c)
    {texts : List Bytes} (htexts : texts <+: r.sent c d) : texts.dropLast <+: r.sent c e := by
  obtain ⟨hpre, hle⟩ := hr.behind hde hec
  refine List.prefix_of_prefix_length_le ((List.dropLast_prefix _).trans htexts) hpre ?_
  have hlen := htexts.length_le
  rw [List.length_dropLast]
  omega

/-- **Who has heard what before.** Let `d` and `e` be clients, `e` not in front of `d`, that have
both been sent the `n`-th message of `b`. It is the same message. What `d` had been sent before it
by a sender who joined no earlier than `e`, `e` had been sent too, but for at most the last message
of that sender; and by those who joined earlier than `e`, `e` has been sent nothing. -/
theorem seen_before {events : List Event} {b : ℕ} {x y : Bytes} {u v u' v' : List (ℕ × Bytes)}
    (hrun : run (Room.step sockfd) (Room.init sockfd) events = some r) (hde : d ≤ e)
    (hd : r.stream d = u ++ (b, x) :: v) (he : r.stream e = u' ++ (b, y) :: v')
    (hn : (part b u).length = (part b u').length) :
    x = y ∧ (∀ a, e ≤ a → (part a u).dropLast <+: part a u') ∧ ∀ a, a < e → part a u' = [] := by
  have heb : e ≤ b := by
    by_contra hlt
    obtain ⟨-, hnil⟩ := (relayed_of_run hrun).part_eq_nil he (Nat.lt_of_not_le hlt)
    rw [part_cons_self] at hnil
    exact List.cons_ne_nil _ _ hnil
  -- look at the time at which `e` has just been sent the message
  obtain ⟨done, q, hq, hwritten, hqe⟩ :=
    exists_run_of_stream (u := u' ++ [(b, y)]) (v := v') hrun (by rw [he]; simp)
  have hrel := relayed_of_run hq
  have hsent : q.sent b e = part b u' ++ [y] := by
    rw [Room.sent, hqe, part_append, part_cons_self, part_nil]
  have hqd : q.stream d <+: u ++ (b, x) :: v := hd ▸ part_mono hwritten (.client d)
  -- by then `d` has been sent the message too
  have hstream : u ++ [(b, x)] <+: q.stream d := by
    refine hrel.sent_next hde heb hqd ?_
    rw [hsent, List.length_append, hn]
    exact Nat.lt_succ_self _
  have hpart : ∀ a, part a u ++ part a [(b, x)] <+: q.sent a d := fun a ↦ by
    rw [← part_append]
    exact part_mono hstream a
  have hb := hpart b
  rw [part_cons_self, part_nil] at hb
  have hlen : (part b u ++ [x]).length = (part b u' ++ [y]).length := by
    rw [List.length_append, List.length_append, hn]
    rfl
  have heq : part b u ++ [x] = part b u' ++ [y] := by
    rw [← hsent] at hlen ⊢
    exact (List.prefix_of_prefix_length_le hb (hrel.behind hde heb).1 hlen.le).eq_of_length hlen
  obtain ⟨hub, hxy⟩ := List.append_inj' heq rfl
  refine ⟨(List.cons.inj hxy).1, fun a ha ↦ ?_,
    fun a ha ↦ ((relayed_of_run hrun).part_eq_nil he ha).1⟩
  by_cases hab : a = b
  · rw [hab, hub]
    exact List.dropLast_prefix _
  · have hua := hpart a
    have hsenta : q.sent a e = part a u' := by
      rw [Room.sent, hqe, part_append, part_cons_of_ne (Ne.symm hab), part_nil, List.append_nil]
    rw [part_cons_of_ne (Ne.symm hab), part_nil, List.append_nil] at hua
    exact hsenta ▸ hrel.dropLast_prefix hde ha hua

theorem seen_before_crossing : ∃ r, run (Room.step 3) (Room.init 3) crossing = some r ∧
    r.stream 0 = [(1, ascii "one"), (2, ascii "two")] ∧
    r.stream 1 = [(2, ascii "two"), (1, ascii "one")] ∧
    (part 1 [(1, ascii "one")]).dropLast <+: part 1 ([] : List (ℕ × Bytes)) := by
  have hstreams : (run (Room.step 3) (Room.init 3) crossing).map
      (fun r ↦ (r.stream 0, r.stream 1)) = some
        ([(1, ascii "one"), (2, ascii "two")], [(2, ascii "two"), (1, ascii "one")]) := by
    decide +kernel
  obtain ⟨r, hrun, hr⟩ := Option.map_eq_some_iff.mp hstreams
  obtain ⟨hzero, hone⟩ := Prod.mk.inj hr
  have hd : r.stream 0 = [(1, ascii "one")] ++ (2, ascii "two") :: [] := hzero
  have he : r.stream 1 = [] ++ (2, ascii "two") :: [(1, ascii "one")] := hone
  exact ⟨r, hrun, hzero, hone, (seen_before hrun (Nat.zero_le 1) hd he rfl).2.1 1 le_rfl⟩

end Chatroom

end CodeOnLinux
