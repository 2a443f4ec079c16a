import CodeOnLinux.Echo.InBounds
import CodeOnLinux.ProcessServer.Server

/-!
# What is said to a client

A child reads whatever has arrived, up to `SIZE` bytes, and writes it back up to its first NUL. So
of a client that sends no NUL every byte comes back, in order and once, however the stream is cut
into reads, up to the text that ends the loop (`conversation_accounted`). Which text that is depends
on the cut: one that begins with `quit`, or one that fills the buffer, where `strlen` overruns it.
-/

namespace CodeOnLinux

namespace ProcessServer

open Transition Echo

variable {limit : ℕ} {s t : State} {a : Label} {text : Bytes}

/-! ## One turn -/

theorem strlen_received (text : Bytes) : strlen (received text) =
    if 0 ∈ received text then .ok (cString text).length else .error .outOfBounds := by
  rw [strlen, received_eq_padded, cString_padded]

/-- The comparison does not look behind the text. -/
theorem isQuit_received (text : Bytes) : isQuit (received text) = isQuit text := by
  have hzero : (0 : UInt8) ∉ ascii "quit" := by decide
  rw [isQuit, isQuit, received_eq_padded]
  rcases padded_cases size text with heq | ⟨tail, heq⟩
  · rw [heq]
  · rw [heq]
    exact decide_eq_decide.mpr (take_append_zero_eq_iff hzero tail)

/-- **A turn**, by what was read. -/
theorem turn_eq (text : Bytes) : turn text =
    if isQuit text then .ok .quit
    else if 0 ∈ received text then
      .ok (if cString text = [] then .empty else .echo (cString text))
    else .error .outOfBounds := by
  rw [turn, isQuit_received]
  split_ifs with hquit hzero hempty
  · rfl
  · rw [strlen_received, if_pos hzero, Checked.ok_bind, hempty]
    rfl
  · have hlen : (cString text).length ≠ 0 := fun h ↦ hempty (List.length_eq_zero_iff.mp h)
    have htake : (received text).take (cString text).length = cString text := by
      rw [received_eq_padded, ← cString_padded size text, take_length_cString]
    rw [strlen_received, if_pos hzero, Checked.ok_bind, if_neg hlen, htake]
    rfl
  · rw [strlen_received, if_neg hzero, Checked.error_bind]

theorem isQuit_of_turn (h : turn text = .ok .quit) : text.take 4 = ascii "quit" := by
  rw [turn_eq] at h
  split_ifs at h with hquit hzero hempty
  · exact of_decide_eq_true hquit
  · cases h
  · cases h

theorem cString_of_turn_empty (h : turn text = .ok .empty) : cString text = [] := by
  rw [turn_eq] at h
  split_ifs at h with hquit hzero hempty
  · cases h
  · exact hempty
  · cases h

theorem answer_of_turn {answer : Bytes} (h : turn text = .ok (.echo answer)) :
    answer = cString text := by
  rw [turn_eq] at h
  split_ifs at h with hquit hzero hempty
  · cases h
  · cases h
  · cases h
    rfl

theorem zero_of_turn_error {e : Fault} (h : turn text = .error e) : 0 ∉ received text := by
  rw [turn_eq] at h
  split_ifs at h with hquit hzero
  exact hzero

/-! ## The conversation so far -/

/-- What the text that ended the loop says about how it ended. -/
def Conversation.Closing (c : Conversation) : Prop :=
  match c.child with
  | .serving => c.last = []
  | .quit => turn c.last = .ok .quit
  | .empty => c.last ≠ [] ∧ turn c.last = .ok .empty
  | .endOfStream => c.last = [] ∧ c.unread = [] ∧ c.shut = true
  | .failed => True
  | .overrun => c.last.length ≤ size ∧ ∃ e, turn c.last = .error e

/-- All that the client has sent is accounted for, and what was written back is the strings of the
texts that were read. -/
structure Conversation.Sound (c : Conversation) : Prop where
  /-- All that the client has sent is accounted for. -/
  accounted : c.texts.flatten ++ c.last ++ c.unread = c.sent
  /-- What was written back is the strings of the texts that were read. -/
  echoed : c.echoed = c.texts.flatMap cString
  /-- The loop has ended for a reason. -/
  closing : c.Closing

theorem Conversation.sound_start : Conversation.start.Sound := ⟨rfl, rfl, rfl⟩

theorem Conversation.Sound.last_eq_nil {c : Conversation} (hc : c.Sound)
    (hserving : c.child = .serving) : c.last = [] := by
  have hclosing := hc.closing
  rw [Conversation.Closing, hserving] at hclosing
  exact hclosing

/-- Taking a text off what is unread. -/
theorem Conversation.Sound.take_drop {c : Conversation} (hc : c.Sound)
    (hserving : c.child = .serving) (k : ℕ) :
    c.texts.flatten ++ c.unread.take k ++ c.unread.drop k = c.sent := by
  rw [List.append_assoc, List.take_append_drop, ← hc.accounted, hc.last_eq_nil hserving,
    List.append_nil]

theorem Conversation.Sound.next {c c' : Conversation} (hc : c.Sound) (h : c.Next c') :
    c'.Sound := by
  have hclosing := hc.closing
  cases h with
  | @send text hopen =>
    refine ⟨?_, hc.echoed, ?_⟩
    · rw [← List.append_assoc, hc.accounted]
    · -- behind the end of the stream nothing is sent
      rw [Conversation.Closing] at hclosing ⊢
      cases hchild : c.child with
      | endOfStream =>
        rw [hchild] at hclosing
        have hshut := hclosing.2.2
        rw [hopen] at hshut
        cases hshut
      | _ =>
        rw [hchild] at hclosing
        exact hclosing
  | shut =>
    refine ⟨hc.accounted, hc.echoed, ?_⟩
    rw [Conversation.Closing] at hclosing ⊢
    cases hchild : c.child with
    | endOfStream =>
      rw [hchild] at hclosing
      exact ⟨hclosing.1, hclosing.2.1, rfl⟩
    | _ =>
      rw [hchild] at hclosing
      exact hclosing
  | @echo k answer hserving hk hturn =>
    refine ⟨?_, ?_, ?_⟩
    · simp only [List.flatten_append, List.flatten_singleton, hc.last_eq_nil hserving,
        List.append_nil]
      exact hc.take_drop hserving k
    · simp only [List.flatMap_append, List.flatMap_singleton, ← answer_of_turn hturn, hc.echoed]
    · simp only [Conversation.Closing, hserving]
      exact hc.last_eq_nil hserving
  | @overrun k e hserving hk hturn =>
    exact ⟨hc.take_drop hserving k, hc.echoed, (List.length_take_le k _).trans hk, e, hturn⟩

theorem Conversation.Sound.ends {c c' : Conversation} (hc : c.Sound) (hserving : c.child = .serving)
    (h : c.Ends c') : c'.Sound := by
  cases h with
  | quit hturn => exact ⟨hc.take_drop hserving _, hc.echoed, hturn⟩
  | empty htext hturn => exact ⟨hc.take_drop hserving _, hc.echoed, htext, hturn⟩
  | endOfStream hunread hshut =>
    exact ⟨hc.accounted, hc.echoed, hc.last_eq_nil hserving, hunread, hshut⟩
  | readFails => exact ⟨hc.accounted, hc.echoed, trivial⟩
  | writeFails => exact ⟨hc.take_drop hserving _, hc.echoed, trivial⟩

/-- Changing one conversation for a sound one. -/
theorem sound_update {f : ℕ → Conversation} (hf : ∀ n, (f n).Sound) {n : ℕ} {c : Conversation}
    (hc : c.Sound) (m : ℕ) : (Function.update f n c m).Sound := by
  by_cases hm : m = n
  · rw [hm, Function.update_self]
    exact hc
  · rw [Function.update_of_ne hm]
    exact hf m

theorem sound_step (hs : ∀ n, (s.conversations n).Sound) (h : step limit s a = some t) (n : ℕ) :
    (t.conversations n).Sound := by
  cases step_cases h with
  | accept hparent hfree => exact sound_update hs Conversation.sound_start n
  | stop => exact hs n
  | same => exact hs n
  | reaped hparent => exact hs n
  | @next m c hm hnext => exact sound_update hs ((hs m).next hnext) n
  | @ends m c hserving hends => exact sound_update hs ((hs m).ends hserving.2 hends) n

theorem sound_of_run {labels : List Label} (hrun : run (step limit) init labels = some s) (n : ℕ) :
    (s.conversations n).Sound :=
  invariant_of_run (I := fun s ↦ ∀ n, (s.conversations n).Sound) (fun _ _ _ hs h ↦ sound_step hs h)
    (fun _ ↦ Conversation.sound_start) hrun n

/-- How the loop of a child has ended, by the text that ended it. -/
def Conversation.EndedBy (c : Conversation) : Prop :=
  match c.child with
  | .serving => c.last = []
  | .quit => c.last.take 4 = ascii "quit"
  | .empty => False
  | .endOfStream => c.last = [] ∧ c.unread = []
  | .failed => True
  | .overrun => c.last.length = size

/-- What was read of a client without NULs has none either, so it is read as it was sent. -/
theorem Conversation.Sound.cString_eq {c : Conversation} (hc : c.Sound) (hzero : 0 ∉ c.sent)
    (hsub : text ⊆ c.texts.flatten ++ c.last) : cString text = text := by
  refine cString_eq_self fun h ↦ hzero ?_
  rw [← hc.accounted]
  exact List.mem_append_left _ (hsub h)

theorem Conversation.Sound.echoed_append {c : Conversation} (hc : c.Sound) (hzero : 0 ∉ c.sent) :
    c.echoed ++ c.last ++ c.unread = c.sent := by
  have htexts : c.texts.map cString = c.texts.map id := by
    refine List.map_congr_left fun text htext ↦ hc.cString_eq hzero ?_
    exact fun b hb ↦ List.mem_append_left _ (List.mem_flatten_of_mem htext hb)
  rw [hc.echoed, List.flatMap_def, htexts, List.map_id, hc.accounted]

/-- **Nothing is lost on the way.** In every state of every run, however the streams were cut into
reads and whatever the other processes do: of a client that has sent no NUL, what was written back,
the text that ended the loop of its child, and what was not read are together what it has sent. -/
theorem conversation_accounted {labels : List Label}
    (hrun : run (step limit) init labels = some s) (n : ℕ) (hzero : 0 ∉ (s.conversations n).sent) :
    (s.conversations n).echoed ++ (s.conversations n).last ++ (s.conversations n).unread =
      (s.conversations n).sent ∧ (s.conversations n).EndedBy := by
  have hs := sound_of_run hrun n
  have hclosing := hs.closing
  refine ⟨hs.echoed_append hzero, ?_⟩
  rw [Conversation.Closing] at hclosing
  rw [Conversation.EndedBy]
  cases hchild : (s.conversations n).child with
  | serving => rwa [hchild] at hclosing
  | quit =>
    rw [hchild] at hclosing
    exact isQuit_of_turn hclosing
  | empty =>
    rw [hchild] at hclosing
    have hempty := cString_of_turn_empty hclosing.2
    rw [hs.cString_eq hzero (List.subset_append_right _ _)] at hempty
    exact hclosing.1 hempty
  | endOfStream =>
    rw [hchild] at hclosing
    exact ⟨hclosing.1, hclosing.2.1⟩
  | failed => trivial
  | overrun =>
    rw [hchild] at hclosing
    obtain ⟨hle, e, hturn⟩ := hclosing
    have hfull := zero_of_turn_error hturn
    rw [zero_mem_received_iff, not_or] at hfull
    exact le_antisymm hle (Nat.le_of_not_lt hfull.1)

/-- A text that arrives in two pieces comes back whole. -/
theorem hello_echoed : (run (step 8) init
    [.accept, .send 0 (ascii "hello"), .read 0 2, .read 0 3]).map
      (fun s ↦ (s.conversations 0).echoed) = some (ascii "hello") := by
  have hrest : (run (step 8) init [.accept, .send 0 (ascii "hello"), .read 0 2, .read 0 3]).map
      (fun s ↦ ((s.conversations 0).sent, (s.conversations 0).last, (s.conversations 0).unread)) =
        some (ascii "hello", [], []) := by decide +kernel
  obtain ⟨s, hrun, hs⟩ := Option.map_eq_some_iff.mp hrest
  obtain ⟨hsent, hlast, hunread⟩ : _ ∧ _ ∧ _ := by simpa only [Prod.mk.injEq] using hs
  have hzero : 0 ∉ (s.conversations 0).sent := by
    rw [hsent]
    decide
  obtain ⟨haccounted, -⟩ := conversation_accounted hrun 0 hzero
  rw [hsent, hlast, hunread, List.append_nil, List.append_nil] at haccounted
  rw [hrun, Option.map_some, haccounted]

end ProcessServer

end CodeOnLinux
