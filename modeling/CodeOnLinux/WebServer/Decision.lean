import CodeOnLinux.WebServer.Delivery

/-!
# What a request is judged by

`http_request` does not set its arrays, and `get_line` never returns the `-1` that the test behind
the call waits for. So where the bytes on the connection bring no URL, the decision is made by what
the stack holds, and that is as a rule the request before (`decision_eq`: without a line the words
are those of the stack).

Two runs on the same bytes decide alike, whatever their stacks hold, if and only if the first line
has a method and a URL, and words that fit the arrays (`judgedAlike_iff`).
-/

namespace CodeOnLinux

namespace WebServer

open Memory Stdio Pub Lines Filter

/-- What `http_request` does, and with which path. -/
inductive Decision
  | refused
  | notFound (path : Bytes)
  | file (path : Bytes)
  | directory (path : Bytes)
  | nothing (path : Bytes)
  deriving DecidableEq

section

variable {ω : Type} (k : Kernel ω) (connfd : ℤ)

/-- The branches of `http_request` behind the reading; `none` is a method that is refused. -/
def judge (w : ω) : Option Bytes → Decision
  | none => .refused
  | some pfile =>
    match (k.stat pfile w).1 with
    | none => .notFound pfile
    | some s =>
      match s.kind with
      | .regular => .file pfile
      | .directory => .directory pfile
      | .other => .nothing pfile

/-- `http_request` up to the branch that it takes. -/
def decision (fuel : ℕ) (stack : Stack) (w : ω) : Checked Decision := do
  let (words, w) ← readRequest k fuel connfd stack w
  let pfile ← route words
  return judge k w pfile

/-- Two runs from the same state, with any two contents of the arrays, decide alike. -/
def JudgedAlike (w : ω) : Prop :=
  ∀ stack stack', ∀ᶠ fuel in atTop, ∃ d,
    decision k connfd fuel stack w = .ok d ∧ decision k connfd fuel stack' w = .ok d

variable {k connfd} {f : Bytes → ω} {atEnd : Recv}

/-- **The decision** is that of the first line and the stack. -/
theorem decision_eq (hend : atEnd.Ends) (hf : ∀ peek s, k.recv connfd peek (f s) =
      Prod.map id f (streamRecv atEnd peek s)) {fuel : ℕ} (stack : Stack) {s : Bytes}
    (hfuel : s.length < fuel) : decision k connfd fuel stack (f s) =
      (lookup (takeLine 4095 s).1 stack.words).map (judge k (f [])) := by
  rw [decision, readRequest_eq hend hf stack hfuel, lookup, firstLine]
  cases readWords (cString (takeLine 4095 s).1) stack.words with
  | error e => rfl
  | ok a => cases hroute : route a <;> simp [Except.map, hroute]

/-- `http_request` acts on the decision. -/
theorem httpRequest_of_decision (hend : atEnd.Ends) (hf : ∀ peek s, k.recv connfd peek (f s) =
      Prod.map id f (streamRecv atEnd peek s)) {fuel : ℕ} {stack : Stack} {s : Bytes}
    (hfuel : s.length < fuel) {d : Decision}
    (hd : decision k connfd fuel stack (f s) = .ok d) :
    ∃ pfile, d = judge k (f []) pfile ∧ httpRequest k fuel connfd stack (f s) =
      match pfile with
      | none => .ok (1, f [])
      | some pfile => respond k fuel connfd pfile (f []) := by
  rw [decision_eq hend hf stack hfuel] at hd
  rw [httpRequest_eq hend hf stack hfuel]
  cases hlookup : lookup (takeLine 4095 s).1 stack.words with
  | error e =>
    rw [hlookup] at hd
    cases hd
  | ok pfile =>
    rw [hlookup] at hd
    exact ⟨pfile, (Except.ok.inj hd).symm, rfl⟩

/-- **Judged by its bytes**, exactly: for a connection that brings the bytes `s` and then
no more. -/
theorem judgedAlike_iff (hend : atEnd.Ends) (hf : ∀ peek s, k.recv connfd peek (f s) =
      Prod.map id f (streamRecv atEnd peek s)) (s : Bytes) :
    JudgedAlike k connfd (f s) ↔ (requestLine (firstLine s)).isSome := by
  rw [requestLine]
  constructor
  · intro h
    rw [Option.isSome_iff_ne_none]
    intro hline
    obtain ⟨e, he⟩ := lookup_of_none hline
    obtain ⟨fuel, ⟨d, hd, -⟩, hfuel⟩ :=
      ((h .ones .ones).and (eventually_gt_atTop s.length)).exists
    rw [decision_eq hend hf .ones hfuel, he] at hd
    cases hd
  · intro hline stack stack'
    obtain ⟨words, hwords⟩ := Option.isSome_iff_exists.mp hline
    filter_upwards [eventually_gt_atTop s.length] with fuel hfuel
    have hlookup : ∀ stack : Stack, decision k connfd fuel stack (f s) = .ok (judge k (f [])
        (if words.1.take 3 = ascii "GET" then some (target words.2) else none)) := by
      intro stack
      rw [decision_eq hend hf stack hfuel, lookup_eq hwords stack]
      rfl
    exact ⟨_, hlookup stack, hlookup stack'⟩

end

theorem judgedAlike_indexRequest :
    JudgedAlike (kernel site 5) 5 { World.start with input := indexRequest } :=
  (judgedAlike_iff Recv.ends_failed (recv_input site 5 .start) indexRequest).mpr
    (by decide +kernel)

/-- A stack with the words of an earlier request. -/
def Stack.after (method url : Bytes) (hmethod : method.length ≤ 32) (hurl : url.length ≤ 1024) :
    Stack where
  str := List.replicate maxSize 0
  words :=
    { method := method ++ List.replicate (32 - method.length) 0
      url := url ++ List.replicate (1024 - url.length) 0
      version := List.replicate 32 0 }
  length_str := List.length_replicate
  length_method := by rw [List.length_append, List.length_replicate]; omega
  length_url := by rw [List.length_append, List.length_replicate]; omega
  length_version := List.length_replicate

/-- Nothing has arrived: one run serves the file of the request before, the other refuses. -/
theorem not_judgedAlike : ¬∀ (fs : FileSystem) (connfd : ℕ) (s : Bytes),
    JudgedAlike (kernel fs connfd) connfd { World.start with input := s } := by
  intro h
  obtain ⟨fuel, ⟨d, hd, hd'⟩, hfuel⟩ := ((h site 5 []
    (.after (ascii "GET") (ascii "/index.html") (by decide) (by decide))
    (.after (ascii "POST") (ascii "/") (by decide) (by decide))).and
    (eventually_gt_atTop 0)).exists
  have hfuel : ([] : Bytes).length < fuel := hfuel
  rw [decision_eq Recv.ends_failed (recv_input site 5 .start) _ hfuel] at hd hd'
  have hget : lookup [] (Stack.after (ascii "GET") (ascii "/index.html") (by decide)
      (by decide)).words = .ok (some (ascii "index.html")) := by decide +kernel
  have hpost : lookup [] (Stack.after (ascii "POST") (ascii "/") (by decide)
      (by decide)).words = .ok none := by decide +kernel
  have hserved := (congrArg (Except.map _) hget).symm.trans hd
  have hrefused := (congrArg (Except.map _) hpost).symm.trans hd'
  obtain rfl := Except.ok.inj hserved
  exact absurd (Except.ok.inj hrefused) (by decide +kernel)

end WebServer

end CodeOnLinux
