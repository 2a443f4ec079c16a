import CodeOnLinux.Foundation.Agreement
import CodeOnLinux.WebServer.Server

/-!
# The server over two systems

The functions that answer a request see the system only through the results of its calls. Where one
system simulates another call by call, under relations that may differ while a file or a directory
is open, `respond` does the same over both (`Simulation.respond`): the same result, the same fault,
and related systems behind it. In particular what the server does for one connection of many can be
computed in a world that has this connection only.

More fuel does not change what is returned (`respond_mono`).
-/

namespace CodeOnLinux

namespace WebServer

open Memory Stdio Pub Checked

variable {ω ω' : Type}

/-! ## Simulations -/

/-- The system `k` simulates `k'` for calls on behalf of the connections `connfd` and `connfd'`:
every call gives the same result, and leads to systems that are related again. -/
structure Simulation (k : Kernel ω) (k' : Kernel ω') (connfd connfd' : ℤ) where
  /-- The relation while no file is open. -/
  between : ω → ω' → Prop
  /-- The relation while the descriptors that `open` gave are open. -/
  file : ℤ → ℤ → ω → ω' → Prop
  /-- The relation while the streams that `opendir` gave are open. -/
  dir : ℕ → ℕ → ω → ω' → Prop
  /-- The relation once the connection is closed. -/
  done : ω → ω' → Prop
  /-- `send`, while no file is open. -/
  send : ∀ text {w w'}, between w w' → (k.send connfd text w).1 = (k'.send connfd' text w').1 ∧
    between (k.send connfd text w).2 (k'.send connfd' text w').2
  /-- `send`, while a file is open. -/
  sendOfFile : ∀ text {fd fd' w w'}, file fd fd' w w' →
    (k.send connfd text w).1 = (k'.send connfd' text w').1 ∧
      file fd fd' (k.send connfd text w).2 (k'.send connfd' text w').2
  /-- `send`, while a directory is open. -/
  sendOfDir : ∀ text {d d' w w'}, dir d d' w w' →
    dir d d' (k.send connfd text w).2 (k'.send connfd' text w').2
  /-- `stat` -/
  stat : ∀ path {w w'}, between w w' → (k.stat path w).1 = (k'.stat path w').1 ∧
    between (k.stat path w).2 (k'.stat path w').2
  /-- `open`, whether or not it fails. -/
  openRead : ∀ path {w w'}, between w w' → file (k.openRead path w).1 (k'.openRead path w').1
    (k.openRead path w).2 (k'.openRead path w').2
  /-- `read`, from the file that is open. -/
  read : ∀ n {fd fd' w w'}, file fd fd' w w' → (k.read fd n w).1 = (k'.read fd' n w').1 ∧
    file fd fd' (k.read fd n w).2 (k'.read fd' n w').2
  /-- `close`, of that file. -/
  closeFile : ∀ {fd fd' w w'}, file fd fd' w w' → between (k.close fd w) (k'.close fd' w')
  /-- `opendir` fails in both systems or in none. -/
  opendir : ∀ path {w w'}, between w w' →
    ((k.opendir path w).1 = none ∧ (k'.opendir path w').1 = none ∧
      between (k.opendir path w).2 (k'.opendir path w').2) ∨
    ∃ d d', (k.opendir path w).1 = some d ∧ (k'.opendir path w').1 = some d' ∧
      dir d d' (k.opendir path w).2 (k'.opendir path w').2
  /-- `readdir` -/
  readdir : ∀ {d d' w w'}, dir d d' w w' → (k.readdir d w).1 = (k'.readdir d' w').1 ∧
    dir d d' (k.readdir d w).2 (k'.readdir d' w').2
  /-- `closedir` -/
  closedir : ∀ {d d' w w'}, dir d d' w w' → between (k.closedir d w) (k'.closedir d' w')
  /-- `close`, of the connection. -/
  close : ∀ {w w'}, between w w' → done (k.close connfd w) (k'.close connfd' w')

/-- The same result, and related systems. -/
def Both {α : Type} (R : ω → ω' → Prop) (p : α × ω) (p' : α × ω') : Prop :=
  p.1 = p'.1 ∧ R p.2 p'.2

namespace Simulation

variable {k : Kernel ω} {k' : Kernel ω'} {connfd connfd' : ℤ} (S : Simulation k k' connfd connfd')
  {w : ω} {w' : ω'}

/-- After a request the connection is open or closed, on both sides. -/
def after (w : ω) (w' : ω') : Prop := S.between w w' ∨ S.done w w'

theorem sendLines (lines : List Bytes) (h : S.between w w') :
    Agree (Both S.between) (sendLines k connfd lines w) (sendLines k' connfd' lines w') := by
  induction lines generalizing w w' with
  | nil => exact .ok ⟨rfl, h⟩
  | cons line lines ih =>
    rw [WebServer.sendLines, WebServer.sendLines]
    refine Agree.bind_same fun text ↦ ?_
    obtain ⟨hret, hnext⟩ := S.send text h
    simp only [hret]
    split_ifs
    · exact .ok ⟨rfl, hnext⟩
    · exact ih hnext

theorem sendFileLoop (fuel : ℕ) {fd fd' : ℤ} (h : S.file fd fd' w w') :
    Agree (S.file fd fd') (sendFileLoop k connfd fd fuel w)
      (sendFileLoop k' connfd' fd' fuel w') := by
  induction fuel generalizing w w' with
  | zero => exact .error _
  | succ fuel ih =>
    rw [WebServer.sendFileLoop, WebServer.sendFileLoop]
    obtain ⟨hread, hnext⟩ := S.read maxSize h
    rcases hblock : k.read fd maxSize w with ⟨block, w₁⟩
    rcases hblock' : k'.read fd' maxSize w' with ⟨block', w₁'⟩
    rw [hblock, hblock'] at hread hnext
    obtain rfl : block = block' := hread
    obtain _ | _ | ⟨b, buffer⟩ := block
    · exact .ok hnext
    · exact .ok hnext
    · obtain ⟨hret, hsent⟩ := S.sendOfFile (b :: buffer) hnext
      simp only [hret]
      split_ifs
      · exact .ok hsent
      · exact ih hsent

theorem sendFile (fuel : ℕ) (name : Bytes) (h : S.between w w') :
    Agree (Both S.between) (WebServer.sendFile k fuel connfd name w)
      (WebServer.sendFile k' fuel connfd' name w') := by
  have hopen := S.openRead name h
  rw [WebServer.sendFile, WebServer.sendFile]
  exact (S.sendFileLoop fuel hopen).bind fun w w' hloop ↦ .ok ⟨rfl, S.closeFile hloop⟩

theorem sendDirLoop (fuel : ℕ) {d d' : ℕ} (h : S.dir d d' w w') :
    Agree (S.dir d d') (sendDirLoop k connfd d fuel w) (sendDirLoop k' connfd' d' fuel w') := by
  induction fuel generalizing w w' with
  | zero => exact .error _
  | succ fuel ih =>
    rw [WebServer.sendDirLoop, WebServer.sendDirLoop]
    obtain ⟨hread, hnext⟩ := S.readdir h
    rcases hentry : k.readdir d w with ⟨entry, w₁⟩
    rcases hentry' : k'.readdir d' w' with ⟨entry', w₁'⟩
    rw [hentry, hentry'] at hread hnext
    obtain rfl : entry = entry' := hread
    cases entry with
    | none => exact .ok hnext
    | some entry => exact Agree.bind_same fun text ↦ ih (S.sendOfDir text hnext)

theorem sendDir (fuel : ℕ) (name : Bytes) (h : S.between w w') :
    Agree (Both S.between) (WebServer.sendDir k fuel connfd name w)
      (WebServer.sendDir k' fuel connfd' name w') := by
  rw [WebServer.sendDir, WebServer.sendDir]
  rcases hopen : k.opendir name w with ⟨d, w₁⟩
  rcases hopen' : k'.opendir name w' with ⟨d', w₁'⟩
  have hdir := S.opendir name h
  rw [hopen, hopen'] at hdir
  obtain ⟨hnone, hnone', hnext⟩ | ⟨d, d', hsome, hsome', hnext⟩ := hdir
  · obtain rfl : d = none := hnone
    obtain rfl : d' = none := hnone'
    exact .ok ⟨rfl, hnext⟩
  · simp only at hsome hsome'
    subst hsome hsome'
    exact (S.sendDirLoop fuel hnext).bind fun w w' hloop ↦ .ok ⟨rfl, S.closedir hloop⟩

/-- **The answer over both systems.** -/
theorem respond (fuel : ℕ) (pfile : Bytes) (h : S.between w w') :
    Agree (Both S.after) (respond k fuel connfd pfile w) (respond k' fuel connfd' pfile w') := by
  rw [WebServer.respond, WebServer.respond]
  obtain ⟨hstat, hnext⟩ := S.stat pfile h
  rcases hfound : k.stat pfile w with ⟨found, w₁⟩
  rcases hfound' : k'.stat pfile w' with ⟨found', w₁'⟩
  rw [hfound, hfound'] at hstat hnext
  obtain rfl : found = found' := hstat
  cases found with
  | none =>
    refine (S.sendLines _ hnext).bind fun r r' hheader ↦ ?_
    refine (S.sendFile fuel _ hheader.2).bind fun r r' hpage ↦ ?_
    exact .ok ⟨rfl, Or.inl hpage.2⟩
  | some s =>
    simp only
    cases s.kind with
    | regular =>
      refine (S.sendLines _ hnext).bind fun r r' hheader ↦ ?_
      refine (S.sendFile fuel _ hheader.2).bind fun r r' hfile ↦ ?_
      exact .ok ⟨rfl, Or.inr (S.close hfile.2)⟩
    | directory =>
      refine (S.sendLines _ hnext).bind fun r r' hheader ↦ ?_
      refine (S.sendFile fuel _ hheader.2).bind fun r r' hupper ↦ ?_
      refine (S.sendDir fuel _ hupper.2).bind fun r r' hlist ↦ ?_
      refine (S.sendFile fuel _ hlist.2).bind fun r r' hlower ↦ ?_
      exact .ok ⟨rfl, Or.inr (S.close hlower.2)⟩
    | other => exact .ok ⟨rfl, Or.inl hnext⟩

end Simulation

/-! ## More fuel -/

section

variable {k : Kernel ω} {connfd : ℤ} {m n : ℕ}

theorem sendFileLoop_mono {fd : ℤ} (hmn : m ≤ n) (w : ω) :
    Below (sendFileLoop k connfd fd m w) (sendFileLoop k connfd fd n w) := by
  induction m generalizing n w with
  | zero => exact below_error _ _
  | succ m ih =>
    obtain ⟨n, rfl⟩ := Nat.exists_eq_add_one_of_ne_zero (Nat.ne_of_gt (Nat.zero_lt_of_lt hmn))
    rw [sendFileLoop, sendFileLoop]
    rcases k.read fd maxSize w with ⟨_ | _ | ⟨b, buffer⟩, w⟩
    · exact .refl _
    · exact .refl _
    · simp only
      split_ifs
      · exact .refl _
      · exact ih (Nat.le_of_succ_le_succ hmn) _

theorem sendFile_mono (hmn : m ≤ n) (name : Bytes) (w : ω) :
    Below (sendFile k m connfd name w) (sendFile k n connfd name w) :=
  (sendFileLoop_mono hmn _).bind fun _ ↦ .refl _

theorem sendDirLoop_mono {d : ℕ} (hmn : m ≤ n) (w : ω) :
    Below (sendDirLoop k connfd d m w) (sendDirLoop k connfd d n w) := by
  induction m generalizing n w with
  | zero => exact below_error _ _
  | succ m ih =>
    obtain ⟨n, rfl⟩ := Nat.exists_eq_add_one_of_ne_zero (Nat.ne_of_gt (Nat.zero_lt_of_lt hmn))
    rw [sendDirLoop, sendDirLoop]
    rcases k.readdir d w with ⟨_ | entry, w⟩
    · exact .refl _
    · exact (Below.refl _).bind fun text ↦ ih (Nat.le_of_succ_le_succ hmn) _

theorem sendDir_mono (hmn : m ≤ n) (name : Bytes) (w : ω) :
    Below (sendDir k m connfd name w) (sendDir k n connfd name w) := by
  rw [sendDir, sendDir]
  rcases k.opendir name w with ⟨_ | d, w⟩
  · exact .refl _
  · exact (sendDirLoop_mono hmn w).bind fun _ ↦ .refl _

theorem respond_mono (hmn : m ≤ n) (pfile : Bytes) (w : ω) :
    Below (respond k m connfd pfile w) (respond k n connfd pfile w) := by
  rw [respond, respond]
  rcases k.stat pfile w with ⟨_ | s, w⟩
  · exact (Below.refl _).bind fun r ↦ (sendFile_mono hmn _ r.2).bind fun _ ↦ .refl _
  · simp only
    cases s.kind with
    | regular => exact (Below.refl _).bind fun r ↦ (sendFile_mono hmn _ r.2).bind fun _ ↦ .refl _
    | directory =>
      refine (Below.refl _).bind fun r ↦ (sendFile_mono hmn _ r.2).bind fun r ↦ ?_
      exact (sendDir_mono hmn _ r.2).bind fun r ↦ (sendFile_mono hmn _ r.2).bind fun _ ↦ .refl _
    | other => exact .refl _

theorem headerLoop_mono {σ : Type} (recv : Bool → σ → Recv × σ) (hmn : m ≤ n) (s : σ) :
    Below (headerLoop recv m s) (headerLoop recv n s) := by
  induction m generalizing n s with
  | zero => exact below_error _ _
  | succ m ih =>
    obtain ⟨n, rfl⟩ := Nat.exists_eq_add_one_of_ne_zero (Nat.ne_of_gt (Nat.zero_lt_of_lt hmn))
    rw [headerLoop, headerLoop]
    refine (Below.refl _).bind ?_
    rintro ⟨ret, buffer, s⟩
    simp only
    split_ifs
    · exact .refl _
    · exact ih (Nat.le_of_succ_le_succ hmn) _

theorem readRequest_mono (hmn : m ≤ n) (stack : Stack) (w : ω) :
    Below (readRequest k m connfd stack w) (readRequest k n connfd stack w) := by
  rw [readRequest, readRequest]
  refine (Below.refl _).bind fun r ↦ (Below.refl _).bind fun line ↦ ?_
  refine (Below.refl _).bind fun words ↦ (Below.refl _).bind fun url ↦ ?_
  exact (headerLoop_mono _ hmn _).bind fun _ ↦ .refl _

theorem httpRequest_mono (hmn : m ≤ n) (stack : Stack) (w : ω) :
    Below (httpRequest k m connfd stack w) (httpRequest k n connfd stack w) := by
  rw [httpRequest, httpRequest]
  refine (readRequest_mono hmn stack w).bind fun r ↦ (Below.refl _).bind fun pfile ↦ ?_
  cases pfile with
  | none => exact .refl _
  | some pfile => exact respond_mono hmn pfile r.2

end

end WebServer

end CodeOnLinux
