import CodeOnLinux.DebugServer.Server
import CodeOnLinux.Foundation.Blocks
import Mathlib.Order.Filter.AtTopBot.Basic

/-!
# A file on a socket that is slow to take it

Connections are non-blocking, so a `send` may take a part of its block, or return `-1` with `EAGAIN`
where there is no room at all. The two `send_file`s of the `epoll` servers go on with the next block
in the one case and give up in the other: each block is offered once.

So the bytes that the socket takes are those of the file if and only if each block that `read`
brings finds room for all of it (`delivers_iff`).
-/

namespace CodeOnLinux

namespace Web

open Pub Filter Blocks
open WebServer (Kernel)

/-! ## A file and a socket -/

/-- A file on its way to the client. -/
structure Transfer where
  /-- The rest of the file. -/
  file : Bytes
  /-- How many times `read` was called. -/
  reads : ℕ
  /-- How many times `send` was called. -/
  sends : ℕ
  /-- The bytes that the socket has taken. -/
  accepted : Bytes

def Transfer.start : Transfer := ⟨[], 0, 0, []⟩

/-- Both servers read at most 4096 bytes at a time, and `read` may stop before. -/
def blockLength (lengths : ℕ → ℕ) (i : ℕ) : ℕ := partLength WebServer.maxSize (lengths i)

theorem blockLength_pos (lengths : ℕ → ℕ) (i : ℕ) : 0 < blockLength lengths i :=
  partLength_pos _ _

section

variable (content : Bytes) (lengths room : ℕ → ℕ)

/-- Every path is the file `content`. The `i`-th `read` brings what `lengths i` says, as long as the
file lasts, and the `i`-th `send` finds room for `room i` bytes: without room it returns `-1`. -/
def slow : Kernel Transfer where
  recv _ _ w := (.failed, w)
  send _ text w :=
    if room w.sends = 0 then (-1, { w with sends := w.sends + 1 })
    else
      ((text.take (room w.sends)).length,
        { w with
          sends := w.sends + 1
          accepted := w.accepted ++ text.take (room w.sends) })
  stat _ w := (some ⟨.regular, content.length⟩, w)
  openRead _ w := (3, { w with file := content })
  read _ n w :=
    (some (w.file.take (partLength n (lengths w.reads))),
      { w with
        file := w.file.drop (partLength n (lengths w.reads))
        reads := w.reads + 1 })
  close _ w := w
  opendir _ w := (none, w)
  readdir _ w := (none, w)
  closedir _ w := w

def slowSystem : DebugServer.System Transfer where
  toKernel := slow content lengths room
  noEntry _ := false
  epollDel _ _ w := w

/-- The blocks in which the file is read. -/
def fileBlock (i : ℕ) : Bytes := block (blockLength lengths) content i

/-! ## Delivery -/

/-- The socket takes more data again and again. -/
def Accepting (room : ℕ → ℕ) : Prop := ∀ i, ∃ j, i ≤ j ∧ 0 < room j

/-- `send_file` of `01_webserver` returns, and the socket has taken the file. -/
def Delivers (connfd : ℤ) : Prop :=
  ∀ᶠ fuel in atTop, ∀ fileName, ∃ w, WebServer.sendFile (slow content lengths room) fuel connfd
    fileName Transfer.start = .ok (0, w) ∧ w.accepted = content

/-- The same of the server under debugging. -/
def DebugDelivers (connfd : ℤ) : Prop :=
  ∀ᶠ fuel in atTop, ∀ fileName, ∃ w, DebugServer.sendFile (slowSystem content lengths room) fuel
    connfd fileName Transfer.start = .ok w ∧ w.accepted = content

/-- Each block that was read has been offered, and the file goes on behind it. -/
structure InStep (w : Transfer) : Prop where
  /-- Each block that was read has been offered. -/
  sends : w.sends = w.reads
  /-- The file goes on behind it. -/
  file : w.file = content.drop (offset (blockLength lengths) w.reads)

section

variable {content lengths room} {w : Transfer} (h : InStep content lengths w) (connfd fd : ℤ)
  (fuel : ℕ)

include h

theorem InStep.read : (slow content lengths room).read fd WebServer.maxSize w =
    (some (fileBlock content lengths w.reads),
      { w with
        file := w.file.drop (blockLength lengths w.reads)
        reads := w.reads + 1 }) := by
  simp only [slow, fileBlock, block, h.file, blockLength]

/-- The loop is over at the end of the file, and where a block finds no room at all. -/
theorem InStep.sendFileLoop_of_nil
    (hblock : (fileBlock content lengths w.reads).take (room w.reads) = []) :
    ∃ w', WebServer.sendFileLoop (slow content lengths room) connfd fd (fuel + 1) w = .ok w' ∧
      w'.accepted = w.accepted := by
  rw [WebServer.sendFileLoop, h.read]
  cases hcons : fileBlock content lengths w.reads with
  | nil => exact ⟨_, rfl, rfl⟩
  | cons b l =>
    -- `EAGAIN` ends the transfer
    have hroom : room w.sends = 0 := by
      rw [hcons, List.take_eq_nil_iff] at hblock
      rw [h.sends]
      exact hblock.resolve_right (List.cons_ne_nil b l)
    refine ⟨{ w with
      file := w.file.drop (blockLength lengths w.reads)
      reads := w.reads + 1
      sends := w.sends + 1 }, ?_, rfl⟩
    simp only [slow, if_pos hroom]
    rfl

/-- **One turn.** The socket takes what there is room for. -/
theorem InStep.sendFileLoop_of_ne_nil (hblock : fileBlock content lengths w.reads ≠ [])
    (hroom : room w.reads ≠ 0) :
    ∃ w', WebServer.sendFileLoop (slow content lengths room) connfd fd (fuel + 1) w =
        WebServer.sendFileLoop (slow content lengths room) connfd fd fuel w' ∧
      w'.reads = w.reads + 1 ∧ InStep content lengths w' ∧
      w'.accepted = w.accepted ++ (fileBlock content lengths w.reads).take (room w.reads) := by
  obtain ⟨b, l, hcons⟩ := List.exists_cons_of_ne_nil hblock
  have hsome : ¬(((b :: l).take (room w.reads)).length : ℤ) ≤ 0 := by
    rw [List.length_take, List.length_cons]
    omega
  rw [WebServer.sendFileLoop, h.read, hcons]
  refine ⟨{ w with
    file := w.file.drop (blockLength lengths w.reads)
    reads := w.reads + 1
    sends := w.sends + 1
    accepted := w.accepted ++ (b :: l).take (room w.reads) }, ?_, rfl, ?_, rfl⟩
  · simp only [slow, h.sends, if_neg hroom, if_neg hsome]
  · refine ⟨congrArg (· + 1) h.sends, ?_⟩
    exact (congrArg (List.drop _) h.file).trans (drop_drop_offset _ content w.reads)

end

/-- **The loop offers each block once.** -/
theorem sendFileLoop_offered (connfd fd : ℤ) {fuel : ℕ} {w : Transfer}
    (h : InStep content lengths w) (hfuel : w.file.length < fuel) :
    ∃ w', WebServer.sendFileLoop (slow content lengths room) connfd fd fuel w = .ok w' ∧
      w'.accepted = w.accepted ++ offered (blockLength lengths) room content fuel w.reads := by
  induction fuel generalizing w with
  | zero => exact absurd hfuel (Nat.not_lt_zero _)
  | succ fuel ih =>
    by_cases hblock : fileBlock content lengths w.reads = []
    · have hover := drop_offset_eq_nil (blockLength_pos lengths w.reads) hblock
      rw [offered_of_nil hover, List.append_nil]
      exact h.sendFileLoop_of_nil connfd fd fuel (by rw [hblock, List.take_nil])
    · by_cases hroom : room w.reads = 0
      · have hnone : offered (blockLength lengths) room content (fuel + 1) w.reads = [] :=
          if_pos hroom
        rw [hnone, List.append_nil]
        exact h.sendFileLoop_of_nil connfd fd fuel (by rw [hroom, List.take_zero])
      · obtain ⟨w₁, hturn, hreads, h₁, haccepted₁⟩ :=
          h.sendFileLoop_of_ne_nil connfd fd fuel hblock hroom
        have hless := length_drop_offset_lt hblock
        rw [← h.file, ← hreads, ← h₁.file] at hless
        obtain ⟨w', hw', haccepted⟩ := ih h₁ (by omega)
        refine ⟨w', hturn.trans hw', ?_⟩
        rw [haccepted, haccepted₁, hreads, offered_of_room hroom, List.append_assoc]
        rfl

/-- With room for each block, and only then, the socket has the whole file. -/
theorem offered_start_iff {fuel : ℕ} (hfuel : content.length < fuel) :
    offered (blockLength lengths) room content fuel 0 = content ↔
      ∀ i, (fileBlock content lengths i).length ≤ room i := by
  have hiff : offered (blockLength lengths) room content fuel 0 = content ↔
      ∀ i, 0 ≤ i → (fileBlock content lengths i).length ≤ room i :=
    offered_eq_iff (blockLength_pos lengths) hfuel
  rw [hiff]
  constructor
  · intro h i
    exact h i (Nat.zero_le i)
  · intro h i _
    exact h i

theorem webServer_sendFile (connfd : ℤ) {fuel : ℕ} (hfuel : content.length < fuel)
    (fileName : Bytes) :
    ∃ w, WebServer.sendFile (slow content lengths room) fuel connfd fileName Transfer.start =
        .ok (0, w) ∧ w.accepted = offered (blockLength lengths) room content fuel 0 := by
  have hstart : InStep content lengths ⟨content, 0, 0, []⟩ := ⟨rfl, rfl⟩
  obtain ⟨w, hw, haccepted⟩ :=
    sendFileLoop_offered content lengths room connfd 3 hstart hfuel
  have hopen : (slow content lengths room).openRead fileName Transfer.start =
      (3, ⟨content, 0, 0, []⟩) := rfl
  refine ⟨w, ?_, haccepted⟩
  rw [WebServer.sendFile, hopen]
  simp only [hw, Checked.ok_bind]
  rfl

theorem webServer_delivers_iff (connfd : ℤ) : Delivers content lengths room connfd ↔
    ∀ i, (fileBlock content lengths i).length ≤ room i := by
  constructor
  · intro h
    obtain ⟨fuel, hsend, hfuel⟩ := (h.and (eventually_gt_atTop content.length)).exists
    obtain ⟨w, hw, hcontent⟩ := hsend []
    obtain ⟨w', hw', haccepted⟩ := webServer_sendFile content lengths room connfd hfuel []
    have heq := Except.ok.inj (hw.symm.trans hw')
    obtain rfl : w = w' := congrArg Prod.snd heq
    exact (offered_start_iff content lengths room hfuel).mp (haccepted.symm.trans hcontent)
  · intro h
    filter_upwards [eventually_gt_atTop content.length] with fuel hfuel fileName
    obtain ⟨w, hw, haccepted⟩ := webServer_sendFile content lengths room connfd hfuel fileName
    exact ⟨w, hw, haccepted.trans ((offered_start_iff content lengths room hfuel).mpr h)⟩

end

/-! ## The server under debugging -/

/-- The loops of the two servers differ only where a `read` fails. -/
theorem sendFileLoop_eq {ω : Type} {k : DebugServer.System ω} {fd : ℤ}
    (hread : ∀ w, (k.read fd 4096 w).1 ≠ none) (connfd : ℤ) (fuel : ℕ) (w : ω) :
    DebugServer.sendFileLoop k connfd fd fuel w =
      WebServer.sendFileLoop k.toKernel connfd fd fuel w := by
  induction fuel generalizing w with
  | zero => rfl
  | succ fuel ih =>
    have hsome := hread w
    have hsize : k.read fd WebServer.maxSize w = k.read fd 4096 w := rfl
    rw [DebugServer.sendFileLoop, WebServer.sendFileLoop, hsize]
    rcases hbytes : k.read fd 4096 w with ⟨r, w'⟩
    rw [hbytes] at hsome
    match r with
    | none => exact absurd rfl hsome
    | some [] => rfl
    | some (b :: l) => simp only [ih]

theorem debugServer_sendFile (content : Bytes) (lengths room : ℕ → ℕ) (connfd : ℤ) (fuel : ℕ)
    (fileName : Bytes) (w : Transfer) :
    (DebugServer.sendFile (slowSystem content lengths room) fuel connfd fileName w).map (0, ·) =
      WebServer.sendFile (slow content lengths room) fuel connfd fileName w := by
  have hread : ∀ w, ((slowSystem content lengths room).read 3 4096 w).1 ≠ none :=
    fun w ↦ Option.some_ne_none _
  have hopen : (slow content lengths room).openRead fileName w = (3, { w with file := content }) :=
    rfl
  have hopen' : (slowSystem content lengths room).openRead fileName w =
      (3, { w with file := content }) := rfl
  have hopened : (3 : ℤ) ≠ -1 := by decide
  rw [DebugServer.sendFile, WebServer.sendFile, hopen, hopen']
  simp only [if_neg hopened, sendFileLoop_eq hread]
  have hkernel : (slowSystem content lengths room).toKernel = slow content lengths room := rfl
  rw [hkernel]
  cases WebServer.sendFileLoop (slow content lengths room) connfd 3 fuel
    { w with file := content } with
  | error e => rfl
  | ok w' => rfl

theorem debugDelivers_iff (content : Bytes) (lengths room : ℕ → ℕ) (connfd : ℤ) :
    DebugDelivers content lengths room connfd ↔ Delivers content lengths room connfd := by
  have hsend : ∀ fuel fileName, (∃ w, DebugServer.sendFile (slowSystem content lengths room) fuel
      connfd fileName Transfer.start = .ok w ∧ w.accepted = content) ↔
      ∃ w, WebServer.sendFile (slow content lengths room) fuel connfd fileName Transfer.start =
        .ok (0, w) ∧ w.accepted = content := by
    intro fuel fileName
    rw [← debugServer_sendFile]
    cases DebugServer.sendFile (slowSystem content lengths room) fuel connfd fileName
      Transfer.start with
    | error e =>
      refine iff_of_false ?_ ?_
      · rintro ⟨w, hw, -⟩
        cases hw
      · rintro ⟨w, hw, -⟩
        cases hw
    | ok w => simp [Except.map]
  simp only [DebugDelivers, Delivers, hsend]

/-- **Whole files**, exactly, for both servers: each block that is read has to find room at
once. -/
theorem delivers_iff (content : Bytes) (lengths room : ℕ → ℕ) (connfd : ℤ) :
    (Delivers content lengths room connfd ↔
      ∀ i, (fileBlock content lengths i).length ≤ room i) ∧
    (DebugDelivers content lengths room connfd ↔
      ∀ i, (fileBlock content lengths i).length ≤ room i) := by
  have hiff := webServer_delivers_iff content lengths room connfd
  exact ⟨hiff, (debugDelivers_iff content lengths room connfd).trans hiff⟩

/-- A socket with room for one byte at first, and then for as much as is wanted. -/
def roomForOne (i : ℕ) : ℕ := if i = 0 then 1 else 4096

/-- Of a file of two bytes the socket takes the first, and the second is never sent. -/
theorem not_delivers :
    (¬∀ content lengths room connfd, Accepting room → Delivers content lengths room connfd) ∧
      ¬∀ content lengths room connfd, Accepting room →
        DebugDelivers content lengths room connfd := by
  have haccepting : Accepting roomForOne := by
    intro i
    refine ⟨i + 1, Nat.le_succ i, ?_⟩
    rw [roomForOne, if_neg (Nat.succ_ne_zero i)]
    decide
  have hshort : ¬Delivers (ascii "hi") (fun _ ↦ 4096) roomForOne 5 := by
    intro h
    have hfits := (webServer_delivers_iff _ _ _ 5).mp h 0
    exact absurd hfits (by decide)
  constructor
  · intro h
    exact hshort (h _ _ _ 5 haccepting)
  · intro h
    exact hshort ((debugDelivers_iff _ _ _ 5).mp (h _ _ _ 5 haccepting))

end Web

end CodeOnLinux
