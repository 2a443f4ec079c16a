import CodeOnLinux.Foundation.Machine
import CodeOnLinux.Foundation.Threads

/-!
# Readers and writers of a counter: `read_write_lock.c`

`NUM++` is a load and a store, and a reader loads `NUM` some time before its line is printed. The
read/write lock makes both look like one step: what the threads print, in whatever order they run,
is what an atomic counter could have printed, which writers count up and readers read out
(`printed_iff_atomic`). So a reader's line shows the number of writers' lines before it
(`num_eq_countP`).

## The two directions

That the lines are those of an atomic counter is an invariant: while a writer is inside, `NUM` may
be one ahead of the lines, and nobody else is inside who could see it (`Inv`). That every sequence
of lines of an atomic counter does occur is a construction: from a state in which nobody is inside
any line that the counter allows can be printed, and nobody is inside behind it (`Idle`).
-/

namespace CodeOnLinux

namespace ReadWriteLock

open Transition

/-! ## The program -/

/-- Where a reader is in its loop; with the value of `NUM` it is about to print. -/
inductive Reader
  | rdlock
  | read
  | print (num : ℤ)
  | unlock
  deriving DecidableEq

/-- Where a writer is in its loop; with the value of `NUM` it is about to count up. -/
inductive Writer
  | wrlock
  | load
  | store (num : ℤ)
  | print
  | unlock
  deriving DecidableEq

/-- What the threads print: `thread i:NUM = num`, `thread j is going to write`. -/
inductive Line (ρ ω : Type*)
  | num (i : ρ) (num : ℤ)
  | write (j : ω)

/-- The threads `ρ` in `fun_read` and `ω` in `fun_write`. -/
structure State (ρ ω : Type*) where
  /-- The lock. -/
  lock : RwLock ρ ω
  /-- `NUM` -/
  num : ℤ
  /-- What each reader does next. -/
  reader : ρ → Reader
  /-- What each writer does next. -/
  writer : ω → Writer
  /-- The lines, in order. -/
  printed : List (Line ρ ω)

inductive Label (ρ ω : Type*)
  | rdlock (i : ρ)
  | read (i : ρ)
  | printNum (i : ρ)
  | rdunlock (i : ρ)
  | wrlock (j : ω)
  | load (j : ω)
  | store (j : ω)
  | printWrite (j : ω)
  | wrunlock (j : ω)

variable {ρ ω : Type*}

def init : State ρ ω where
  lock := .free
  num := 0
  reader _ := .rdlock
  writer _ := .wrlock
  printed := []

variable [DecidableEq ρ] [DecidableEq ω]

/-- A store that would overflow has no meaning; it is not enabled. -/
def step (s : State ρ ω) : Label ρ ω → Option (State ρ ω)
  | .rdlock i => (s.lock.rdlock i).bind fun lock ↦ guarded (s.reader i = .rdlock)
      { s with lock := lock, reader := Function.update s.reader i .read }
  | .read i => guarded (s.reader i = .read)
      { s with reader := Function.update s.reader i (.print s.num) }
  | .printNum i =>
    match s.reader i with
    | .print num => some { s with
        reader := Function.update s.reader i .unlock
        printed := s.printed ++ [.num i num] }
    | _ => none
  | .rdunlock i => guarded (s.reader i = .unlock)
      { s with lock := s.lock.rdunlock i, reader := Function.update s.reader i .rdlock }
  | .wrlock j => (s.lock.wrlock j).bind fun lock ↦ guarded (s.writer j = .wrlock)
      { s with lock := lock, writer := Function.update s.writer j .load }
  | .load j => guarded (s.writer j = .load)
      { s with writer := Function.update s.writer j (.store s.num) }
  | .store j =>
    match s.writer j with
    | .store num => (checkInt (num + 1)).toOption.map fun num ↦
        { s with num := num, writer := Function.update s.writer j .print }
    | _ => none
  | .printWrite j => guarded (s.writer j = .print)
      { s with
        writer := Function.update s.writer j .unlock
        printed := s.printed ++ [.write j] }
  | .wrunlock j => guarded (s.writer j = .unlock)
      { s with lock := s.lock.wrunlock, writer := Function.update s.writer j .wrlock }

/-! ## The counter as the lines describe it -/

/-- A writer's line counts up, a reader's line shows the count. -/
def atomic (n : ℤ) : Line ρ ω → Option ℤ
  | .num _ num => guarded (num = n) n
  | .write _ => (checkInt (n + 1)).toOption

def Line.isWrite : Line ρ ω → Bool
  | .num _ _ => false
  | .write _ => true

omit [DecidableEq ρ] [DecidableEq ω] in
theorem eq_add_countP_of_run {zs : List (Line ρ ω)} : ∀ {m n : ℤ}, run atomic m zs = some n →
    n = m + zs.countP Line.isWrite := by
  induction zs with
  | nil =>
    intro m n h
    obtain rfl : m = n := Option.some_inj.mp h
    simp
  | cons line zs ih =>
    intro m n h
    obtain ⟨u, hu, htail⟩ := run_cons_eq_some.mp h
    rw [ih htail]
    cases line with
    | num i num =>
      obtain ⟨-, rfl⟩ := guarded_eq_some.mp hu
      rw [List.countP_cons_of_neg (by simp [Line.isWrite])]
    | write j =>
      obtain ⟨-, rfl⟩ := toOption_checkInt.mp hu
      rw [List.countP_cons_of_pos rfl, Nat.cast_succ]
      ring

omit [DecidableEq ρ] [DecidableEq ω] in
/-- A reader's line shows the number of writers' lines before it. -/
theorem num_eq_countP {before after : List (Line ρ ω)} {i : ρ} {num n : ℤ}
    (h : run atomic 0 (before ++ .num i num :: after) = some n) :
    num = before.countP Line.isWrite := by
  obtain ⟨m, hm, htail⟩ := run_append_eq_some.mp h
  obtain ⟨u, hu, -⟩ := run_cons_eq_some.mp htail
  rw [(guarded_eq_some.mp hu).1, eq_add_countP_of_run hm, zero_add]

/-! ## The lock and the program counters -/

variable {s t : State ρ ω} {a : Label ρ ω} {i : ρ} {j : ω}

/-- A writer that has stored, but not printed, is one ahead of the lines. -/
def ahead (holder : Option ω) (writer : ω → Writer) : ℤ :=
  match holder with
  | some j => if writer j = .print then 1 else 0
  | none => 0

/-- The lock is held by those who are inside. Values that were loaded are still those of `NUM`, and
`NUM` is what the lines say, but for the line that the writer inside still has to print. -/
structure Inv (s : State ρ ω) : Prop where
  /-- The readers that hold the lock are those inside. -/
  readers : Inside .rdlock (· ∈ s.lock.readers) s.reader
  /-- The writer that holds it is the one inside. -/
  writer : Inside .wrlock (s.lock.writer = some ·) s.writer
  /-- A value that a reader has loaded is still that of `NUM`. -/
  read : ∀ i num, s.reader i = .print num → num = s.num
  /-- So is one that a writer has loaded. -/
  load : ∀ j num, s.writer j = .store num → num = s.num
  /-- `NUM` is what the lines say, but for the line that the writer inside still has to print. -/
  printed : run atomic 0 s.printed = some (s.num - ahead s.lock.writer s.writer)
  /-- It was counted up from `0`. -/
  nonneg : 0 ≤ s.num - ahead s.lock.writer s.writer
  /-- It fits into an `int`. -/
  le : s.num ≤ intMax

omit [DecidableEq ρ] [DecidableEq ω] in
theorem inv_init : Inv (init : State ρ ω) where
  readers _ := iff_of_false (Finset.notMem_empty _) (not_not_intro rfl)
  writer _ := iff_of_false (by simp [init, RwLock.free]) (not_not_intro rfl)
  read _ _ h := by cases h
  load _ _ h := by cases h
  printed := rfl
  nonneg := le_refl 0
  le := by simp [init, intMax]

namespace Inv

section

omit [DecidableEq ρ] [DecidableEq ω]

theorem holder_of_reader (hs : Inv s) (hi : s.reader i ≠ .rdlock) : s.lock.writer = none :=
  RwLock.writer_eq_none_of_mem ((hs.readers i).mpr hi)

theorem holder_of_writer (hs : Inv s) (hj : s.writer j ≠ .wrlock) : s.lock.writer = some j :=
  (hs.writer j).mpr hj

/-- While a writer is inside, no reader is. -/
theorem reader_of_holder (hs : Inv s) (hj : s.lock.writer = some j) (i : ρ) :
    s.reader i = .rdlock := by
  by_contra hi
  rw [hs.holder_of_reader hi] at hj
  cases hj

/-- While a writer is inside, no other is. -/
theorem writer_of_holder (hs : Inv s) (hj : s.lock.writer = some j) {k : ω} (hk : k ≠ j) :
    s.writer k = .wrlock := by
  by_contra hw
  exact hk (Option.some_inj.mp ((hs.holder_of_writer hw).symm.trans hj))

/-- What a step of a reader has to keep. -/
theorem of_reader (hs : Inv s) (hnum : t.num = s.num) (hwriter : t.writer = s.writer)
    (hholder : t.lock.writer = s.lock.writer)
    (hprinted : run atomic 0 t.printed = run atomic 0 s.printed)
    (hreaders : Inside .rdlock (· ∈ t.lock.readers) t.reader)
    (hread : ∀ i num, t.reader i = .print num → num = s.num) : Inv t where
  readers := hreaders
  writer := by
    rw [hwriter, hholder]
    exact hs.writer
  read := by
    rw [hnum]
    exact hread
  load := by
    rw [hnum, hwriter]
    exact hs.load
  printed := by
    rw [hprinted, hnum, hholder, hwriter]
    exact hs.printed
  nonneg := by
    rw [hnum, hholder, hwriter]
    exact hs.nonneg
  le := by
    rw [hnum]
    exact hs.le

/-- What a step of a writer has to keep; no reader is inside then. -/
theorem of_writer (hs : Inv s) (hout : ∀ i, s.reader i = .rdlock) (hreader : t.reader = s.reader)
    (hreaders : t.lock.readers = s.lock.readers)
    (hwriter : Inside .wrlock (t.lock.writer = some ·) t.writer)
    (hload : ∀ j num, t.writer j = .store num → num = t.num)
    (hprinted : run atomic 0 t.printed = some (t.num - ahead t.lock.writer t.writer))
    (hnonneg : 0 ≤ t.num - ahead t.lock.writer t.writer) (hle : t.num ≤ intMax) : Inv t where
  readers := by
    rw [hreaders, hreader]
    exact hs.readers
  writer := hwriter
  read i num h := by
    rw [hreader, hout i] at h
    cases h
  load := hload
  printed := hprinted
  nonneg := hnonneg
  le := hle

end

omit [DecidableEq ρ] in
theorem ahead_update (j : ω) (writer : ω → Writer) (x : Writer) :
    ahead (some j) (Function.update writer j x) = if x = .print then 1 else 0 := by
  rw [ahead, Function.update_self]

omit [DecidableEq ρ] in
/-- The writer inside is the only one with something loaded. -/
theorem load_update (hs : Inv s) (hj : s.lock.writer = some j) {x : Writer} {n : ℤ}
    (hx : ∀ num, x = .store num → num = n) :
    ∀ k num, Function.update s.writer j x k = .store num → num = n := by
  intro k num hk
  by_cases hkj : k = j
  · subst hkj
    rw [Function.update_self] at hk
    exact hx num hk
  · rw [Function.update_of_ne hkj, hs.writer_of_holder hj hkj] at hk
    cases hk

omit [DecidableEq ω] in
/-- A reader that goes on with `x` inside or outside the lock. -/
theorem read_update (hs : Inv s) {x : Reader} (hx : ∀ num, x = .print num → num = s.num) :
    ∀ k num, Function.update s.reader i x k = .print num → num = s.num := by
  intro k num hk
  by_cases hki : k = i
  · subst hki
    rw [Function.update_self] at hk
    exact hx num hk
  · rw [Function.update_of_ne hki] at hk
    exact hs.read k num hk

/-! ### The turns of a writer -/

/-- He takes the lock: nobody is inside, and no line is missing. -/
theorem wrlock (hs : Inv s) {lock : RwLock ρ ω} (hlock : s.lock.wrlock j = some lock) :
    Inv { s with lock := lock, writer := Function.update s.writer j .load } := by
  obtain ⟨hnone, hempty, hreaders, hholder⟩ := RwLock.wrlock_eq_some hlock
  have hahead : ahead lock.writer (Function.update s.writer j .load) =
      ahead s.lock.writer s.writer := by
    rw [hholder, ahead_update, hnone, ahead, if_neg (by decide)]
  have hout : ∀ i, s.reader i = .rdlock := by
    intro i
    by_contra hi
    have hmem := (hs.readers i).mpr hi
    rw [hempty] at hmem
    cases hmem
  refine hs.of_writer hout rfl (hreaders.trans hempty.symm) ?_ ?_ ?_ ?_ hs.le
  · refine hs.writer.enter (by decide) hholder fun k hk ↦ ?_
    simp only [hholder, hnone, Option.some_inj, reduceCtorEq, iff_false]
    exact Ne.symm hk
  · intro k num hk
    by_cases hkj : k = j
    · subst hkj
      simp only [Function.update_self] at hk
      cases hk
    · simp only [Function.update_of_ne hkj] at hk
      exact hs.load k num hk
  · exact hahead ▸ hs.printed
  · exact hahead ▸ hs.nonneg

omit [DecidableEq ρ] in
theorem load_num (hs : Inv s) (hpc : s.writer j = .load) :
    Inv { s with writer := Function.update s.writer j (.store s.num) } := by
  have hj : s.writer j ≠ .wrlock := by
    rw [hpc]
    decide
  have hholder := hs.holder_of_writer hj
  have hahead : ahead s.lock.writer (Function.update s.writer j (.store s.num)) =
      ahead s.lock.writer s.writer := by
    rw [hholder, ahead_update, ahead, hpc]
    rfl
  refine hs.of_writer (hs.reader_of_holder hholder) rfl rfl
    (hs.writer.move hj (fun h ↦ by cases h)) ?_ ?_ ?_ hs.le
  · exact hs.load_update hholder fun _ h ↦ by cases h; rfl
  · exact hahead ▸ hs.printed
  · exact hahead ▸ hs.nonneg

omit [DecidableEq ρ] in
/-- What is stored and not printed makes up for the line that is not there yet. -/
theorem store (hs : Inv s) {num : ℤ} (hpc : s.writer j = .store num) (hle : num + 1 ≤ intMax) :
    Inv { s with num := num + 1, writer := Function.update s.writer j .print } := by
  have hj : s.writer j ≠ .wrlock := by
    rw [hpc]
    exact fun h ↦ by cases h
  have hholder := hs.holder_of_writer hj
  obtain rfl := hs.load j num hpc
  have hahead : ahead s.lock.writer (Function.update s.writer j .print) =
      ahead s.lock.writer s.writer + 1 := by
    rw [hholder, ahead_update, ahead, hpc]
    rfl
  have hnum : s.num + 1 - ahead s.lock.writer (Function.update s.writer j .print) =
      s.num - ahead s.lock.writer s.writer := by
    rw [hahead]
    ring
  refine hs.of_writer (hs.reader_of_holder hholder) rfl rfl (hs.writer.move hj (by decide))
    ?_ ?_ ?_ hle
  · exact hs.load_update hholder fun _ h ↦ by cases h
  · exact hnum ▸ hs.printed
  · exact hnum ▸ hs.nonneg

omit [DecidableEq ρ] in
/-- He prints the line that was missing. -/
theorem printWrite (hs : Inv s) (hpc : s.writer j = .print) :
    Inv { s with
      writer := Function.update s.writer j .unlock
      printed := s.printed ++ [.write j] } := by
  have hj : s.writer j ≠ .wrlock := by
    rw [hpc]
    decide
  have hholder := hs.holder_of_writer hj
  have hbefore : s.num - ahead s.lock.writer s.writer = s.num - 1 := by
    rw [hholder, ahead, hpc]
    rfl
  have hafter : s.num - ahead s.lock.writer (Function.update s.writer j .unlock) = s.num := by
    rw [hholder, ahead_update, if_neg (by decide), sub_zero]
  have hnonneg := hs.nonneg
  rw [hbefore] at hnonneg
  refine hs.of_writer (hs.reader_of_holder hholder) rfl rfl (hs.writer.move hj (by decide))
    (hs.load_update hholder fun _ h ↦ by cases h) ?_ ?_ hs.le
  · rw [hafter]
    refine run_append_eq_some.mpr ⟨_, hs.printed, run_cons_of ?_ (run_nil s.num)⟩
    have hmin : intMin ≤ s.num := by
      rw [intMin]
      omega
    rw [atomic, hbefore, sub_add_cancel]
    exact toOption_checkInt.mpr ⟨⟨hmin, hs.le⟩, rfl⟩
  · rw [hafter]
    omega

omit [DecidableEq ρ] in
theorem wrunlock (hs : Inv s) (hpc : s.writer j = .unlock) :
    Inv { s with
      lock := s.lock.wrunlock
      writer := Function.update s.writer j .wrlock } := by
  have hj : s.writer j ≠ .wrlock := by
    rw [hpc]
    decide
  have hholder := hs.holder_of_writer hj
  have hahead : ahead s.lock.wrunlock.writer (Function.update s.writer j .wrlock) =
      ahead s.lock.writer s.writer := by
    rw [hholder, RwLock.wrunlock, ahead, ahead, hpc]
    rfl
  refine hs.of_writer (hs.reader_of_holder hholder) rfl rfl ?_
    (hs.load_update hholder fun _ h ↦ by cases h) ?_ ?_ hs.le
  · refine hs.writer.leave (fun h ↦ by cases h) fun k hk ↦ ?_
    rw [hholder, RwLock.wrunlock]
    simp only [reduceCtorEq, Option.some_inj, false_iff]
    exact Ne.symm hk
  · exact hahead ▸ hs.printed
  · exact hahead ▸ hs.nonneg

/-! ### Steps -/

theorem step (hs : Inv s) (h : ReadWriteLock.step s a = some t) : Inv t := by
  cases a with
  | rdlock i =>
    obtain ⟨lock, hlock, h⟩ := Option.bind_eq_some_iff.mp h
    obtain ⟨-, rfl⟩ := guarded_eq_some.mp h
    obtain ⟨hnone, hreaders, hnone'⟩ := RwLock.rdlock_eq_some hlock
    refine hs.of_reader rfl rfl (hnone'.trans hnone.symm) rfl ?_
      (hs.read_update fun _ h ↦ by cases h)
    refine hs.readers.enter (by decide) ?_ fun k hk ↦ ?_
    · simp only [hreaders, Finset.mem_insert_self]
    · simp only [hreaders, Finset.mem_insert, hk, false_or]
  | read i =>
    obtain ⟨hpc, rfl⟩ := guarded_eq_some.mp h
    refine hs.of_reader rfl rfl rfl rfl ?_ (hs.read_update fun _ h ↦ by cases h; rfl)
    exact hs.readers.move (by rw [hpc]; decide) (fun h ↦ by cases h)
  | printNum i =>
    rw [ReadWriteLock.step] at h
    split at h
    · next num hpc =>
      cases h
      have hi : s.reader i ≠ .rdlock := by
        rw [hpc]
        exact fun h ↦ by cases h
      have hnone := hs.holder_of_reader hi
      -- no writer is ahead, so the line shows what the lines before it say
      have hnum : run atomic 0 s.printed = some num := by
        rw [hs.printed, hnone, ahead, sub_zero, hs.read i num hpc]
      refine hs.of_reader rfl rfl rfl ?_ (hs.readers.move hi (by decide))
        (hs.read_update fun _ h ↦ by cases h)
      refine (run_append_eq_some.mpr ⟨num, hnum, ?_⟩).trans hnum.symm
      exact run_cons_of (guarded_of rfl num) (run_nil num)
    · cases h
  | rdunlock i =>
    obtain ⟨hpc, rfl⟩ := guarded_eq_some.mp h
    refine hs.of_reader rfl rfl rfl rfl ?_ (hs.read_update fun _ h ↦ by cases h)
    refine hs.readers.leave (Finset.notMem_erase i s.lock.readers) fun k hk ↦ ?_
    exact Finset.mem_erase.trans (and_iff_right hk)
  | wrlock j =>
    obtain ⟨lock, hlock, h⟩ := Option.bind_eq_some_iff.mp h
    obtain ⟨-, rfl⟩ := guarded_eq_some.mp h
    exact hs.wrlock hlock
  | load j =>
    obtain ⟨hpc, rfl⟩ := guarded_eq_some.mp h
    exact hs.load_num hpc
  | store j =>
    rw [ReadWriteLock.step] at h
    split at h
    · next num hpc =>
      obtain ⟨n, hn, rfl⟩ := Option.map_eq_some_iff.mp h
      obtain ⟨⟨-, hle⟩, rfl⟩ := toOption_checkInt.mp hn
      exact hs.store hpc hle
    · cases h
  | printWrite j =>
    obtain ⟨hpc, rfl⟩ := guarded_eq_some.mp h
    exact hs.printWrite hpc
  | wrunlock j =>
    obtain ⟨hpc, rfl⟩ := guarded_eq_some.mp h
    exact hs.wrunlock hpc

end Inv

theorem inv_of_run {labels : List (Label ρ ω)} (hrun : run step init labels = some s) : Inv s :=
  invariant_of_run (fun _ _ _ hs h ↦ hs.step h) inv_init hrun

/-! ## One thread after the other -/

/-- Nobody is inside. -/
structure Idle (s : State ρ ω) : Prop where
  /-- The readers are in front of the lock. -/
  reader : ∀ i, s.reader i = .rdlock
  /-- So are the writers. -/
  writer : ∀ j, s.writer j = .wrlock

section

omit [DecidableEq ρ] [DecidableEq ω]

theorem Idle.holder (hidle : Idle s) (hs : Inv s) : s.lock.writer = none := by
  cases hw : s.lock.writer with
  | none => rfl
  | some j => exact absurd (hidle.writer j) ((hs.writer j).mp hw)

theorem Idle.readers (hidle : Idle s) (hs : Inv s) : s.lock.readers = ∅ :=
  Finset.eq_empty_of_forall_notMem fun i hi ↦ (hs.readers i).mp hi (hidle.reader i)

theorem Idle.printed (hidle : Idle s) (hs : Inv s) : run atomic 0 s.printed = some s.num := by
  rw [hs.printed, hidle.holder hs, ahead, sub_zero]

end

theorem run_read (hs : Inv s) (hidle : Idle s) (i : ρ) :
    ∃ t, run step s [.rdlock i, .read i, .printNum i, .rdunlock i] = some t ∧ Idle t ∧
      t.printed = s.printed ++ [.num i s.num] := by
  obtain ⟨lock, hlock⟩ := RwLock.exists_rdlock (hidle.holder hs) i
  have hfirst : step s (.rdlock i) = some
      { s with lock := lock, reader := Function.update s.reader i .read } := by
    rw [step, hlock, Option.bind_some, guarded_of (hidle.reader i)]
  refine ⟨{ s with
    lock := lock.rdunlock i
    reader := Function.update (Function.update (Function.update (Function.update
      s.reader i .read) i (.print s.num)) i .unlock) i .rdlock
    printed := s.printed ++ [.num i s.num] }, ?_, ⟨fun k ↦ ?_, hidle.writer⟩, rfl⟩
  · refine run_cons_of hfirst ?_
    rw [run, step]
    simp only [guarded, Function.update_self, if_true, Option.bind_some, run, step]
  · simp only [Function.update_idem]
    rw [← hidle.reader i, Function.update_eq_self, hidle.reader k, hidle.reader i]

theorem run_write (hs : Inv s) (hidle : Idle s) (j : ω) (hle : s.num + 1 ≤ intMax) :
    ∃ t, run step s [.wrlock j, .load j, .store j, .printWrite j, .wrunlock j] = some t ∧
      Idle t ∧ t.printed = s.printed ++ [.write j] := by
  obtain ⟨lock, hlock⟩ := RwLock.exists_wrlock (hidle.holder hs) (hidle.readers hs) j
  have hfirst : step s (.wrlock j) = some
      { s with lock := lock, writer := Function.update s.writer j .load } := by
    rw [step, hlock, Option.bind_some, guarded_of (hidle.writer j)]
  have hnonneg := hs.nonneg
  rw [hidle.holder hs, ahead, sub_zero] at hnonneg
  have hnum : (checkInt (s.num + 1)).toOption = some (s.num + 1) :=
    toOption_checkInt.mpr ⟨⟨by rw [intMin]; omega, hle⟩, rfl⟩
  refine ⟨{ s with
    lock := lock.wrunlock
    num := s.num + 1
    writer := Function.update (Function.update (Function.update (Function.update (Function.update
      s.writer j .load) j (.store s.num)) j .print) j .unlock) j .wrlock
    printed := s.printed ++ [.write j] }, ?_, ⟨hidle.reader, fun k ↦ ?_⟩, rfl⟩
  · refine run_cons_of hfirst ?_
    rw [run, step]
    simp only [guarded, Function.update_self, if_true, Option.bind_some, run, step, hnum,
      Option.map_some]
  · simp only [Function.update_idem]
    rw [← hidle.writer j, Function.update_eq_self, hidle.writer k, hidle.writer j]

/-- The threads can print what the atomic counter can, one thread after the other. -/
theorem exists_run_of_atomic {zs : List (Line ρ ω)} : ∀ {s : State ρ ω} {n : ℤ}, Inv s → Idle s →
    run atomic s.num zs = some n →
    ∃ labels t, run step s labels = some t ∧ t.printed = s.printed ++ zs := by
  induction zs with
  | nil => exact fun _ _ _ ↦ ⟨[], _, rfl, (List.append_nil _).symm⟩
  | cons line zs ih =>
    intro s n hs hidle hrun
    obtain ⟨m, hm, htail⟩ := run_cons_eq_some.mp hrun
    have hone : ∃ labels t, run step s labels = some t ∧ Idle t ∧
        t.printed = s.printed ++ [line] := by
      cases line with
      | num i num =>
        obtain ⟨rfl, -⟩ := guarded_eq_some.mp hm
        obtain ⟨t, ht⟩ := run_read hs hidle i
        exact ⟨_, t, ht⟩
      | write j =>
        obtain ⟨⟨-, hle⟩, -⟩ := toOption_checkInt.mp hm
        obtain ⟨t, ht⟩ := run_write hs hidle j hle
        exact ⟨_, t, ht⟩
    obtain ⟨first, u, hu, huidle, huprinted⟩ := hone
    have hinv : Inv u := invariant_of_run (fun _ _ _ hs h ↦ hs.step h) hs hu
    -- the threads and the atomic counter have counted alike
    have hnum : u.num = m := by
      have h := huidle.printed hinv
      rw [huprinted] at h
      obtain ⟨n', hn', hline⟩ := run_append_eq_some.mp h
      obtain rfl : s.num = n' := Option.some_inj.mp ((hidle.printed hs).symm.trans hn')
      obtain ⟨m', hm', hlast⟩ := run_cons_eq_some.mp hline
      rw [hm] at hm'
      exact Option.some_inj.mp (hlast.symm.trans hm'.symm)
    rw [← hnum] at htail
    obtain ⟨labels, t, ht, htprinted⟩ := ih hinv huidle htail
    refine ⟨first ++ labels, t, run_append_eq_some.mpr ⟨u, hu, ht⟩, ?_⟩
    rw [htprinted, huprinted, List.append_assoc]
    rfl

/-- **Under the lock the counter is atomic.** The threads can print some lines, in whatever order
they run, if and only if an atomic counter can, from zero on. -/
theorem printed_iff_atomic (zs : List (Line ρ ω)) :
    (∃ labels s, run step (init : State ρ ω) labels = some s ∧ s.printed = zs) ↔
      ∃ n, run atomic 0 zs = some n := by
  constructor
  · rintro ⟨labels, s, hrun, rfl⟩
    exact ⟨_, (inv_of_run hrun).printed⟩
  · rintro ⟨n, hn⟩
    obtain ⟨labels, s, hrun, hprinted⟩ :=
      exists_run_of_atomic inv_init ⟨fun _ ↦ rfl, fun _ ↦ rfl⟩ hn
    exact ⟨labels, s, hrun, hprinted⟩

end ReadWriteLock

end CodeOnLinux
