import CodeOnLinux.Foundation.Stdio
import Mathlib.Order.Filter.AtTopBot.Basic

/-!
# Counting files: `03_homework_03/count_files.c`

`countFiles` goes through a directory and calls itself for each directory in it. The path of that
call is put together from the working directory and the name, not from the directory that the name
was found in; the count is a static variable, which no call sets back; and no directory is ever
closed, so that each call uses up a descriptor of the process for good.

`HasFiles` is what is to be counted: the regular files of a finite tree of readable directories,
where `child` tells where the directory of a name is. With `inside` these are the files below a
path. `countFiles` counts those of another tree, with `byName`, from the count that is left of
earlier calls and with the descriptors that are left of them (`countFiles_eventually`), so it
returns the right number where the two come out the same and the descriptors suffice for the
directories (`counts_iff`).
-/

namespace CodeOnLinux

namespace CountFiles

open Stdio Filter

/-! ## The program -/

/-- `d_type` -/
inductive DType
  | reg
  | dir
  | other
  deriving DecidableEq

structure Dirent where
  /-- `d_type` -/
  type : DType
  /-- `d_name` -/
  name : Bytes

/-- The directories that can be opened, by the paths of the process. -/
structure FileSystem where
  /-- What `readdir` brings, where the directory can be opened. -/
  entries : Bytes → Option (List Dirent)
  /-- A name is a string. -/
  zero_notMem : ∀ path l, entries path = some l → ∀ d ∈ l, 0 ∉ d.name

/-- `SIZE` -/
def size : ℕ := 512

/-- `strcmp(d_name, ".") == 0 || strcmp(d_name, "..") == 0` -/
def isDots (name : Bytes) : Bool := decide (name = ascii "." ∨ name = ascii "..")

/-- `getcwd(temp, SIZE)`, which returns NULL where the path does not fit. -/
def getcwd (cwd : Bytes) : Checked Bytes :=
  if cwd.length < size then .ok cwd else .error .nullPointer

/-- What the calls of `countFiles` leave behind in the process. -/
structure Process where
  /-- The static variable `cnt`. -/
  cnt : ℤ
  /-- How many descriptors are open. -/
  opened : ℕ

/-- Each directory stream holds a descriptor, of which the process may have `limit`. -/
def opendir (fs : FileSystem) (limit : ℕ) (path : Bytes) (p : Process) :
    Option (List Dirent × Process) :=
  if p.opened < limit then
    (fs.entries path).map fun l ↦ (l, { p with opened := p.opened + 1 })
  else none

/-- The body of the loop for one entry; `descend` is the call for a directory. -/
def visit (cwd : Bytes) (descend : Bytes → Process → Checked Process) (p : Process) (d : Dirent) :
    Checked Process :=
  if isDots d.name then .ok p
  else
    match d.type with
    | .dir => do
      let temp ← getcwd cwd
      let tempDir ← sprintf size (temp ++ (ascii "/" ++ d.name))
      descend tempDir p
    | .reg => do
      let cnt ← checkInt (p.cnt + 1)
      return { p with cnt }
    | .other => .ok p

/-- A directory that cannot be opened is read all the same, through a null pointer. What is returned
is the count; there is no `closedir`. -/
def countFiles (fs : FileSystem) (cwd : Bytes) (limit : ℕ) : ℕ → Bytes → Process → Checked Process
  | 0, _, _ => .error .outOfFuel
  | fuel + 1, path, p =>
    match opendir fs limit path p with
    | none => .error .nullPointer
    | some (l, p) => l.foldlM (visit cwd (countFiles fs cwd limit fuel)) p

/-! ## Trees -/

/-- The entries `l` of the directory `path` have `n` regular files and `m` directories in and below
them, where the directory of a name is the one at `child path name`. -/
inductive Found (fs : FileSystem) (child : Bytes → Bytes → Bytes) :
    Bytes → List Dirent → ℕ → ℕ → Prop
  | nil {path : Bytes} : Found fs child path [] 0 0
  | skip {path : Bytes} {d : Dirent} {l : List Dirent} {n m : ℕ} :
    isDots d.name = true ∨ d.type = .other → Found fs child path l n m →
      Found fs child path (d :: l) n m
  | file {path : Bytes} {d : Dirent} {l : List Dirent} {n m : ℕ} :
    ¬isDots d.name = true → d.type = .reg → Found fs child path l n m →
      Found fs child path (d :: l) (n + 1) m
  | dir {path : Bytes} {d : Dirent} {l below : List Dirent} {n m k j : ℕ} :
    ¬isDots d.name = true → d.type = .dir → fs.entries (child path d.name) = some below →
      Found fs child (child path d.name) below k j → Found fs child path l n m →
      Found fs child path (d :: l) (k + n) (j + 1 + m)

/-- A finite tree of `m` readable directories, its root among them, with `n` regular files. -/
def HasFiles (fs : FileSystem) (child : Bytes → Bytes → Bytes) (path : Bytes) (n m : ℕ) : Prop :=
  ∃ l j, fs.entries path = some l ∧ Found fs child path l n j ∧ m = j + 1

/-- Where the directories in a directory are. -/
def inside (path name : Bytes) : Bytes := path ++ (ascii "/" ++ name)

/-- Where `countFiles` looks for them. -/
def byName (cwd : Bytes) (_ name : Bytes) : Bytes := inside cwd name

theorem Found.unique {fs : FileSystem} {child : Bytes → Bytes → Bytes} {path : Bytes}
    {l : List Dirent} {n m n' m' : ℕ} (h : Found fs child path l n m)
    (h' : Found fs child path l n' m') : n = n' ∧ m = m' := by
  induction h generalizing n' m' with
  | nil =>
    cases h'
    exact ⟨rfl, rfl⟩
  | skip hskip _ ih =>
    cases h' with
    | skip _ h' => exact ih h'
    | file hdots htype _ => grind
    | dir hdots htype _ _ _ => grind
  | file hdots htype _ ih =>
    cases h' with
    | skip hskip _ => grind
    | file _ _ h' =>
      obtain ⟨rfl, rfl⟩ := ih h'
      exact ⟨rfl, rfl⟩
    | dir _ htype' _ _ _ => cases htype.symm.trans htype'
  | dir hdots htype hbelow _ _ ihbelow ih =>
    cases h' with
    | skip hskip _ => grind
    | file _ htype' _ => cases htype.symm.trans htype'
    | dir _ _ hbelow' hk h' =>
      obtain rfl := Option.some_inj.mp (hbelow.symm.trans hbelow')
      obtain ⟨rfl, rfl⟩ := ihbelow hk
      obtain ⟨rfl, rfl⟩ := ih h'
      exact ⟨rfl, rfl⟩

theorem HasFiles.unique {fs : FileSystem} {child : Bytes → Bytes → Bytes} {path : Bytes}
    {n m n' m' : ℕ} (h : HasFiles fs child path n m) (h' : HasFiles fs child path n' m') :
    n = n' ∧ m = m' := by
  obtain ⟨l, j, hl, hfound, rfl⟩ := h
  obtain ⟨l', j', hl', hfound', rfl⟩ := h'
  obtain rfl := Option.some_inj.mp (hl.symm.trans hl')
  obtain ⟨rfl, rfl⟩ := hfound.unique hfound'
  exact ⟨rfl, rfl⟩

/-- The directories of the tree at `root`. -/
inductive Below (fs : FileSystem) (root : Bytes) : Bytes → Prop
  | root : Below fs root root
  | dir {path : Bytes} {l : List Dirent} {d : Dirent} :
    Below fs root path → fs.entries path = some l → d ∈ l → ¬isDots d.name = true →
      d.type = .dir → Below fs root (inside path d.name)

/-- Each directory in the tree, looked up by its name in the working directory, shows what it has
in its place. -/
def Mirrored (fs : FileSystem) (cwd root : Bytes) : Prop :=
  ∀ path l d, Below fs root path → fs.entries path = some l → d ∈ l → ¬isDots d.name = true →
    d.type = .dir → fs.entries (inside cwd d.name) = fs.entries (inside path d.name)

theorem Found.byName {fs : FileSystem} {cwd root path : Bytes} {l : List Dirent} {n m : ℕ}
    (hmirrored : Mirrored fs cwd root) (h : Found fs inside path l n m) (hpath : Below fs root path)
    (hl : ∃ front, fs.entries path = some (front ++ l)) (start : Bytes) :
    Found fs (CountFiles.byName cwd) start l n m := by
  induction h generalizing start with
  | nil => exact .nil
  | @skip path d l n m hskip _ ih =>
    obtain ⟨front, hl⟩ := hl
    exact .skip hskip (ih hpath ⟨front ++ [d], by rw [hl, List.append_assoc]; rfl⟩ start)
  | @file path d l n m hdots htype _ ih =>
    obtain ⟨front, hl⟩ := hl
    exact .file hdots htype (ih hpath ⟨front ++ [d], by rw [hl, List.append_assoc]; rfl⟩ start)
  | @dir path d l below n m k j hdots htype hbelow _ _ ihbelow ih =>
    obtain ⟨front, hl⟩ := hl
    have hmem : d ∈ front ++ d :: l := List.mem_append_right _ List.mem_cons_self
    have hsame := hmirrored path _ d hpath hl hmem hdots htype
    refine .dir hdots htype (hsame.trans hbelow) (ihbelow (.dir hpath hl hmem hdots htype)
      ⟨[], hbelow⟩ _) (ih hpath ⟨front ++ [d], ?_⟩ start)
    rw [hl, List.append_assoc]
    rfl

theorem HasFiles.byName {fs : FileSystem} {cwd path : Bytes} {n m : ℕ}
    (hmirrored : Mirrored fs cwd path) (h : HasFiles fs inside path n m) :
    HasFiles fs (CountFiles.byName cwd) path n m := by
  obtain ⟨l, j, hl, hfound, hm⟩ := h
  exact ⟨l, j, hl, hfound.byName hmirrored .root ⟨[], hl⟩ path, hm⟩

/-! ## One entry -/

/-- The path that is put together for an entry fits its buffer. -/
def Fits (cwd : Bytes) (d : Dirent) : Prop := 0 ∉ d.name ∧ (inside cwd d.name).length < size

/-- All of them do. -/
def Short (fs : FileSystem) (cwd : Bytes) : Prop :=
  ∀ path l, fs.entries path = some l → ∀ d ∈ l, (inside cwd d.name).length < size

variable {fs : FileSystem} {cwd : Bytes} {limit : ℕ} {descend : Bytes → Process → Checked Process}
  {p q : Process} {d : Dirent}

theorem Short.fits (h : Short fs cwd) {path : Bytes} {l : List Dirent}
    (hl : fs.entries path = some l) : ∀ d ∈ l, Fits cwd d :=
  fun d hd ↦ ⟨fs.zero_notMem path l hl d hd, h path l hl d hd⟩

theorem visit_skip (h : isDots d.name = true ∨ d.type = .other) :
    visit cwd descend p d = .ok p := by
  rw [visit]
  split
  · rfl
  · next hdots => simp only [h.resolve_left hdots]

theorem visit_file (hdots : ¬isDots d.name = true) (htype : d.type = .reg) :
    visit cwd descend p d = (do
      let cnt ← checkInt (p.cnt + 1)
      return { p with cnt }) := by
  simp only [visit, if_neg hdots, htype]

theorem visit_dir (hdots : ¬isDots d.name = true) (htype : d.type = .dir) (hcwd : 0 ∉ cwd)
    (hfits : Fits cwd d) : visit cwd descend p d = descend (inside cwd d.name) p := by
  obtain ⟨hname, hshort⟩ := hfits
  have hlt : cwd.length < size := by
    rw [inside, List.length_append] at hshort
    omega
  have hzero : 0 ∉ inside cwd d.name := by
    rw [inside, List.mem_append, List.mem_append, not_or, not_or]
    exact ⟨hcwd, by decide, hname⟩
  have htext : sprintf size (cwd ++ (ascii "/" ++ d.name)) = .ok (inside cwd d.name) :=
    (sprintf_ok hshort).trans (congrArg _ (cString_eq_self hzero))
  simp only [visit, if_neg hdots, htype, getcwd, if_pos hlt, Checked.ok_bind, htext]

/-! ## What a call has counted -/

/-- A call that returns has added the files of a tree, and has left its directories open. -/
def AddsFiles (fs : FileSystem) (cwd : Bytes) (limit : ℕ) (path : Bytes) (p q : Process) : Prop :=
  ∃ k j : ℕ, HasFiles fs (byName cwd) path k j ∧ q = ⟨p.cnt + k, p.opened + j⟩ ∧
    q.cnt ≤ intMax ∧ q.opened ≤ limit

theorem opendir_eq_some {path : Bytes} {l : List Dirent} : opendir fs limit path p = some (l, q) ↔
    p.opened < limit ∧ fs.entries path = some l ∧ q = { p with opened := p.opened + 1 } := by
  rw [opendir, Option.ite_none_right_eq_some, Option.map_eq_some_iff]
  refine and_congr_right fun _ ↦ ⟨?_, ?_⟩
  · rintro ⟨l', hl', heq⟩
    obtain ⟨rfl, rfl⟩ := Prod.mk.inj heq
    exact ⟨hl', rfl⟩
  · rintro ⟨hl, rfl⟩
    exact ⟨l, hl, rfl⟩

/-- The loop over the entries of a directory, where the calls for directories do that. -/
theorem found_of_foldlM (hcwd : 0 ∉ cwd)
    (hdescend : ∀ path p q, descend path p = .ok q → p.cnt ≤ intMax →
      AddsFiles fs cwd limit path p q) {path : Bytes} {l : List Dirent} (hl : ∀ d ∈ l, Fits cwd d)
    (hcnt : p.cnt ≤ intMax) (hopened : p.opened ≤ limit)
    (h : l.foldlM (visit cwd descend) p = .ok q) :
    ∃ k j : ℕ, Found fs (byName cwd) path l k j ∧ q = ⟨p.cnt + k, p.opened + j⟩ ∧
      q.cnt ≤ intMax ∧ q.opened ≤ limit := by
  induction l generalizing p with
  | nil =>
    obtain rfl := Except.ok.inj h
    exact ⟨0, 0, .nil, by simp, hcnt, hopened⟩
  | cons d l ih =>
    obtain ⟨hfits, hl⟩ := List.forall_mem_cons.mp hl
    rw [List.foldlM_cons] at h
    obtain ⟨p', hvisit, h⟩ := Checked.bind_eq_ok.mp h
    by_cases hskip : isDots d.name = true ∨ d.type = .other
    · obtain rfl := Except.ok.inj ((visit_skip hskip).symm.trans hvisit)
      obtain ⟨k, j, hk, hq⟩ := ih hl hcnt hopened h
      exact ⟨k, j, .skip hskip hk, hq⟩
    · obtain ⟨hdots, hother⟩ := not_or.mp hskip
      cases htype : d.type with
      | other => exact absurd htype hother
      | reg =>
        rw [visit_file hdots htype] at hvisit
        obtain ⟨cnt, hcheck, hvisit⟩ := Checked.bind_eq_ok.mp hvisit
        rw [checkInt] at hcheck
        split_ifs at hcheck with hrange
        obtain rfl := Except.ok.inj hcheck
        obtain rfl := Except.ok.inj hvisit
        obtain ⟨k, j, hk, rfl, hbounds⟩ := ih (p := ⟨p.cnt + 1, p.opened⟩) hl hrange.2 hopened h
        refine ⟨k + 1, j, .file hdots htype hk, ?_, hbounds⟩
        rw [Nat.cast_add, Nat.cast_one, add_right_comm, ← add_assoc]
      | dir =>
        rw [visit_dir hdots htype hcwd hfits] at hvisit
        obtain ⟨k, j, ⟨below, j', hbelow, hfound, rfl⟩, rfl, hmax, hroom⟩ :=
          hdescend _ _ _ hvisit hcnt
        obtain ⟨n, m, hn, rfl, hbounds⟩ := ih hl hmax hroom h
        refine ⟨k + n, j' + 1 + m, .dir hdots htype hbelow hfound hn, ?_, hbounds⟩
        rw [Nat.cast_add, add_assoc, add_assoc]

theorem addsFiles_of_countFiles (hcwd : 0 ∉ cwd) (hshort : Short fs cwd) {fuel : ℕ} {path : Bytes}
    (h : countFiles fs cwd limit fuel path p = .ok q) (hcnt : p.cnt ≤ intMax) :
    AddsFiles fs cwd limit path p q := by
  induction fuel generalizing path p q with
  | zero => cases h
  | succ fuel ih =>
    rw [countFiles] at h
    cases hopen : opendir fs limit path p with
    | none => rw [hopen] at h; cases h
    | some r =>
      obtain ⟨l, p'⟩ := r
      rw [hopen] at h
      obtain ⟨hroom, hentries, rfl⟩ := opendir_eq_some.mp hopen
      obtain ⟨k, j, hk, rfl, hbounds⟩ := found_of_foldlM (p := ⟨p.cnt, p.opened + 1⟩) hcwd
        (fun _ _ _ hcall hcnt ↦ ih hcall hcnt) (hshort.fits hentries) hcnt hroom h
      refine ⟨k, j + 1, ⟨l, j, hentries, hk, rfl⟩, ?_, hbounds⟩
      rw [add_assoc p.opened, add_comm 1 j]

/-! ## What a call counts -/

/-- Going through a tree, enough calls deep. -/
theorem foldlM_of_found (hcwd : 0 ∉ cwd) (hshort : Short fs cwd) {path : Bytes} {l : List Dirent}
    {n m : ℕ} (h : Found fs (byName cwd) path l n m) (hl : ∀ d ∈ l, Fits cwd d) :
    ∀ᶠ fuel in atTop, ∀ p : Process, 0 ≤ p.cnt → p.cnt + n ≤ intMax → p.opened + m ≤ limit →
      l.foldlM (visit cwd (countFiles fs cwd limit fuel)) p = .ok ⟨p.cnt + n, p.opened + m⟩ := by
  induction h with
  | nil =>
    refine .of_forall fun fuel p _ _ _ ↦ ?_
    rw [Nat.cast_zero, add_zero, add_zero]
    rfl
  | @skip path d l n m hskip _ ih =>
    filter_upwards [ih (List.forall_mem_cons.mp hl).2] with fuel hrest p hcnt hmax hroom
    rw [List.foldlM_cons, visit_skip hskip, Checked.ok_bind, hrest p hcnt hmax hroom]
  | @file path d l n m hdots htype _ ih =>
    filter_upwards [ih (List.forall_mem_cons.mp hl).2] with fuel hrest p hcnt hmax hroom
    rw [Nat.cast_add, Nat.cast_one] at hmax ⊢
    have hcheck : checkInt (p.cnt + 1) = .ok (p.cnt + 1) :=
      checkInt_ok (by rw [intMin]; omega) (by omega)
    rw [List.foldlM_cons, visit_file hdots htype, hcheck, Checked.ok_bind, Checked.pure_eq_ok,
      Checked.ok_bind, hrest ⟨p.cnt + 1, p.opened⟩ (by dsimp only; omega) (by dsimp only; omega)
        hroom]
    simp only [add_assoc, add_comm (1 : ℤ)]
  | @dir path d l below n m k j hdots htype hbelow _ _ ihbelow ih =>
    obtain ⟨hfits, hl⟩ := List.forall_mem_cons.mp hl
    have hcall := ihbelow (hshort.fits hbelow)
    obtain ⟨depth, hdepth⟩ := eventually_atTop.mp hcall
    filter_upwards [ih hl, eventually_gt_atTop depth] with fuel hrest hfuel p hcnt hmax hroom
    rw [Nat.cast_add] at hmax ⊢
    obtain ⟨fuel, rfl⟩ := Nat.exists_eq_succ_of_ne_zero (Nat.ne_of_gt (Nat.zero_lt_of_lt hfuel))
    have hopen : opendir fs limit (inside cwd d.name) p =
        some (below, { p with opened := p.opened + 1 }) :=
      opendir_eq_some.mpr ⟨by omega, hbelow, rfl⟩
    have hsub : countFiles fs cwd limit (fuel + 1) (inside cwd d.name) p =
        .ok ⟨p.cnt + k, p.opened + 1 + j⟩ := by
      rw [countFiles, hopen]
      exact hdepth fuel (Nat.le_of_lt_succ hfuel) { p with opened := p.opened + 1 } hcnt
        (by dsimp only; omega) (by dsimp only; omega)
    rw [List.foldlM_cons, visit_dir hdots htype hcwd hfits, hsub, Checked.ok_bind,
      hrest ⟨p.cnt + k, p.opened + 1 + j⟩ (by dsimp only; omega) (by dsimp only; omega)
        (by dsimp only; omega)]
    simp only [add_assoc, add_left_comm 1 j]

theorem countFiles_eventually (hcwd : 0 ∉ cwd) (hshort : Short fs cwd) {path : Bytes} {k j : ℕ}
    (h : HasFiles fs (byName cwd) path k j) (hcnt : 0 ≤ p.cnt) (hmax : p.cnt + k ≤ intMax)
    (hroom : p.opened + j ≤ limit) : ∀ᶠ fuel in atTop,
      countFiles fs cwd limit fuel path p = .ok ⟨p.cnt + k, p.opened + j⟩ := by
  obtain ⟨l, j, hentries, hfound, rfl⟩ := h
  have hloop : ∀ᶠ fuel in atTop, ∀ p : Process, 0 ≤ p.cnt → p.cnt + k ≤ intMax →
      p.opened + j ≤ limit → l.foldlM (visit cwd (countFiles fs cwd limit fuel)) p =
        .ok ⟨p.cnt + k, p.opened + j⟩ :=
    foldlM_of_found hcwd hshort hfound (hshort.fits hentries)
  obtain ⟨depth, hdepth⟩ := eventually_atTop.mp hloop
  filter_upwards [eventually_gt_atTop depth] with fuel hfuel
  obtain ⟨fuel, rfl⟩ := Nat.exists_eq_succ_of_ne_zero (Nat.ne_of_gt (Nat.zero_lt_of_lt hfuel))
  have hopen : opendir fs limit path p = some (l, { p with opened := p.opened + 1 }) :=
    opendir_eq_some.mpr ⟨by omega, hentries, rfl⟩
  rw [countFiles, hopen, add_comm j 1, ← add_assoc]
  exact hdepth fuel (Nat.le_of_lt_succ hfuel) { p with opened := p.opened + 1 } hcnt hmax
    (by dsimp only; omega)

/-! ## The number of files of a tree -/

/-- The call returns, in a process that earlier calls have left like `p`, and its result is `n`. -/
def Counts (fs : FileSystem) (cwd : Bytes) (limit : ℕ) (path : Bytes) (p : Process) (n : ℕ) :
    Prop :=
  ∀ᶠ fuel in atTop, (countFiles fs cwd limit fuel path p).map Process.cnt = .ok (n : ℤ)

/-- **Counting a tree.** Let `path` be a tree of `m` directories with `n` regular files, in a
process that has counted `p.cnt` and has `p.opened` descriptors open. The call returns `n` exactly
if looking up every directory by its name in the working directory gives a finite tree of readable
directories too, if that tree and the earlier calls make up `n` files, if there are descriptors for
all directories of that tree at once, and if `n` is an `int`. Where each directory is found there as
it is, this means that no files have been counted before and that there are `m` more descriptors. -/
theorem counts_iff (hcwd : 0 ∉ cwd) (hshort : Short fs cwd) {path : Bytes} {n m : ℕ}
    (htree : HasFiles fs inside path n m) (hprior : 0 ≤ p.cnt ∧ p.cnt ≤ intMax) :
    (Counts fs cwd limit path p n ↔
      (∃ k j : ℕ, HasFiles fs (byName cwd) path k j ∧ p.cnt + k = n ∧ p.opened + j ≤ limit) ∧
        (n : ℤ) ≤ intMax) ∧
    (Mirrored fs cwd path → (Counts fs cwd limit path p n ↔
      p.cnt = 0 ∧ p.opened + m ≤ limit ∧ (n : ℤ) ≤ intMax)) := by
  have hiff : Counts fs cwd limit path p n ↔
      (∃ k j : ℕ, HasFiles fs (byName cwd) path k j ∧ p.cnt + k = n ∧ p.opened + j ≤ limit) ∧
        (n : ℤ) ≤ intMax := by
    constructor
    · intro h
      obtain ⟨fuel, hfuel⟩ := h.exists
      cases hcall : countFiles fs cwd limit fuel path p with
      | error e => rw [hcall] at hfuel; cases hfuel
      | ok q =>
        rw [hcall] at hfuel
        obtain ⟨k, j, hk, rfl, hmax, hroom⟩ :=
          addsFiles_of_countFiles hcwd hshort hcall hprior.2
        have hn : p.cnt + k = n := Except.ok.inj hfuel
        exact ⟨⟨k, j, hk, hn, hroom⟩, hn ▸ hmax⟩
    · rintro ⟨⟨k, j, hk, hn, hroom⟩, hmax⟩
      filter_upwards [countFiles_eventually hcwd hshort hk hprior.1 (hn ▸ hmax) hroom]
        with fuel hcall
      rw [hcall, ← hn]
      rfl
  refine ⟨hiff, fun hmirrored ↦ hiff.trans ?_⟩
  have hsame := htree.byName hmirrored
  constructor
  · rintro ⟨⟨k, j, hk, hn, hroom⟩, hmax⟩
    obtain ⟨rfl, rfl⟩ := hk.unique hsame
    exact ⟨by omega, hroom, hmax⟩
  · rintro ⟨hzero, hroom, hmax⟩
    exact ⟨⟨n, m, hsame, by rw [hzero, zero_add], hroom⟩, hmax⟩

/-! ## Two directories -/

/-- `/t` has a file and a directory with another file; the process is in `/home`. -/
def homeAndTree : FileSystem where
  entries path :=
    if path = ascii "/t" then
      some [⟨.dir, ascii "."⟩, ⟨.dir, ascii ".."⟩, ⟨.reg, ascii "a"⟩, ⟨.dir, ascii "d"⟩]
    else if path = ascii "/t/d" then
      some [⟨.dir, ascii "."⟩, ⟨.dir, ascii ".."⟩, ⟨.reg, ascii "b"⟩]
    else if path = ascii "/home" then some [⟨.dir, ascii "."⟩, ⟨.dir, ascii ".."⟩]
    else none
  zero_notMem := by
    intro path l h
    split_ifs at h
    all_goals
      obtain rfl := Option.some_inj.mp h
      decide

theorem short_homeAndTree : Short homeAndTree (ascii "/home") := by
  intro path l h
  simp only [homeAndTree] at h
  split_ifs at h
  all_goals
    obtain rfl := Option.some_inj.mp h
    decide

theorem found_d (child : Bytes → Bytes → Bytes) (path : Bytes) :
    Found homeAndTree child path [⟨.dir, ascii "."⟩, ⟨.dir, ascii ".."⟩, ⟨.reg, ascii "b"⟩] 1 0 :=
  .skip (Or.inl rfl) (.skip (Or.inl rfl) (.file (by decide) rfl .nil))

theorem hasFiles_t : HasFiles homeAndTree inside (ascii "/t") 2 2 :=
  ⟨_, _, rfl, .skip (Or.inl rfl) (.skip (Or.inl rfl)
    (.file (by decide) rfl (.dir (by decide) rfl rfl (found_d _ _) .nil))), rfl⟩

theorem hasFiles_d (child : Bytes → Bytes → Bytes) :
    HasFiles homeAndTree child (ascii "/t/d") 1 1 := ⟨_, _, rfl, found_d _ _, rfl⟩

/-- Behind the three standard descriptors there is one for the directory. -/
theorem counts_iff_d : Counts homeAndTree (ascii "/home") 4 (ascii "/t/d") ⟨0, 3⟩ 1 :=
  (counts_iff (by decide) short_homeAndTree (hasFiles_d _) (by decide)).1.mpr
    ⟨⟨1, 1, hasFiles_d _, rfl, by decide⟩, by decide⟩

/-- The directory `d` of `/t` is looked for in `/home`; a second call starts from the count of the
first; and when as many calls have been made as there are descriptors, none is left. -/
theorem not_counts :
    (HasFiles homeAndTree inside (ascii "/t") 2 2 ∧
      ¬Counts homeAndTree (ascii "/home") 1024 (ascii "/t") ⟨0, 3⟩ 2) ∧
    HasFiles homeAndTree inside (ascii "/t/d") 1 1 ∧
      ¬Counts homeAndTree (ascii "/home") 1024 (ascii "/t/d") ⟨1, 4⟩ 1 ∧
      ¬Counts homeAndTree (ascii "/home") 1024 (ascii "/t/d") ⟨0, 1024⟩ 1 := by
  have hcall : ∀ fuel, countFiles homeAndTree (ascii "/home") 1024 (fuel + 2) (ascii "/t") ⟨0, 3⟩ =
      .error .nullPointer := fun _ ↦ rfl
  have hcall' : ∀ fuel,
      countFiles homeAndTree (ascii "/home") 1024 (fuel + 1) (ascii "/t/d") ⟨1, 4⟩ =
        .ok ⟨2, 5⟩ := fun _ ↦ rfl
  have hcall'' : ∀ fuel,
      countFiles homeAndTree (ascii "/home") 1024 (fuel + 1) (ascii "/t/d") ⟨0, 1024⟩ =
        .error .nullPointer := fun _ ↦ rfl
  refine ⟨⟨hasFiles_t, fun h ↦ ?_⟩, hasFiles_d _, fun h ↦ ?_, fun h ↦ ?_⟩
  all_goals obtain ⟨depth, hdepth⟩ := eventually_atTop.mp h
  · have hresult := hdepth (depth + 2) (Nat.le_add_right _ _)
    rw [hcall] at hresult
    cases hresult
  · have hresult := hdepth (depth + 1) (Nat.le_add_right _ _)
    rw [hcall'] at hresult
    cases hresult
  · have hresult := hdepth (depth + 1) (Nat.le_add_right _ _)
    rw [hcall''] at hresult
    cases hresult

end CountFiles

end CodeOnLinux
