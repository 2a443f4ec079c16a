import CodeOnLinux.LinkList.Sequence

/-!
# Calls with bad arguments

`AddNode` looks at both of its pointers and `DelNode` at the manager and at one end of the range of
positions; `PushBack` and `Pop` look at nothing. So a call from any state of a list follows no null
pointer, and leaves everything as it is where it cannot be served, except for `PushBack` with a null
argument, `DelNode` with a position below 1, and `Pop` of a null manager or an empty list
(`refuses_iff`).
-/

namespace CodeOnLinux

namespace LinkList

open Chain

variable {μ ν : Type}

/-! ## Calls -/

/-- A call that may change the list, with any arguments. -/
inductive Call (μ ν : Type)
  | addNode (list_manager : Option μ) (data : Option ν)
  | pushBack (list_manager : Option μ) (data : Option ν)
  | delNode (list_manager : Option μ) (pos : ℤ)
  | pop (list_manager : Option μ)

def Call.manager : Call μ ν → Option μ
  | .addNode list_manager _ => list_manager
  | .pushBack list_manager _ => list_manager
  | .delNode list_manager _ => list_manager
  | .pop list_manager => list_manager

/-- The node that the call is given to link. -/
def Call.inserted : Call μ ν → Option ν
  | .addNode _ data => data
  | .pushBack _ data => data
  | .delNode _ _ => none
  | .pop _ => none

def Call.exec [DecidableEq μ] [DecidableEq ν] (h : Heap μ ν) : Call μ ν → Checked (Heap μ ν)
  | .addNode list_manager data => LinkList.addNode h list_manager data
  | .pushBack list_manager data => LinkList.pushBack h list_manager data
  | .delNode list_manager pos => LinkList.delNode h list_manager pos
  | .pop list_manager => LinkList.pop h list_manager

/-- There is something to insert, or to remove. -/
def Call.Satisfiable (h : Heap μ ν) : Call μ ν → Prop
  | .addNode list_manager data => list_manager ≠ none ∧ data ≠ none
  | .pushBack list_manager data => list_manager ≠ none ∧ data ≠ none
  | .delNode list_manager pos => ∃ lm ∈ list_manager, 1 ≤ pos ∧ pos ≤ h.size lm
  | .pop list_manager => ∃ lm ∈ list_manager, 0 < h.size lm

/-- The call follows no null pointer, and is refused without a change if it cannot be served. -/
def Call.Refuses [DecidableEq μ] [DecidableEq ν] (h : Heap μ ν) (c : Call μ ν) : Prop :=
  c.exec h ≠ .error .nullPointer ∧ (¬c.Satisfiable h → c.exec h = .ok h)

/-- The arguments that the functions are written for. -/
def Call.Expected (h : Heap μ ν) : Call μ ν → Prop
  | .addNode _ _ => True
  | .pushBack list_manager data => list_manager ≠ none ∧ data ≠ none
  | .delNode list_manager pos => list_manager = none ∨ 1 ≤ pos
  | .pop list_manager => ∃ lm ∈ list_manager, 0 < h.size lm

/-! ## The states of a list -/

/-- The node is on the list of the manager. -/
def OnList (h : Heap μ ν) (lm : μ) (n : ν) : Prop :=
  ∃ l : List ν, Linked h.next (h.next (.head lm)) (l.map .data) ∧ n ∈ l

section

variable [DecidableEq μ] [DecidableEq ν]

/-- After `ListInit`, any calls that returned, none of which inserted a node that is on the list. -/
inductive Reachable (lm : μ) : Heap μ ν → Prop
  | listInit {h₀ h : Heap μ ν} : LinkList.listInit h₀ (some lm) = .ok (h, some lm) → Reachable lm h
  | call {h h' : Heap μ ν} (c : Call μ ν) : Reachable lm h → (∀ m ∈ c.manager, m = lm) →
    (∀ n ∈ c.inserted, ¬OnList h lm n) → c.exec h = .ok h' → Reachable lm h'

/-! ## What the calls do -/

omit [DecidableEq μ] [DecidableEq ν] in
/-- A walk that starts below its stop never gets there. -/
theorem walk_below (h : Heap μ ν) (stop : ℤ) (iter : PNode μ ν) (pos : ℤ) (hlt : pos < stop) :
    ∃ e, walk h stop iter pos = .error e := by
  induction iter, pos using walk.induct h stop with
  | case1 iter pos hmin => exact ⟨_, by rw [walk, if_pos hmin]⟩
  | case2 iter pos hmin hzero => exact absurd hzero (by omega)
  | case3 iter pos hmin hzero e he => exact ⟨e, by rw [walk, if_neg hmin, if_neg hzero, he]⟩
  | case4 iter pos hmin hzero next hnext hpos =>
    exact ⟨_, by rw [walk, if_neg hmin, if_neg hzero, hnext]; exact if_pos hpos⟩
  | case5 iter pos hmin hzero next hnext hpos ih =>
    obtain ⟨e, he⟩ := ih (by omega)
    refine ⟨e, ?_⟩
    rw [walk, if_neg hmin, if_neg hzero, hnext]
    exact (if_neg hpos).trans he

theorem delNode_below {h : Heap μ ν} {lm : μ} {pos : ℤ} (hpos : pos < 1) (hsize : pos ≤ h.size lm) :
    ∃ e, delNode h (some lm) pos = .error e := by
  obtain ⟨e, he⟩ := walk_below h 1 (headOf (some lm)) pos hpos
  refine ⟨e, ?_⟩
  rw [delNode, if_neg (not_lt.mpr hsize), he]
  rfl

omit [DecidableEq ν] in
/-- Counting fails only where the counter is at its limit. -/
theorem addSize_one_cases (h : Heap μ ν) (lm : μ) :
    (∃ h', h.addSize 1 (some lm) = .ok h' ∧ h.size lm + 1 ≤ intMax) ∨
      h.addSize 1 (some lm) = .error .intOverflow := by
  by_cases hfits : intMin ≤ h.size lm + 1 ∧ h.size lm + 1 ≤ intMax
  · exact Or.inl ⟨_, addSize_ok hfits.1 hfits.2, hfits.2⟩
  · refine Or.inr ?_
    rw [Heap.addSize, checkInt, if_neg hfits]
    rfl

/-- A node is added, or the counter overflows. -/
theorem addNode_cases (h : Heap μ ν) (lm : μ) (n : ν) :
    (∃ h', addNode h (some lm) (some n) = .ok h' ∧ h.size lm + 1 ≤ intMax) ∨
      addNode h (some lm) (some n) = .error .intOverflow := by
  rw [addNode_eq_addSize]
  exact addSize_one_cases _ lm

theorem pushBack_cases {h : Heap μ ν} {lm : μ} {l : List ν} (hrep : Rep h lm l) (n : ν) :
    (∃ h', pushBack h (some lm) (some n) = .ok h' ∧ h.size lm + 1 ≤ intMax) ∨
      pushBack h (some lm) (some n) = .error .intOverflow := by
  rw [pushBack_eq_addSize hrep]
  exact addSize_one_cases _ lm

/-- The null pointer is linked, and then followed. -/
theorem pushBack_null {h : Heap μ ν} {lm : μ} {l : List ν} (hrep : Rep h lm l) :
    pushBack h (some lm) none = .error .nullPointer := by
  rw [pushBack]
  simp only [Heap.loadSize_some, headOf, Option.map_some, Option.map_none, Checked.ok_bind,
    hrep.walk_size, Heap.storeNext_some]
  rfl

/-- From position 1 on, the position is beyond the end, or its node is removed. -/
theorem delNode_cases {h : Heap μ ν} {lm : μ} {l : List ν} (hrep : Rep h lm l)
    (hmax : (l.length : ℤ) ≤ intMax) {pos : ℤ} (hpos : 1 ≤ pos) :
    (h.size lm < pos ∧ delNode h (some lm) pos = .ok h) ∨
      ∃ h' l', pos ≤ h.size lm ∧ delNode h (some lm) pos = .ok h' ∧ Rep h' lm l' ∧
        l'.length < l.length := by
  by_cases hgt : (l.length : ℤ) < pos
  · exact Or.inl ⟨hrep.size_eq ▸ hgt, delNode_of_gt hrep hgt⟩
  · -- the node is there: split the list around it
    obtain ⟨k, rfl⟩ : ∃ k : ℕ, pos = k + 1 := ⟨(pos - 1).toNat, by omega⟩
    have hk : k < l.length := by omega
    have hsplit : l = l.take k ++ l[k] :: l.drop (k + 1) := by
      rw [List.getElem_cons_drop, List.take_append_drop]
    have hlen : (l.take k).length = k := List.length_take_of_le hk.le
    have hrep' := hrep
    rw [hsplit] at hrep' hmax
    have hdel := delNode_eq hrep' hmax
    rw [hlen] at hdel
    refine Or.inr ⟨_, _, by rw [hrep.size_eq]; omega, hdel, hrep'.remove, ?_⟩
    conv_rhs => rw [hsplit]
    simp only [List.length_append, List.length_cons]
    omega

/-! ## Reachable states -/

/-- A node that was inserted is counted. -/
theorem exists_rep_addNode {h h' : Heap μ ν} {lm : μ} {l : List ν} (hrep : Rep h lm l) {n : ν}
    (hn : n ∉ l) (hexec : addNode h (some lm) (some n) = .ok h') :
    ∃ l', Rep h' lm l' ∧ (l'.length : ℤ) ≤ intMax := by
  obtain ⟨-, -, hroom⟩ | herror := addNode_cases h lm n
  · rw [hrep.size_eq] at hroom
    rw [addNode_eq hrep hroom, Except.ok.injEq] at hexec
    refine ⟨n :: l, hexec ▸ hrep.push hn, ?_⟩
    rw [List.length_cons]
    exact_mod_cast hroom
  · rw [herror] at hexec
    cases hexec

theorem exists_rep_pushBack {h h' : Heap μ ν} {lm : μ} {l : List ν} (hrep : Rep h lm l) {n : ν}
    (hn : n ∉ l) (hexec : pushBack h (some lm) (some n) = .ok h') :
    ∃ l', Rep h' lm l' ∧ (l'.length : ℤ) ≤ intMax := by
  obtain ⟨-, -, hroom⟩ | herror := pushBack_cases hrep n
  · rw [hrep.size_eq] at hroom
    rw [pushBack_eq hrep hroom, Except.ok.injEq] at hexec
    refine ⟨l ++ [n], hexec ▸ hrep.snoc hn, ?_⟩
    rw [List.length_append, List.length_singleton]
    exact_mod_cast hroom
  · rw [herror] at hexec
    cases hexec

theorem exists_rep_delNode {h h' : Heap μ ν} {lm : μ} {l : List ν} (hrep : Rep h lm l)
    (hmax : (l.length : ℤ) ≤ intMax) {pos : ℤ} (hexec : delNode h (some lm) pos = .ok h') :
    ∃ l', Rep h' lm l' ∧ (l'.length : ℤ) ≤ intMax := by
  by_cases hpos : 1 ≤ pos
  · obtain ⟨-, hok⟩ | ⟨h₁, l', -, hok, hrep', hlt⟩ := delNode_cases hrep hmax hpos
    · rw [hok, Except.ok.injEq] at hexec
      exact ⟨l, hexec ▸ hrep, hmax⟩
    · rw [hok, Except.ok.injEq] at hexec
      exact ⟨l', hexec ▸ hrep', by omega⟩
  · have hsize : pos ≤ h.size lm := by
      rw [hrep.size_eq]
      omega
    obtain ⟨e, he⟩ := delNode_below (by omega) hsize
    rw [he] at hexec
    cases hexec

/-- **Each state of a list** represents a sequence that the counter can count. -/
theorem Reachable.exists_rep {lm : μ} {h : Heap μ ν} (hstate : Reachable lm h) :
    ∃ l, Rep h lm l ∧ (l.length : ℤ) ≤ intMax := by
  induction hstate with
  | listInit hinit =>
    rw [listInit_some, Except.ok.injEq, Prod.mk.injEq] at hinit
    exact ⟨[], hinit.1 ▸ listInit_rep _ lm, by simp [intMax]⟩
  | @call h h' c _ hmanager hinserted hexec ih =>
    obtain ⟨l, hrep, hmax⟩ := ih
    have hnew : ∀ n ∈ c.inserted, n ∉ l := fun n hn hmem ↦ hinserted n hn ⟨l, hrep.linked, hmem⟩
    have hsame : .ok h = (.ok h' : Checked (Heap μ ν)) →
        ∃ l', Rep h' lm l' ∧ (l'.length : ℤ) ≤ intMax := fun he ↦
      ⟨l, Except.ok.inj he ▸ hrep, hmax⟩
    cases hlm : c.manager with
    | none =>
      -- `AddNode` and `DelNode` look at the manager, the others follow the null pointer
      cases c with
      | addNode list_manager data =>
        obtain rfl : list_manager = none := hlm
        exact hsame hexec
      | pushBack list_manager data =>
        obtain rfl : list_manager = none := hlm
        cases hexec
      | delNode list_manager pos =>
        obtain rfl : list_manager = none := hlm
        exact hsame hexec
      | pop list_manager =>
        obtain rfl : list_manager = none := hlm
        cases hexec
    | some m =>
      obtain rfl : m = lm := hmanager m hlm
      cases c with
      | addNode list_manager data =>
        obtain rfl : list_manager = some m := hlm
        cases data with
        | none => exact hsame hexec
        | some n => exact exists_rep_addNode hrep (hnew n rfl) hexec
      | pushBack list_manager data =>
        obtain rfl : list_manager = some m := hlm
        cases data with
        | none => exact absurd ((pushBack_null hrep).symm.trans hexec) (by simp)
        | some n => exact exists_rep_pushBack hrep (hnew n rfl) hexec
      | delNode list_manager pos =>
        obtain rfl : list_manager = some m := hlm
        exact exists_rep_delNode hrep hmax hexec
      | pop list_manager =>
        obtain rfl : list_manager = some m := hlm
        exact exists_rep_delNode hrep hmax hexec

/-! ## Which calls refuse what they cannot do -/

theorem refuses_addNode (h : Heap μ ν) (list_manager : Option μ) (data : Option ν) :
    (Call.addNode list_manager data).Refuses h := by
  cases list_manager with
  | none => exact ⟨by simp [Call.exec, LinkList.addNode], fun _ ↦ rfl⟩
  | some lm =>
    cases data with
    | none => exact ⟨by simp [Call.exec, LinkList.addNode], fun _ ↦ rfl⟩
    | some n =>
      refine ⟨?_, fun hunsat ↦ absurd ⟨Option.some_ne_none lm, Option.some_ne_none n⟩ hunsat⟩
      obtain ⟨h', hok, -⟩ | herror := addNode_cases h lm n
      · simp [Call.exec, hok]
      · simp [Call.exec, herror]

theorem refuses_pushBack_iff {h : Heap μ ν} {list_manager : Option μ}
    (hrep : ∀ lm ∈ list_manager, ∃ l, Rep h lm l) (data : Option ν) :
    (Call.pushBack list_manager data).Refuses h ↔ list_manager ≠ none ∧ data ≠ none := by
  cases list_manager with
  | none => exact iff_of_false (fun hrefuses ↦ hrefuses.1 rfl) fun hne ↦ hne.1 rfl
  | some lm =>
    obtain ⟨l, hrep⟩ := hrep lm rfl
    cases data with
    | none =>
      refine iff_of_false (fun hrefuses ↦ hrefuses.1 (pushBack_null hrep)) fun hne ↦ hne.2 rfl
    | some n =>
      have hne : some lm ≠ none ∧ some n ≠ none := ⟨Option.some_ne_none lm, Option.some_ne_none n⟩
      refine iff_of_true ⟨?_, fun hunsat ↦ absurd hne hunsat⟩ hne
      obtain ⟨h', hok, -⟩ | herror := pushBack_cases hrep n
      · simp [Call.exec, hok]
      · simp [Call.exec, herror]

theorem refuses_delNode_iff {h : Heap μ ν} {list_manager : Option μ}
    (hrep : ∀ lm ∈ list_manager, ∃ l, Rep h lm l ∧ (l.length : ℤ) ≤ intMax) (pos : ℤ) :
    (Call.delNode list_manager pos).Refuses h ↔ list_manager = none ∨ 1 ≤ pos := by
  cases list_manager with
  | none => exact iff_of_true ⟨by simp [Call.exec, LinkList.delNode], fun _ ↦ rfl⟩ (Or.inl rfl)
  | some lm =>
    obtain ⟨l, hrep, hmax⟩ := hrep lm rfl
    by_cases hpos : 1 ≤ pos
    · refine iff_of_true ?_ (Or.inr hpos)
      obtain ⟨-, hok⟩ | ⟨h', -, hle, hok, -⟩ := delNode_cases hrep hmax hpos
      · exact ⟨by simp [Call.exec, hok], fun _ ↦ hok⟩
      · exact ⟨by simp [Call.exec, hok], fun hunsat ↦ absurd ⟨lm, rfl, hpos, hle⟩ hunsat⟩
    · refine iff_of_false (fun hrefuses ↦ ?_) fun h ↦ h.elim (by simp) hpos
      have hsize : pos ≤ h.size lm := by
        rw [hrep.size_eq]
        omega
      obtain ⟨e, he⟩ := delNode_below (by omega) hsize
      have hunsat : ¬(Call.delNode (ν := ν) (some lm) pos).Satisfiable h := by
        rintro ⟨m, -, hle, -⟩
        exact hpos hle
      exact absurd (he.symm.trans (hrefuses.2 hunsat)) (by simp)

theorem refuses_pop_iff {h : Heap μ ν} {list_manager : Option μ}
    (hrep : ∀ lm ∈ list_manager, ∃ l, Rep h lm l ∧ (l.length : ℤ) ≤ intMax) :
    (Call.pop (ν := ν) list_manager).Refuses h ↔ ∃ lm ∈ list_manager, 0 < h.size lm := by
  cases list_manager with
  | none =>
    refine iff_of_false (fun hrefuses ↦ hrefuses.1 rfl) ?_
    rintro ⟨m, hm, -⟩
    cases hm
  | some lm =>
    -- `Pop` is `DelNode` at the last position
    have hdel := refuses_delNode_iff hrep (h.size lm)
    have hsat : (Call.pop (ν := ν) (some lm)).Satisfiable h ↔
        (Call.delNode (ν := ν) (some lm) (h.size lm)).Satisfiable h := by
      constructor
      · rintro ⟨m, hm, hpos⟩
        obtain rfl := Option.some_inj.mp hm
        exact ⟨lm, rfl, hpos, le_refl _⟩
      · rintro ⟨m, hm, hpos, -⟩
        exact ⟨lm, rfl, hpos⟩
    have hiff : (Call.pop (ν := ν) (some lm)).Refuses h ↔
        (Call.delNode (ν := ν) (some lm) (h.size lm)).Refuses h := by
      rw [Call.Refuses, Call.Refuses, hsat]
      exact Iff.rfl
    rw [hiff, hdel]
    constructor
    · rintro (hnone | hpos)
      · cases hnone
      · exact ⟨lm, rfl, hpos⟩
    · rintro ⟨m, hm, hpos⟩
      obtain rfl := Option.some_inj.mp hm
      exact Or.inr hpos

/-- **Which calls refuse what they cannot do.** In every state of the list that a call is made on,
the call follows no null pointer, and leaves everything as it is if it cannot be served, if and only
if its arguments are among those the function is written for. -/
theorem refuses_iff {h : Heap μ ν} {c : Call μ ν} (hstate : ∀ lm ∈ c.manager, Reachable lm h) :
    c.Refuses h ↔ c.Expected h := by
  have hrep : ∀ lm ∈ c.manager, ∃ l, Rep h lm l ∧ (l.length : ℤ) ≤ intMax := fun lm hlm ↦
    (hstate lm hlm).exists_rep
  cases c with
  | addNode list_manager data => exact iff_of_true (refuses_addNode h list_manager data) trivial
  | pushBack list_manager data =>
    exact refuses_pushBack_iff (fun lm hlm ↦ (hrep lm hlm).imp fun _ hl ↦ hl.1) data
  | delNode list_manager pos => exact refuses_delNode_iff hrep pos
  | pop list_manager => exact refuses_pop_iff hrep

end

/-- The memory after `ListInit`, with one manager. -/
def emptyList : Heap Unit ℕ :=
  ((⟨fun _ ↦ none, fun _ ↦ 7, fun _ ↦ []⟩ : Heap Unit ℕ).setNext (.head ()) none).setSize () 0

theorem reachable_emptyList : Reachable () emptyList := .listInit (listInit_some _ ())

/-- A position beyond the end of the empty list is refused. -/
theorem refuses_delNode_emptyList : (Call.delNode (ν := ℕ) (some ()) 1).Refuses emptyList :=
  (refuses_iff fun _ _ ↦ reachable_emptyList).mpr (Or.inr (le_refl 1))

/-- `Pop` of the empty list is `DelNode` at position 0, whose walk runs off the list. -/
theorem pop_emptyList : ¬∀ (h : Heap Unit ℕ) (c : Call Unit ℕ),
    (∀ lm ∈ c.manager, Reachable lm h) → c.Refuses h := by
  intro hall
  have hrefuses := hall emptyList (.pop (some ())) fun _ _ ↦ reachable_emptyList
  obtain ⟨lm, -, hpos⟩ := (refuses_pop_iff fun _ _ ↦ reachable_emptyList.exists_rep).mp hrefuses
  exact absurd (show 0 < emptyList.size () from hpos) (by decide)

end LinkList

end CodeOnLinux
