import Mathlib.Data.List.Basic
import Mathlib.Tactic.Common

/-!
# Runs of a labelled step function

A program whose next move depends on a schedule or on answers of its environment is a partial
step function `step : σ → α → Option σ`: the label `α` says which party moves and what it is
answered, and `none` says that the label is not enabled in that state.

Some inductions are packaged here once. An invariant that every step preserves holds after every
run, also when only the steps that meet a side condition are considered
(`Transition.invariant_of_along`). Where the other steps break a property, it holds throughout a run
exactly if they do not occur (`Transition.throughout_iff_along`). Where each step uses something up,
runs are bounded (`Transition.length_add_le_of_along`). Where some steps bring a property about and
some keep it, it holds exactly if it was brought about and kept since (`Transition.holds_iff_since`,
`Transition.holds_iff_along`). A log that steps add to holds what the labels of the run add
(`Transition.log_of_run`), and where they add one entry at a time it once ended at each of them
(`Transition.exists_run_of_log_prefix`). Where a step is taken only when it is its turn, the order
of the steps is no choice of the schedule (`Transition.turns_of_clock`). And where the steps also
answer, a step-by-step refinement lifts to runs with equal answers
(`Transition.exists_trace_of_refines`).
-/

namespace CodeOnLinux

namespace Transition

variable {σ τ α β γ : Type*}

/-! ## Runs -/

/-- Take the labels one after the other; a label that is not enabled ends the run in `none`. -/
def run (step : σ → α → Option σ) : σ → List α → Option σ
  | s, [] => some s
  | s, a :: as => (step s a).bind fun t ↦ run step t as

/-- Every step that the run takes, from the state it is taken in, satisfies `C`. -/
def Along (step : σ → α → Option σ) (C : σ → α → Prop) : σ → List α → Prop
  | _, [] => True
  | s, a :: as => C s a ∧ ∀ t, step s a = some t → Along step C t as

/-- A step that is taken only where it is enabled. -/
def guarded (p : Prop) [Decidable p] (t : σ) : Option σ := if p then some t else none

@[simp] theorem guarded_eq_some {p : Prop} [Decidable p] {t u : σ} :
    guarded p t = some u ↔ p ∧ t = u := by
  rw [guarded, Option.ite_none_right_eq_some, Option.some_inj]

theorem guarded_of {p : Prop} [Decidable p] (hp : p) (t : σ) : guarded p t = some t := if_pos hp

section

variable {step : σ → α → Option σ}

@[simp] theorem run_nil (s : σ) : run step s [] = some s := rfl

theorem run_cons_eq_some {s t : σ} {a : α} {as : List α} :
    run step s (a :: as) = some t ↔ ∃ u, step s a = some u ∧ run step u as = some t := by
  rw [run, Option.bind_eq_some_iff]

theorem run_cons_of {s t u : σ} {a : α} {as : List α} (hstep : step s a = some u)
    (hrun : run step u as = some t) : run step s (a :: as) = some t :=
  run_cons_eq_some.mpr ⟨u, hstep, hrun⟩

theorem run_append_eq_some {s t : σ} {as bs : List α} :
    run step s (as ++ bs) = some t ↔ ∃ u, run step s as = some u ∧ run step u bs = some t := by
  induction as generalizing s with
  | nil => simp
  | cons a as ih =>
    simp only [List.cons_append, run_cons_eq_some, ih]
    constructor
    · rintro ⟨v, hv, u, hu, ht⟩
      exact ⟨u, ⟨v, hv, hu⟩, ht⟩
    · rintro ⟨u, ⟨v, hv, hu⟩, ht⟩
      exact ⟨v, hv, u, hu, ht⟩

instance decidableAlong {C : σ → α → Prop} [∀ s a, Decidable (C s a)] :
    ∀ s as, Decidable (Along step C s as)
  | _, [] => isTrue trivial
  | s, a :: as =>
    have := fun t ↦ decidableAlong (C := C) t as
    decidable_of_iff (C s a ∧ ∀ t ∈ step s a, Along step C t as) Iff.rfl

theorem along_true (s : σ) (as : List α) : Along step (fun _ _ ↦ True) s as := by
  induction as generalizing s with
  | nil => trivial
  | cons a as ih => exact ⟨trivial, fun t _ ↦ ih t⟩

theorem Along.mono {C D : σ → α → Prop} (hCD : ∀ s a, C s a → D s a) {s : σ} {as : List α}
    (h : Along step C s as) : Along step D s as := by
  induction as generalizing s with
  | nil => trivial
  | cons a as ih => exact ⟨hCD s a h.1, fun t ht ↦ ih (h.2 t ht)⟩

/-- Where the condition is one on labels, every label of a completed run has to meet it. -/
theorem along_iff_forall {C : α → Prop} {s t : σ} {as : List α} (hrun : run step s as = some t) :
    Along step (fun _ a ↦ C a) s as ↔ ∀ a ∈ as, C a := by
  induction as generalizing s with
  | nil => exact iff_of_true trivial fun a ha ↦ absurd ha List.not_mem_nil
  | cons a as ih =>
    obtain ⟨u, hu, htail⟩ := run_cons_eq_some.mp hrun
    rw [List.forall_mem_cons, ← ih htail]
    refine and_congr_right fun _ ↦ ⟨fun h ↦ h u hu, fun h v hv ↦ ?_⟩
    obtain rfl : u = v := Option.some_inj.mp (hu.symm.trans hv)
    exact h

/-! ## Invariants -/

/-- **Invariants along guarded runs.** What every step meeting `C` preserves holds in each state
that a run of such steps reaches. -/
theorem invariant_of_along {C : σ → α → Prop} {I : σ → Prop}
    (hstep : ∀ s a t, I s → C s a → step s a = some t → I t) :
    ∀ {as : List α} {s t : σ}, I s → Along step C s as → run step s as = some t → I t := by
  intro as
  induction as with
  | nil =>
    intro s t hs _ hrun
    rw [run_nil, Option.some_inj] at hrun
    exact hrun ▸ hs
  | cons a as ih =>
    intro s t hs halong hrun
    obtain ⟨u, hu, hrun⟩ := run_cons_eq_some.mp hrun
    exact ih (hstep s a u hs halong.1 hu) (halong.2 u hu) hrun

theorem invariant_of_run {I : σ → Prop} (hstep : ∀ s a t, I s → step s a = some t → I t)
    {as : List α} {s t : σ} (hs : I s) (hrun : run step s as = some t) : I t :=
  invariant_of_along (C := fun _ _ ↦ True) (fun s a t hs _ ↦ hstep s a t hs) hs
    (along_true s as) hrun

/-- **What holds throughout a run.** Suppose that from a state with `I` the steps that meet `C`
lead to states with `I`, and all others to states without `P`. Then `P` holds in each state of the
run if and only if every step of it meets `C`. -/
theorem throughout_iff_along {C : σ → α → Prop} {I P : σ → Prop} (hP : ∀ s, I s → P s)
    (hstep : ∀ s a t, I s → step s a = some t → (C s a → I t) ∧ (P t → C s a)) :
    ∀ {as : List α} {s t : σ}, I s → run step s as = some t →
      ((∀ done u, done <+: as → run step s done = some u → P u) ↔ Along step C s as) := by
  intro as
  induction as with
  | nil =>
    intro s t hs _
    refine iff_of_true (fun done u hdone hu ↦ ?_) trivial
    rw [List.prefix_nil.mp hdone, run_nil, Option.some_inj] at hu
    exact hu ▸ hP s hs
  | cons a as ih =>
    intro s t hs hrun
    obtain ⟨v, hv, htail⟩ := run_cons_eq_some.mp hrun
    obtain ⟨hkeep, hback⟩ := hstep s a v hs hv
    constructor
    · intro hall
      -- the state after this step tells whether it met the condition
      have hC : C s a := hback (hall [a] v (List.prefix_append [a] as) (run_cons_of hv (run_nil v)))
      refine ⟨hC, fun w hw ↦ ?_⟩
      obtain rfl : v = w := Option.some_inj.mp (hv.symm.trans hw)
      refine (ih (hkeep hC) htail).mp fun done u hdone hu ↦ ?_
      exact hall (a :: done) u (List.prefix_cons_inj a |>.mpr hdone) (run_cons_of hv hu)
    · rintro ⟨hC, hrest⟩ done u hdone hu
      cases done with
      | nil =>
        rw [run_nil, Option.some_inj] at hu
        exact hu ▸ hP s hs
      | cons b done =>
        obtain ⟨rfl, hdone'⟩ := List.cons_prefix_cons.mp hdone
        obtain ⟨w, hw, hu⟩ := run_cons_eq_some.mp hu
        obtain rfl : v = w := Option.some_inj.mp (hv.symm.trans hw)
        exact (ih (hkeep hC) htail).mpr (hrest v hv) done u hdone' hu

/-- **Runs come to an end** where every step meeting `C` uses something up. -/
theorem length_add_le_of_along {C : σ → α → Prop} {I : σ → Prop} {μ : σ → ℕ}
    (hI : ∀ s a t, I s → step s a = some t → I t)
    (hμ : ∀ s a t, I s → C s a → step s a = some t → μ t < μ s) :
    ∀ {as : List α} {s t : σ}, I s → Along step C s as → run step s as = some t →
      as.length + μ t ≤ μ s := by
  intro as
  induction as with
  | nil =>
    intro s t _ _ hrun
    obtain rfl : s = t := Option.some_inj.mp hrun
    exact Nat.le_of_eq (Nat.zero_add (μ s))
  | cons a as ih =>
    intro s t hs halong hrun
    obtain ⟨u, hu, htail⟩ := run_cons_eq_some.mp hrun
    have hrest := ih (hI s a u hs hu) (halong.2 u hu) htail
    have hstep := hμ s a u hs halong.1 hu
    rw [List.length_cons]
    omega

theorem length_add_le_of_decreasing {I : σ → Prop} {μ : σ → ℕ}
    (hI : ∀ s a t, I s → step s a = some t → I t)
    (hμ : ∀ s a t, I s → step s a = some t → μ t < μ s) {as : List α} {s t : σ} (hs : I s)
    (hrun : run step s as = some t) : as.length + μ t ≤ μ s :=
  length_add_le_of_along (C := fun _ _ ↦ True) hI (fun s a t hs _ ↦ hμ s a t hs) hs
    (along_true s as) hrun

/-- **What has happened since.** Suppose that a step leads to a state with `P` if and only if it is
one that brings `P` about, or is one that keeps it and comes from a state with `P`. Then `P` holds
after a run if and only if it held before and every step kept it, or some step brought it about and
every step since has kept it. -/
theorem holds_iff_since {C D K : σ → α → Prop} {I P : σ → Prop}
    (hI : ∀ s a t, I s → C s a → step s a = some t → I t)
    (hP : ∀ s a t, I s → C s a → step s a = some t → (P t ↔ D s a ∨ P s ∧ K s a)) :
    ∀ {as : List α} {s t : σ}, I s → Along step C s as → run step s as = some t →
      (P t ↔ P s ∧ Along step K s as ∨ ∃ done a rest u v, as = done ++ a :: rest ∧
        run step s done = some u ∧ D u a ∧ step u a = some v ∧ Along step K v rest) := by
  intro as
  induction as with
  | nil =>
    intro s t _ _ hrun
    obtain rfl : s = t := Option.some_inj.mp hrun
    constructor
    · exact fun h ↦ Or.inl ⟨h, trivial⟩
    · rintro (⟨h, -⟩ | ⟨done, a, rest, u, v, hnil, -⟩)
      · exact h
      · exact absurd hnil.symm (List.append_ne_nil_of_right_ne_nil done (List.cons_ne_nil a rest))
  | cons a as ih =>
    intro s t hs halong hrun
    obtain ⟨u, hu, htail⟩ := run_cons_eq_some.mp hrun
    have huniq : ∀ {v}, step s a = some v → u = v := fun h ↦ Option.some_inj.mp (hu.symm.trans h)
    rw [ih (hI s a u hs halong.1 hu) (halong.2 u hu) htail, hP s a u hs halong.1 hu]
    constructor
    · rintro (⟨hD | ⟨hPs, hK⟩, hkept⟩ | ⟨done, b, rest, v, w, rfl, hv, hD, hw, hkept⟩)
      · exact Or.inr ⟨[], a, as, s, u, rfl, rfl, hD, hu, hkept⟩
      · exact Or.inl ⟨hPs, hK, fun v hv ↦ huniq hv ▸ hkept⟩
      · exact Or.inr ⟨a :: done, b, rest, v, w, rfl, run_cons_of hu hv, hD, hw, hkept⟩
    · rintro (⟨hPs, hK, hkept⟩ | ⟨done, b, rest, v, w, has, hv, hD, hw, hkept⟩)
      · exact Or.inl ⟨Or.inr ⟨hPs, hK⟩, hkept u hu⟩
      · cases done with
        | nil =>
          obtain ⟨rfl, rfl⟩ := List.cons.inj has
          obtain rfl : s = v := Option.some_inj.mp hv
          exact Or.inl ⟨Or.inl hD, huniq hw ▸ hkept⟩
        | cons c done =>
          obtain ⟨rfl, rfl⟩ := List.cons.inj has
          obtain ⟨x, hx, hv⟩ := run_cons_eq_some.mp hv
          obtain rfl := huniq hx
          exact Or.inr ⟨done, b, rest, v, w, rfl, hv, hD, hw, hkept⟩

/-- Where nothing can bring `P` about any more, it holds as long as every step keeps it. -/
theorem holds_iff_along {K : σ → α → Prop} {I P : σ → Prop}
    (hI : ∀ s a t, I s → step s a = some t → I t)
    (hP : ∀ s a t, I s → step s a = some t → (P t ↔ P s ∧ K s a)) {as : List α} {s t : σ}
    (hs : I s) (hrun : run step s as = some t) : P t ↔ P s ∧ Along step K s as := by
  refine (holds_iff_since (C := fun _ _ ↦ True) (D := fun _ _ ↦ False)
    (fun s a t hs _ ↦ hI s a t hs) (fun s a t hs _ hst ↦ ?_) hs (along_true s as) hrun).trans
    (or_iff_left ?_)
  · rw [hP s a t hs hst, false_or]
  · rintro ⟨done, a, rest, u, v, -, -, hD, -⟩
    exact hD

end

/-! ## Logs -/

section

variable {step : σ → α → Option σ} {log : σ → List β}

/-- What each label adds to a log, a run adds in the order of its labels. -/
theorem log_of_run {f : α → List β} (hstep : ∀ s a t, step s a = some t → log t = log s ++ f a) :
    ∀ {as : List α} {s t : σ}, run step s as = some t → log t = log s ++ as.flatMap f := by
  intro as
  induction as with
  | nil =>
    intro s t hrun
    obtain rfl : s = t := Option.some_inj.mp hrun
    exact (List.append_nil _).symm
  | cons a as ih =>
    intro s t hrun
    obtain ⟨u, hu, htail⟩ := run_cons_eq_some.mp hrun
    rw [ih htail, hstep s a u hu, List.flatMap_cons, List.append_assoc]

theorem log_prefix_of_run (hstep : ∀ s a t, step s a = some t → log s <+: log t) {as : List α}
    {s t : σ} (hrun : run step s as = some t) : log s <+: log t :=
  invariant_of_run (I := fun u ↦ log s <+: log u) (fun u a v hu hv ↦ hu.trans (hstep u a v hv))
    (List.prefix_refl _) hrun

/-- **No entry of a log is skipped.** Where a step adds at most one entry, each prefix of the log
was the log at some time. -/
theorem exists_run_of_log_prefix
    (hstep : ∀ s a t, step s a = some t → log t = log s ∨ ∃ b, log t = log s ++ [b]) :
    ∀ {as : List α} {s t : σ} {w : List β}, run step s as = some t → log s <+: w → w <+: log t →
      ∃ done u, done <+: as ∧ run step s done = some u ∧ log u = w := by
  have hgrows : ∀ s a t, step s a = some t → log s <+: log t := by
    intro s a t ht
    rcases hstep s a t ht with h | ⟨b, h⟩
    · exact ⟨[], by rw [h, List.append_nil]⟩
    · exact ⟨[b], h.symm⟩
  intro as
  induction as with
  | nil =>
    intro s t w hrun hs ht
    obtain rfl : s = t := Option.some_inj.mp hrun
    exact ⟨[], s, List.prefix_refl _, rfl, hs.eq_of_length_le ht.length_le⟩
  | cons a as ih =>
    intro s t w hrun hs ht
    obtain ⟨u, hu, htail⟩ := run_cons_eq_some.mp hrun
    by_cases huw : (log u).length ≤ w.length
    · have hpre := List.prefix_of_prefix_length_le (log_prefix_of_run hgrows htail) ht huw
      obtain ⟨done, v, hdone, hv, hw⟩ := ih htail hpre ht
      exact ⟨a :: done, v, (List.prefix_cons_inj a).mpr hdone, run_cons_of hu hv, hw⟩
    · -- the step goes past `w`, so `w` is what was there before
      refine ⟨[], s, List.nil_prefix, rfl, hs.eq_of_length_le ?_⟩
      rcases hstep s a u hu with h | ⟨b, h⟩
      · rw [h] at huw
        omega
      · rw [h, List.length_append, List.length_singleton] at huw
        omega

end

/-! ## Turns -/

/-- **Steps in a fixed order.** Where a clock counts the steps that take turns, and each of them can
be taken only at the time that is its own, a run takes them one after the other. -/
theorem turns_of_clock {step : σ → α → Option σ} {I : σ → Prop} (turn : α → Option β)
    (clock : σ → ℕ) (place : ℕ → β) (hI : ∀ s a t, I s → step s a = some t → I t)
    (hturn : ∀ s a t, I s → step s a = some t →
      turn a = none ∧ clock t = clock s ∨ turn a = some (place (clock s)) ∧ clock t = clock s + 1) :
    ∀ {as : List α} {s t : σ}, I s → run step s as = some t →
      as.filterMap turn = (List.range' (clock s) (as.filterMap turn).length).map place ∧
        clock t = clock s + (as.filterMap turn).length := by
  intro as
  induction as with
  | nil =>
    intro s t _ hrun
    obtain rfl : s = t := Option.some_inj.mp hrun
    exact ⟨rfl, rfl⟩
  | cons a as ih =>
    intro s t hs hrun
    obtain ⟨u, hu, htail⟩ := run_cons_eq_some.mp hrun
    obtain ⟨hrest, hclock⟩ := ih (hI s a u hs hu) htail
    rcases hturn s a u hs hu with ⟨ha, hcu⟩ | ⟨ha, hcu⟩
    · rw [List.filterMap_cons_none ha, ← hcu]
      exact ⟨hrest, hclock⟩
    · rw [List.filterMap_cons_some ha, List.length_cons, List.range'_succ, List.map_cons, ← hcu,
        ← hrest]
      exact ⟨rfl, by rw [hclock, hcu]; omega⟩

/-! ## Runs with outputs -/

/-- A run of a step function that also answers: the last state and the answers in order. -/
def trace (step : σ → α → Option (σ × β)) : σ → List α → Option (σ × List β)
  | s, [] => some (s, [])
  | s, a :: as => (step s a).bind fun p ↦ (trace step p.1 as).map fun q ↦ (q.1, p.2 :: q.2)

@[simp] theorem trace_nil (step : σ → α → Option (σ × β)) (s : σ) :
    trace step s [] = some (s, []) := rfl

theorem trace_cons_eq_some {step : σ → α → Option (σ × β)} {s t : σ} {a : α} {as : List α}
    {bs : List β} : trace step s (a :: as) = some (t, bs) ↔
      ∃ u b cs, step s a = some (u, b) ∧ trace step u as = some (t, cs) ∧ bs = b :: cs := by
  simp only [trace, Option.bind_eq_some_iff, Option.map_eq_some_iff, Prod.exists, Prod.mk.injEq]
  constructor
  · rintro ⟨u, b, hu, t', cs, hcs, rfl, rfl⟩
    exact ⟨u, b, cs, hu, hcs, rfl⟩
  · rintro ⟨u, b, cs, hu, hcs, rfl⟩
    exact ⟨u, b, hu, t, cs, hcs, rfl, rfl⟩

theorem trace_append_eq_some {step : σ → α → Option (σ × β)} {s t : σ} {as as' : List α}
    {bs : List β} : trace step s (as ++ as') = some (t, bs) ↔
      ∃ u cs cs', trace step s as = some (u, cs) ∧ trace step u as' = some (t, cs') ∧
        bs = cs ++ cs' := by
  induction as generalizing s bs with
  | nil =>
    constructor
    · exact fun h ↦ ⟨s, [], bs, rfl, h, rfl⟩
    · rintro ⟨u, cs, cs', hu, h, rfl⟩
      rw [trace_nil, Option.some_inj, Prod.mk.injEq] at hu
      obtain ⟨rfl, rfl⟩ := hu
      exact h
  | cons a as ih =>
    rw [List.cons_append, trace_cons_eq_some]
    constructor
    · rintro ⟨v, b, ds, hv, htail, rfl⟩
      obtain ⟨u, cs, cs', hcs, hcs', rfl⟩ := ih.mp htail
      exact ⟨u, b :: cs, cs', trace_cons_eq_some.mpr ⟨v, b, cs, hv, hcs, rfl⟩, hcs', rfl⟩
    · rintro ⟨u, cs, cs', hcs, hcs', rfl⟩
      obtain ⟨v, b, ds, hv, hds, rfl⟩ := trace_cons_eq_some.mp hcs
      exact ⟨v, b, ds ++ cs', hv, ih.mpr ⟨u, ds, cs', hds, hcs', rfl⟩, rfl⟩

/-- **Refinement of runs.** Where the abstract machine can take its step, the concrete one takes
a matching step with the same answer; so every abstract run is a concrete run with the same
answers. -/
theorem exists_trace_of_refines {cstep : σ → α → Option (σ × β)} {astep : τ → α → Option (τ × β)}
    (R : σ → τ → Prop)
    (hsim : ∀ s u a u' b, R s u → astep u a = some (u', b) →
      ∃ s', cstep s a = some (s', b) ∧ R s' u') :
    ∀ {as : List α} {s : σ} {u u' : τ} {bs : List β}, R s u → trace astep u as = some (u', bs) →
      ∃ s', trace cstep s as = some (s', bs) ∧ R s' u' := by
  intro as
  induction as with
  | nil =>
    intro s u u' bs hR htrace
    rw [trace_nil, Option.some_inj, Prod.mk.injEq] at htrace
    obtain ⟨rfl, rfl⟩ := htrace
    exact ⟨s, rfl, hR⟩
  | cons a as ih =>
    intro s u u' bs hR htrace
    obtain ⟨v, b, cs, hv, hcs, rfl⟩ := trace_cons_eq_some.mp htrace
    obtain ⟨s₁, hs₁, hR₁⟩ := hsim s u a v b hR hv
    obtain ⟨s', hs', hR'⟩ := ih hR₁ hcs
    exact ⟨s', trace_cons_eq_some.mpr ⟨s₁, b, cs, hs₁, hs', rfl⟩, hR'⟩

end Transition

end CodeOnLinux
