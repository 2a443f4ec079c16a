import Mathlib.Data.List.Nodup
import Mathlib.Logic.Function.Basic

/-!
# Chains of `next` pointers

A singly linked structure in memory is a function `next : κ → Option κ` from cells to the pointer
they store, `none` being the null pointer. `Segment next p l q` says that following `next` from
the pointer `p` visits exactly the cells `l` and arrives at the pointer `q`; a whole list is a
segment that arrives at null.

A function has one value per cell, so a segment that reaches null cannot visit a cell twice:
acyclicity (`Linked.nodup`) is a consequence of being linked, not a further assumption. Insertion
and removal both rewrite the pointer of the last cell before the change, which is
`Segment.relink`; everything else is framing (`Segment.congr`).
-/

namespace CodeOnLinux

namespace Chain

variable {κ : Type*} {next next' : κ → Option κ}

/-- From the pointer `p`, the cells `l` are visited in order and the pointer `q` is reached. -/
def Segment (next : κ → Option κ) : Option κ → List κ → Option κ → Prop
  | p, [], q => p = q
  | p, a :: l, q => p = some a ∧ Segment next (next a) l q

/-- The cells reached from the pointer `p`, up to null, are exactly `l`. -/
def Linked (next : κ → Option κ) (p : Option κ) (l : List κ) : Prop := Segment next p l none

@[simp] theorem segment_nil {p q : Option κ} : Segment next p [] q ↔ p = q := Iff.rfl

@[simp] theorem segment_cons {p q : Option κ} {a : κ} {l : List κ} :
    Segment next p (a :: l) q ↔ p = some a ∧ Segment next (next a) l q := Iff.rfl

@[simp] theorem linked_nil {p : Option κ} : Linked next p [] ↔ p = none := Iff.rfl

@[simp] theorem linked_cons {p : Option κ} {a : κ} {l : List κ} :
    Linked next p (a :: l) ↔ p = some a ∧ Linked next (next a) l := Iff.rfl

/-- Where a cell is reached, it is the first one. -/
theorem Linked.eq_cons {a : κ} {l : List κ} (h : Linked next (some a) l) :
    ∃ l', l = a :: l' ∧ Linked next (next a) l' := by
  cases l with
  | nil => cases h
  | cons b l =>
    obtain ⟨hab, h⟩ := h
    obtain rfl := Option.some_inj.mp hab
    exact ⟨l, rfl, h⟩

theorem segment_append {p q : Option κ} {l m : List κ} :
    Segment next p (l ++ m) q ↔ ∃ r, Segment next p l r ∧ Segment next r m q := by
  induction l generalizing p with
  | nil => simp
  | cons a l ih =>
    rw [List.cons_append, segment_cons, ih]
    constructor
    · rintro ⟨rfl, r, hl, hm⟩
      exact ⟨r, ⟨rfl, hl⟩, hm⟩
    · rintro ⟨r, ⟨rfl, hl⟩, hm⟩
      exact ⟨rfl, r, hl, hm⟩

/-- Only the cells a segment visits matter to it. -/
theorem Segment.congr {p q : Option κ} {l : List κ} (h : Segment next p l q)
    (hnext : ∀ a ∈ l, next' a = next a) : Segment next' p l q := by
  induction l generalizing p with
  | nil => exact h
  | cons a l ih =>
    obtain ⟨rfl, h⟩ := h
    refine ⟨rfl, ?_⟩
    rw [hnext a List.mem_cons_self]
    exact ih h fun b hb ↦ hnext b (List.mem_cons_of_mem a hb)

theorem Linked.congr {p : Option κ} {l : List κ} (h : Linked next p l)
    (hnext : ∀ a ∈ l, next' a = next a) : Linked next' p l :=
  Segment.congr h hnext

/-! ## Acyclicity -/

theorem Linked.unique {p : Option κ} {l m : List κ} (hl : Linked next p l)
    (hm : Linked next p m) : l = m := by
  induction l generalizing p m with
  | nil =>
    cases m with
    | nil => rfl
    | cons b m => exact absurd (hl.symm.trans hm.1) (by simp)
  | cons a l ih =>
    obtain ⟨rfl, hl⟩ := hl
    obtain ⟨m', rfl, hm'⟩ := hm.eq_cons
    rw [ih hl hm']

/-- A cell is not among the cells that hang off it. -/
theorem Linked.notMem {a : κ} {l : List κ} (h : Linked next (next a) l) : a ∉ l := by
  intro ha
  obtain ⟨l₁, l₂, rfl⟩ := List.append_of_mem ha
  obtain ⟨r, -, hr⟩ := segment_append.mp h
  have hlen : l₁ ++ a :: l₂ = l₂ := Linked.unique h hr.2
  have := congrArg List.length hlen
  simp only [List.length_append, List.length_cons] at this
  omega

theorem Linked.nodup {p : Option κ} {l : List κ} (h : Linked next p l) : l.Nodup := by
  induction l generalizing p with
  | nil => exact List.nodup_nil
  | cons a l ih => exact List.nodup_cons.mpr ⟨Linked.notMem h.2, ih h.2⟩

/-- The list hanging off a cell, the cell itself included, has no repetition. -/
theorem Linked.nodup_cons {a : κ} {l : List κ} (h : Linked next (next a) l) : (a :: l).Nodup :=
  List.nodup_cons.mpr ⟨h.notMem, h.nodup⟩

/-! ## Walking and relinking -/

theorem getLastD_mem_cons (c : κ) (l : List κ) : l.getLastD c ∈ c :: l := by
  induction l generalizing c with
  | nil => exact List.mem_cons_self
  | cons a l ih =>
    rw [List.getLastD_cons]
    exact List.mem_cons_of_mem c (ih a)

/-- The last cell of a segment that hangs off `c` (`c` itself, if it is empty) points to where
the segment arrives. -/
theorem Segment.next_getLastD {c : κ} {l : List κ} {q : Option κ}
    (h : Segment next (next c) l q) : next (l.getLastD c) = q := by
  induction l generalizing c with
  | nil => exact h
  | cons a l ih =>
    rw [List.getLastD_cons]
    exact ih h.2

/-- **Relinking.** Pointing the last cell of a segment elsewhere changes where it arrives and
nothing else. -/
theorem Segment.relink [DecidableEq κ] {c : κ} {l : List κ} {q : Option κ}
    (h : Segment next (next c) l q) (hnodup : (c :: l).Nodup) (v : Option κ) :
    Segment (Function.update next (l.getLastD c) v) (Function.update next (l.getLastD c) v c) l
      v := by
  induction l generalizing c with
  | nil => exact Function.update_self c v next
  | cons a l ih =>
    obtain ⟨hc, h⟩ := h
    obtain ⟨hmem, hnodup⟩ := List.nodup_cons.mp hnodup
    have hne : c ≠ l.getLastD a := fun he ↦ hmem (he ▸ getLastD_mem_cons a l)
    rw [List.getLastD_cons]
    exact ⟨by rw [Function.update_of_ne hne, hc], ih h hnodup⟩

/-! ## Insertion and removal

Each is two pointer writes, given here as the updates a program makes; the list hangs off the
cell `c`. -/

variable [DecidableEq κ]

theorem Linked.push {a c : κ} {l : List κ} (h : Linked next (next c) l) (ha : a ∉ c :: l) :
    Linked (Function.update (Function.update next a (next c)) c (some a))
      (Function.update (Function.update next a (next c)) c (some a) c) (a :: l) := by
  rw [List.mem_cons, not_or] at ha
  refine ⟨by rw [Function.update_self], ?_⟩
  rw [Function.update_of_ne ha.1, Function.update_self]
  refine h.congr fun b hb ↦ ?_
  have hbc : b ≠ c := fun he ↦ h.notMem (he ▸ hb)
  have hba : b ≠ a := fun he ↦ ha.2 (he ▸ hb)
  rw [Function.update_of_ne hbc, Function.update_of_ne hba]

/-- A segment hanging off `c` survives a write to a cell that is neither `c` nor visited. -/
theorem Segment.update_of_notMem {a c : κ} {l : List κ} {q : Option κ}
    (h : Segment next (next c) l q) (ha : a ∉ c :: l) (v : Option κ) :
    Segment (Function.update next a v) (Function.update next a v c) l q := by
  rw [List.mem_cons, not_or] at ha
  rw [Function.update_of_ne (Ne.symm ha.1)]
  refine h.congr fun b hb ↦ ?_
  have hba : b ≠ a := fun he ↦ ha.2 (he ▸ hb)
  rw [Function.update_of_ne hba]

theorem Linked.snoc {a c : κ} {l : List κ} (h : Linked next (next c) l) (ha : a ∉ c :: l) :
    Linked (Function.update (Function.update next (l.getLastD c) (some a)) a none)
      (Function.update (Function.update next (l.getLastD c) (some a)) a none c) (l ++ [a]) := by
  have hseg := (Segment.relink h h.nodup_cons (some a)).update_of_notMem ha none
  refine segment_append.mpr ⟨some a, hseg, rfl, ?_⟩
  rw [Function.update_self, segment_nil]

theorem Linked.remove {a c : κ} {l₁ l₂ : List κ} (h : Linked next (next c) (l₁ ++ a :: l₂)) :
    Linked (Function.update (Function.update next (l₁.getLastD c) (next a)) a none)
      (Function.update (Function.update next (l₁.getLastD c) (next a)) a none c) (l₁ ++ l₂) := by
  have hnodup : (c :: l₁ ++ a :: l₂).Nodup := h.nodup_cons
  obtain ⟨hfront, hrest, hdisj⟩ := List.nodup_append.mp hnodup
  obtain ⟨r, hseg, -, htail⟩ := segment_append.mp h
  have ha : a ∉ c :: l₁ := fun hmem ↦ hdisj a hmem a List.mem_cons_self rfl
  have hseg' := (hseg.relink hfront (next a)).update_of_notMem ha none
  refine segment_append.mpr ⟨next a, hseg', htail.congr fun b hb ↦ ?_⟩
  have hba : b ≠ a := fun he ↦ (List.nodup_cons.mp hrest).1 (he ▸ hb)
  have hlast : b ≠ l₁.getLastD c := fun he ↦
    hdisj (l₁.getLastD c) (getLastD_mem_cons c l₁) b (List.mem_cons_of_mem a hb) he.symm
  rw [Function.update_of_ne hba, Function.update_of_ne hlast]

end Chain

end CodeOnLinux
