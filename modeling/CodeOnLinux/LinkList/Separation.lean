import CodeOnLinux.LinkList.Sequence

/-!
# Several lists over one pool of nodes

The records belong to the user, and a record that was taken off one list may be put on another. An
insertion or a removal writes the manager it is called on, the `next` of the record that is moved
and the `next` of at most one other record of the same list (`Frame`). So the lists of a family of
managers keep to their own operations, as long as a record is inserted only while it is in no list:
the memory then always represents a `Shelf`, one sequence for each manager, no record twice.

## Frames

`Frame` names what a call may write, and `perform_spec` proves for each operation at once that it
does what the sequence does and writes no more. For another list it then does not matter what the
call has done: its chain and its counter lie outside the frame (`Represents`). So a run is taken
apart into the calls on each manager (`ownEdits`), as if there were no others (`lists_separate`).
-/

namespace CodeOnLinux

namespace LinkList

open Chain

variable {ι μ ν : Type}

/-! ## Edits -/

/-- A call that changes a list. -/
inductive Edit (ν : Type)
  | addNode (data : ν)
  | pushBack (data : ν)
  | delNode (pos : ℤ)
  | pop

/-- What the call does to the sequence. -/
def Edit.apply (l : List ν) : Edit ν → List ν
  | .addNode n => n :: l
  | .pushBack n => l ++ [n]
  | .delNode pos => l.eraseIdx (pos.toNat - 1)
  | .pop => l.dropLast

/-- The record that the call inserts or removes. -/
def Edit.moved (l : List ν) : Edit ν → Option ν
  | .addNode n => some n
  | .pushBack n => some n
  | .delNode pos => l[pos.toNat - 1]?
  | .pop => l.getLast?

/-- One sequence for each manager. -/
abbrev Shelf (ι ν : Type) := ι → List ν

/-- What the caller has to see to: a record that is inserted is in no list, and a removal meets a
record. -/
def Edit.Valid (s : Shelf ι ν) (i : ι) : Edit ν → Prop
  | .addNode n => ∀ j, n ∉ s j
  | .pushBack n => ∀ j, n ∉ s j
  | .delNode pos => 1 ≤ pos ∧ pos ≤ (s i).length
  | .pop => s i ≠ []

/-- `size` can count one more. -/
def Edit.HasRoom (l : List ν) : Edit ν → Prop
  | .addNode _ => (l.length : ℤ) < intMax
  | .pushBack _ => (l.length : ℤ) < intMax
  | .delNode _ => True
  | .pop => True

section

variable [DecidableEq ι]

def Shelf.edit (s : Shelf ι ν) (i : ι) (e : Edit ν) : Shelf ι ν :=
  Function.update s i (e.apply (s i))

/-- The shelf after a sequence of calls, each on one of the managers. -/
def Shelf.edits (s : Shelf ι ν) : List (ι × Edit ν) → Shelf ι ν
  | [] => s
  | (i, e) :: calls => (s.edit i e).edits calls

/-- Each call is valid when its turn comes. -/
def Shelf.Valid (s : Shelf ι ν) : List (ι × Edit ν) → Prop
  | [] => True
  | (i, e) :: calls => e.Valid s i ∧ (s.edit i e).Valid calls

/-- When its turn comes, each call finds room in the counter. -/
def Shelf.HasRoom (s : Shelf ι ν) : List (ι × Edit ν) → Prop
  | [] => True
  | (i, e) :: calls => e.HasRoom (s i) ∧ (s.edit i e).HasRoom calls

/-- The calls on one manager, alone. -/
def ownEdits (i : ι) (calls : List (ι × Edit ν)) : List (Edit ν) :=
  (calls.filter (·.1 = i)).map Prod.snd

/-- Each sequence is what the calls on its own manager make of it. -/
theorem Shelf.edits_eq_own (s : Shelf ι ν) (calls : List (ι × Edit ν)) (i : ι) :
    s.edits calls i = (ownEdits i calls).foldl Edit.apply (s i) := by
  induction calls generalizing s with
  | nil => rfl
  | cons call calls ih =>
    obtain ⟨j, e⟩ := call
    rw [Shelf.edits, ih]
    by_cases hji : j = i
    · subst hji
      have hown : ownEdits j ((j, e) :: calls) = e :: ownEdits j calls := by simp [ownEdits]
      rw [hown, List.foldl_cons, Shelf.edit, Function.update_self]
    · have hown : ownEdits i ((j, e) :: calls) = ownEdits i calls := by simp [ownEdits, hji]
      rw [hown, Shelf.edit, Function.update_of_ne (Ne.symm hji)]

end

/-! ## What one call touches -/

/-- `h'` differs from `h` at most in the manager `lm`, in the `next` of the record that was moved
and in the `next` of two records of the list. -/
structure Frame (h h' : Heap μ ν) (lm : μ) (l : List ν) (moved : Option ν) : Prop where
  /-- The payloads are the same. -/
  payload : h'.payload = h.payload
  /-- Other managers have their counters. -/
  size : ∀ lm', lm' ≠ lm → h'.size lm' = h.size lm'
  /-- Other cells have their links. -/
  next : ∃ near : List ν, near.length ≤ 2 ∧ (∀ n ∈ near, n ∈ l) ∧
    ∀ c, c ≠ .head lm → (∀ n ∈ near, c ≠ .data n) → (∀ n ∈ moved, c ≠ .data n) →
      h'.next c = h.next c

/-- The cells that a call on `lm` may write. -/
def Writable (lm : μ) (near : List ν) (moved : Option ν) (c : Cell μ ν) : Prop :=
  c = .head lm ∨ (∃ n ∈ near, c = .data n) ∨ ∃ n ∈ moved, c = .data n

/-- Before any position of the list stands the manager's own node or a record of the list. -/
theorem writable_getLastD (lm : μ) (l : List ν) (moved : Option ν) :
    ∃ near : List ν, near.length ≤ 2 ∧ (∀ n ∈ near, n ∈ l) ∧
      Writable lm near moved ((l.map .data).getLastD (.head lm)) := by
  rcases List.mem_cons.mp (getLastD_mem_cons (Cell.head lm) (l.map .data)) with hhead | hdata
  · exact ⟨[], Nat.zero_le 2, fun n hn ↦ absurd hn List.not_mem_nil, Or.inl hhead⟩
  · obtain ⟨n, hn, hcell⟩ := List.mem_map.mp hdata
    refine ⟨[n], Nat.le_succ 1, fun n' hn' ↦ ?_, Or.inr (Or.inl ⟨n, List.mem_singleton_self n, ?_⟩)⟩
    · rw [List.mem_singleton.mp hn']
      exact hn
    · exact hcell.symm

section

variable [DecidableEq μ] [DecidableEq ν]

/-- Each call stores two pointers and the counter. -/
theorem frame_of_stores (h : Heap μ ν) {lm : μ} {l near : List ν} {moved : Option ν}
    (hshort : near.length ≤ 2) (hnear : ∀ n ∈ near, n ∈ l) {c₁ c₂ : Cell μ ν}
    (h₁ : Writable lm near moved c₁) (h₂ : Writable lm near moved c₂) (p₁ p₂ : PNode μ ν) (k : ℤ) :
    Frame h (((h.setNext c₁ p₁).setNext c₂ p₂).setSize lm k) lm l moved := by
  have hne : ∀ {c c' : Cell μ ν}, Writable lm near moved c → c' ≠ .head lm →
      (∀ n ∈ near, c' ≠ .data n) → (∀ n ∈ moved, c' ≠ .data n) → c' ≠ c := by
    intro c c' hc hhead hnear hmoved he
    rcases hc with hc | ⟨n, hn, hc⟩ | ⟨n, hn, hc⟩
    · exact hhead (he.trans hc)
    · exact hnear n hn (he.trans hc)
    · exact hmoved n hn (he.trans hc)
  refine ⟨rfl, fun lm' hlm ↦ ?_, near, hshort, hnear, fun c hhead hnear hmoved ↦ ?_⟩
  · rw [Heap.setSize_size, Function.update_of_ne hlm, Heap.setNext_size, Heap.setNext_size]
  · rw [Heap.setSize_next, Heap.setNext_next, Heap.setNext_next,
      Function.update_of_ne (hne h₂ hhead hnear hmoved),
      Function.update_of_ne (hne h₁ hhead hnear hmoved)]

end

/-- A list that has none of the records touched is not disturbed. -/
theorem Frame.rep {h h' : Heap μ ν} {lm lm' : μ} {l l' : List ν} {moved : Option ν}
    (hframe : Frame h h' lm l moved) (hne : lm' ≠ lm) (hrep : Rep h lm' l')
    (hdisj : ∀ n ∈ l', n ∉ l ∧ n ∉ moved) : Rep h' lm' l' := by
  obtain ⟨near, -, hnear, hnext⟩ := hframe.next
  have hhead : h'.next (.head lm') = h.next (.head lm') := by
    refine hnext _ (fun he ↦ hne (Cell.head.inj he)) (fun n _ he ↦ ?_) fun n _ he ↦ ?_
    · cases he
    · cases he
  refine ⟨?_, (hframe.size lm' hne).trans hrep.size_eq⟩
  rw [hhead]
  refine hrep.linked.congr fun c hc ↦ ?_
  obtain ⟨n, hn, rfl⟩ := List.mem_map.mp hc
  refine hnext _ (fun he ↦ ?_) (fun m hm he ↦ ?_) fun m hm he ↦ ?_
  · cases he
  · exact (hdisj n hn).1 (data_injective he ▸ hnear m hm)
  · exact (hdisj n hn).2 (data_injective he ▸ hm)

/-! ## One call -/

section

variable [DecidableEq μ] [DecidableEq ν]

/-- The call in the memory. -/
def perform (h : Heap μ ν) (lm : μ) : Edit ν → Checked (Heap μ ν)
  | .addNode n => addNode h (some lm) (some n)
  | .pushBack n => pushBack h (some lm) (some n)
  | .delNode pos => delNode h (some lm) pos
  | .pop => pop h (some lm)

theorem perform_addNode {h : Heap μ ν} {lm : μ} {l : List ν} (hrep : Rep h lm l) {n : ν}
    (hn : n ∉ l) (hroom : (l.length : ℤ) < intMax) :
    ∃ h', perform h lm (.addNode n) = .ok h' ∧ Rep h' lm (n :: l) ∧ Frame h h' lm l (some n) := by
  have hshort : ([] : List ν).length ≤ 2 := Nat.zero_le 2
  refine ⟨_, addNode_eq hrep hroom n, hrep.push hn, ?_⟩
  exact frame_of_stores h hshort (fun m hm ↦ absurd hm List.not_mem_nil)
    (Or.inr (Or.inr ⟨n, rfl, rfl⟩)) (Or.inl rfl) _ _ _

theorem perform_pushBack {h : Heap μ ν} {lm : μ} {l : List ν} (hrep : Rep h lm l) {n : ν}
    (hn : n ∉ l) (hroom : (l.length : ℤ) < intMax) :
    ∃ h', perform h lm (.pushBack n) = .ok h' ∧ Rep h' lm (l ++ [n]) ∧
      Frame h h' lm l (some n) := by
  obtain ⟨near, hshort, hnear, hwritable⟩ := writable_getLastD lm l (some n)
  refine ⟨_, pushBack_eq hrep hroom n, hrep.snoc hn, ?_⟩
  exact frame_of_stores h hshort hnear hwritable (Or.inr (Or.inr ⟨n, rfl, rfl⟩)) _ _ _

/-- Both removals, at a position around which the list is split. -/
theorem delNode_frame {h : Heap μ ν} {lm : μ} {l₁ l₂ : List ν} {a : ν}
    (hrep : Rep h lm (l₁ ++ a :: l₂)) (hbounded : ((l₁ ++ a :: l₂).length : ℤ) ≤ intMax) :
    ∃ h', delNode h (some lm) (l₁.length + 1) = .ok h' ∧ Rep h' lm (l₁ ++ l₂) ∧
      Frame h h' lm (l₁ ++ a :: l₂) (some a) := by
  obtain ⟨near, hshort, hnear, hwritable⟩ := writable_getLastD lm l₁ (some a)
  refine ⟨_, delNode_eq hrep hbounded, hrep.remove, ?_⟩
  exact frame_of_stores h hshort (fun n hn ↦ List.mem_append_left _ (hnear n hn)) hwritable
    (Or.inr (Or.inr ⟨a, rfl, rfl⟩)) _ _ _

theorem perform_delNode {h : Heap μ ν} {lm : μ} {l : List ν} (hrep : Rep h lm l)
    (hbounded : (l.length : ℤ) ≤ intMax) {pos : ℤ} (hpos : 1 ≤ pos) (hle : pos ≤ l.length) :
    ∃ h', perform h lm (.delNode pos) = .ok h' ∧ Rep h' lm (l.eraseIdx (pos.toNat - 1)) ∧
      Frame h h' lm l l[pos.toNat - 1]? := by
  have hlt : pos.toNat - 1 < l.length := by omega
  have hsplit : l = l.take (pos.toNat - 1) ++ l[pos.toNat - 1] :: l.drop (pos.toNat - 1 + 1) := by
    rw [List.getElem_cons_drop, List.take_append_drop]
  have hposeq : ((l.take (pos.toNat - 1)).length : ℤ) + 1 = pos := by
    rw [List.length_take, min_eq_left hlt.le]
    omega
  obtain ⟨h', hdel, hrep', hframe⟩ := delNode_frame (hsplit ▸ hrep) (hsplit ▸ hbounded)
  rw [hposeq] at hdel
  rw [← hsplit] at hframe
  rw [List.eraseIdx_eq_take_drop_succ, List.getElem?_eq_getElem hlt]
  exact ⟨h', hdel, hrep', hframe⟩

theorem perform_pop {h : Heap μ ν} {lm : μ} {l : List ν} (hrep : Rep h lm l)
    (hbounded : (l.length : ℤ) ≤ intMax) (hne : l ≠ []) :
    ∃ h', perform h lm .pop = .ok h' ∧ Rep h' lm l.dropLast ∧ Frame h h' lm l l.getLast? := by
  have hsplit : l = l.dropLast ++ l.getLast hne :: [] := (List.dropLast_append_getLast hne).symm
  have hlen : (l.dropLast.length : ℤ) + 1 = h.size lm := by
    rw [hrep.size_eq]
    conv_rhs => rw [hsplit, List.length_append, List.length_singleton]
    push_cast
    rfl
  obtain ⟨h', hdel, hrep', hframe⟩ := delNode_frame (hsplit ▸ hrep) (hsplit ▸ hbounded)
  rw [hlen] at hdel
  rw [← hsplit] at hframe
  rw [List.append_nil] at hrep'
  rw [List.getLast?_eq_getLast_of_ne_nil hne]
  exact ⟨h', hdel, hrep', hframe⟩

/-- **One call** on a list that it is valid for. -/
theorem perform_spec {h : Heap μ ν} {s : Shelf ι ν} {i : ι} {lm : μ} {e : Edit ν}
    (hrep : Rep h lm (s i)) (hbounded : ((s i).length : ℤ) ≤ intMax) (hvalid : e.Valid s i)
    (hroom : e.HasRoom (s i)) :
    ∃ h', perform h lm e = .ok h' ∧ Rep h' lm (e.apply (s i)) ∧
      Frame h h' lm (s i) (e.moved (s i)) := by
  cases e with
  | addNode n => exact perform_addNode hrep (hvalid i) hroom
  | pushBack n => exact perform_pushBack hrep (hvalid i) hroom
  | delNode pos => exact perform_delNode hrep hbounded hvalid.1 hvalid.2
  | pop => exact perform_pop hrep hbounded hvalid

end

/-- A record of the list after the call was there before or is the one moved. -/
theorem Edit.mem_apply {l : List ν} {e : Edit ν} {n : ν} (hn : n ∈ e.apply l) :
    n ∈ l ∨ n ∈ e.moved l := by
  cases e with
  | addNode m =>
    rcases List.mem_cons.mp hn with rfl | hn
    · exact Or.inr rfl
    · exact Or.inl hn
  | pushBack m =>
    rcases List.mem_append.mp hn with hn | hn
    · exact Or.inl hn
    · exact Or.inr (congrArg some (List.mem_singleton.mp hn).symm)
  | delNode pos => exact Or.inl (List.mem_of_mem_eraseIdx hn)
  | pop => exact Or.inl (List.mem_of_mem_dropLast hn)

/-- A record that is moved stands in no other list. -/
theorem Edit.moved_notMem {s : Shelf ι ν} {i j : ι} {e : Edit ν} (hvalid : e.Valid s i)
    (hdisj : ∀ n ∈ s i, n ∉ s j) {n : ν} (hn : n ∈ e.moved (s i)) : n ∉ s j := by
  cases e with
  | addNode m => exact Option.some_inj.mp hn ▸ hvalid j
  | pushBack m => exact Option.some_inj.mp hn ▸ hvalid j
  | delNode pos => exact hdisj n (List.mem_of_getElem? hn)
  | pop => exact hdisj n (List.mem_of_getLast? hn)

theorem Edit.length_apply_le {l : List ν} {e : Edit ν} (hbounded : (l.length : ℤ) ≤ intMax)
    (hroom : e.HasRoom l) : ((e.apply l).length : ℤ) ≤ intMax := by
  cases e with
  | addNode n =>
    rw [Edit.apply, List.length_cons]
    exact_mod_cast hroom
  | pushBack n =>
    rw [Edit.apply, List.length_append, List.length_singleton]
    exact_mod_cast hroom
  | delNode pos => exact le_trans (by exact_mod_cast List.length_eraseIdx_le l _) hbounded
  | pop =>
    rw [Edit.apply, List.length_dropLast]
    omega

/-! ## Whole runs -/

/-- The memory represents the shelf: each manager its own sequence, and no record is in two. -/
structure Represents (m : ι → μ) (h : Heap μ ν) (s : Shelf ι ν) : Prop where
  /-- Each manager has its sequence. -/
  rep : ∀ i, Rep h (m i) (s i)
  /-- The counters are right. -/
  bounded : ∀ i, ((s i).length : ℤ) ≤ intMax
  /-- No record is in two sequences. -/
  disjoint : ∀ i j, i ≠ j → ∀ n ∈ s i, n ∉ s j

variable [DecidableEq ι] [DecidableEq μ] [DecidableEq ν]

theorem Represents.edit {m : ι → μ} (hm : Function.Injective m) {h : Heap μ ν} {s : Shelf ι ν}
    (hrep : Represents m h s) {i : ι} {e : Edit ν} (hvalid : e.Valid s i)
    (hroom : e.HasRoom (s i)) :
    ∃ h', perform h (m i) e = .ok h' ∧ Represents m h' (s.edit i e) ∧
      Frame h h' (m i) (s i) (e.moved (s i)) := by
  obtain ⟨h', hperform, hrep', hframe⟩ :=
    perform_spec (hrep.rep i) (hrep.bounded i) hvalid hroom
  have hself : s.edit i e i = e.apply (s i) := Function.update_self _ _ _
  have hother : ∀ j, j ≠ i → s.edit i e j = s j := fun j hj ↦ Function.update_of_ne hj _ _
  -- what the edited list holds now, no other list holds
  have hapart : ∀ j, j ≠ i → ∀ n ∈ e.apply (s i), n ∉ s j := fun j hj n hn ↦ by
    have hdisj := hrep.disjoint i j hj.symm
    rcases Edit.mem_apply hn with hn | hn
    · exact hdisj n hn
    · exact Edit.moved_notMem hvalid hdisj hn
  refine ⟨h', hperform, ⟨fun j ↦ ?_, fun j ↦ ?_, fun j k hjk n hn ↦ ?_⟩, hframe⟩
  · by_cases hj : j = i
    · subst hj
      rwa [hself]
    · rw [hother j hj]
      refine hframe.rep (fun he ↦ hj (hm he)) (hrep.rep j) fun n hn ↦ ?_
      refine ⟨hrep.disjoint j i hj n hn, fun hmoved ↦ ?_⟩
      exact Edit.moved_notMem hvalid (hrep.disjoint i j (Ne.symm hj)) hmoved hn
  · by_cases hj : j = i
    · subst hj
      rw [hself]
      exact Edit.length_apply_le (hrep.bounded j) hroom
    · rw [hother j hj]
      exact hrep.bounded j
  · by_cases hj : j = i
    · subst hj
      rw [hself] at hn
      rw [hother k (Ne.symm hjk)]
      exact hapart k (Ne.symm hjk) n hn
    · rw [hother j hj] at hn
      by_cases hk : k = i
      · subst hk
        rw [hself]
        exact fun hmem ↦ hapart j hj n hmem hn
      · rw [hother k hk]
        exact hrep.disjoint j k hjk n hn

/-- The calls in the memory, one after the other. -/
def performAll (m : ι → μ) (h : Heap μ ν) : List (ι × Edit ν) → Checked (Heap μ ν)
  | [] => .ok h
  | (i, e) :: calls => do
    let h ← perform h (m i) e
    performAll m h calls

theorem Represents.edits {m : ι → μ} (hm : Function.Injective m) {calls : List (ι × Edit ν)}
    {h : Heap μ ν} {s : Shelf ι ν} (hrep : Represents m h s) (hvalid : s.Valid calls)
    (hroom : s.HasRoom calls) :
    ∃ h', performAll m h calls = .ok h' ∧ Represents m h' (s.edits calls) ∧
      h'.payload = h.payload := by
  induction calls generalizing h s with
  | nil => exact ⟨h, rfl, hrep, rfl⟩
  | cons call calls ih =>
    obtain ⟨i, e⟩ := call
    obtain ⟨h₁, hperform, hrep₁, hframe⟩ := hrep.edit hm hvalid.1 hroom.1
    obtain ⟨h', hall, hrep', hpayload⟩ := ih hrep₁ hvalid.2 hroom.2
    refine ⟨h', ?_, hrep', hpayload.trans hframe.payload⟩
    rw [performAll, hperform, Checked.ok_bind, hall]

omit [DecidableEq μ] [DecidableEq ν] in
theorem Shelf.edits_append (s : Shelf ι ν) (calls calls' : List (ι × Edit ν)) :
    s.edits (calls ++ calls') = (s.edits calls).edits calls' := by
  induction calls generalizing s with
  | nil => rfl
  | cons call calls ih => exact ih _

omit [DecidableEq μ] [DecidableEq ν] in
theorem Shelf.valid_append {s : Shelf ι ν} {calls calls' : List (ι × Edit ν)} :
    s.Valid (calls ++ calls') ↔ s.Valid calls ∧ (s.edits calls).Valid calls' := by
  induction calls generalizing s with
  | nil => exact (and_iff_right trivial).symm
  | cons call calls ih => exact (and_congr_right' ih).trans and_assoc.symm

omit [DecidableEq μ] [DecidableEq ν] in
theorem Shelf.hasRoom_append {s : Shelf ι ν} {calls calls' : List (ι × Edit ν)} :
    s.HasRoom (calls ++ calls') ↔ s.HasRoom calls ∧ (s.edits calls).HasRoom calls' := by
  induction calls generalizing s with
  | nil => exact (and_iff_right trivial).symm
  | cons call calls ih => exact (and_congr_right' ih).trans and_assoc.symm

/-- **The lists do not disturb each other.** After any interleaving of valid calls each manager has
the sequence that the calls on it alone make, the payloads are what they were, and no call of the
run writes more than its frame. -/
theorem lists_separate {m : ι → μ} (hm : Function.Injective m) {h : Heap μ ν} {s : Shelf ι ν}
    (hrep : Represents m h s) {calls : List (ι × Edit ν)} (hvalid : s.Valid calls)
    (hroom : s.HasRoom calls) :
    (∃ h', performAll m h calls = .ok h' ∧ h'.payload = h.payload ∧
      ∀ i, Rep h' (m i) ((ownEdits i calls).foldl Edit.apply (s i))) ∧
    ∀ done i e rest, calls = done ++ (i, e) :: rest →
      ∃ h₁ h₂, performAll m h done = .ok h₁ ∧ perform h₁ (m i) e = .ok h₂ ∧
        Frame h₁ h₂ (m i) (s.edits done i) (e.moved (s.edits done i)) := by
  constructor
  · obtain ⟨h', hall, hrep', hpayload⟩ := hrep.edits hm hvalid hroom
    exact ⟨h', hall, hpayload, fun i ↦ s.edits_eq_own calls i ▸ hrep'.rep i⟩
  · rintro done i e rest rfl
    obtain ⟨hdone, hnext, -⟩ := Shelf.valid_append.mp hvalid
    obtain ⟨hdone', hnext', -⟩ := Shelf.hasRoom_append.mp hroom
    obtain ⟨h₁, hall, hrep₁, -⟩ := hrep.edits hm hdone hdone'
    obtain ⟨h₂, hperform, -, hframe⟩ := hrep₁.edit hm hnext hnext'
    exact ⟨h₁, h₂, hall, hperform, hframe⟩

/-! ## Two lists, and the limit of the counter -/

/-- Two managers after their `ListInit`. -/
def twoLists : Heap Bool ℕ :=
  ⟨fun _ ↦ none, fun _ ↦ 0, fun n ↦ [UInt8.ofNat n]⟩

theorem twoLists_represents : Represents id twoLists fun _ : Bool ↦ ([] : List ℕ) where
  rep _ := ⟨rfl, rfl⟩
  bounded _ := by simp [intMax]
  disjoint _ _ _ _ hn := absurd hn List.not_mem_nil

/-- A record moves from the one list to the other. -/
theorem lists_separate_migration :
    ∃ h', performAll id twoLists [(true, .addNode 1), (true, .pushBack 2), (false, .addNode 3),
        (true, .delNode 1), (false, .pushBack 1), (true, .pop)] = .ok h' ∧
      h'.payload = twoLists.payload ∧ Rep h' true ([] : List ℕ) ∧ Rep h' false [3, 1] := by
  have hvalid : Shelf.Valid (fun _ : Bool ↦ ([] : List ℕ)) [(true, .addNode 1), (true, .pushBack 2),
      (false, .addNode 3), (true, .delNode 1), (false, .pushBack 1), (true, .pop)] := by
    simp [Shelf.Valid, Edit.Valid, Shelf.edit, Edit.apply]
  obtain ⟨h', hall, hpayload, hrep⟩ := (lists_separate Function.injective_id twoLists_represents
    hvalid (by simp [Shelf.HasRoom, Edit.HasRoom, Shelf.edit, Edit.apply, intMax])).1
  exact ⟨h', hall, hpayload, hrep true, hrep false⟩

omit [DecidableEq ι] in
theorem performAll_append {m : ι → μ} {h h₁ : Heap μ ν} {calls calls' : List (ι × Edit ν)}
    (hcalls : performAll m h calls = .ok h₁) :
    performAll m h (calls ++ calls') = performAll m h₁ calls' := by
  induction calls generalizing h with
  | nil => rw [List.nil_append, ← Except.ok.inj hcalls]
  | cons call calls ih =>
    obtain ⟨i, e⟩ := call
    rw [performAll] at hcalls
    rw [List.cons_append, performAll]
    cases hperform : perform h (m i) e with
    | error f => rw [hperform] at hcalls; cases hcalls
    | ok h₂ =>
      rw [hperform, Checked.ok_bind] at hcalls
      rw [Checked.ok_bind, ih hcalls]

/-- At `INT_MAX` nodes the counter overflows. -/
theorem addNode_overflow {h : Heap μ ν} {lm : μ} {l : List ν} (hrep : Rep h lm l)
    (hfull : (l.length : ℤ) = intMax) (n : ν) :
    addNode h (some lm) (some n) = .error .intOverflow := by
  have hmax : ¬(intMin ≤ intMax + 1 ∧ intMax + 1 ≤ intMax) := by decide
  have hsize : h.size lm = intMax := hrep.size_eq.trans hfull
  rw [addNode_eq_addSize, Heap.addSize, Heap.setNext_size, Heap.setNext_size, hsize, checkInt,
    if_neg hmax]
  rfl

/-- The first `n` records, added to the first of two lists. -/
def fill (n : ℕ) : List (Bool × Edit ℕ) := (List.range n).map fun k ↦ (true, .addNode k)

theorem fill_succ (n : ℕ) : fill (n + 1) = fill n ++ [(true, .addNode n)] := by
  rw [fill, List.range_succ, List.map_append, ← fill]
  rfl

theorem edits_fill (n : ℕ) : Shelf.edits (fun _ ↦ []) (fill n) =
    fun i ↦ if i = true then (List.range n).reverse else [] := by
  induction n with
  | zero =>
    funext i
    exact (ite_self _).symm
  | succ n ih =>
    rw [fill_succ, Shelf.edits_append, ih]
    funext i
    cases i with
    | false => rfl
    | true =>
      rw [List.range_succ, List.reverse_append]
      rfl

theorem valid_fill (n : ℕ) : Shelf.Valid (fun _ ↦ []) (fill n) := by
  induction n with
  | zero => trivial
  | succ n ih =>
    rw [fill_succ]
    refine Shelf.valid_append.mpr ⟨ih, fun j ↦ ?_, trivial⟩
    rw [edits_fill]
    cases j <;> simp

theorem hasRoom_fill {n : ℕ} (hn : (n : ℤ) ≤ intMax) : Shelf.HasRoom (fun _ ↦ []) (fill n) := by
  induction n with
  | zero => trivial
  | succ n ih =>
    rw [Nat.cast_succ] at hn
    rw [fill_succ]
    refine Shelf.hasRoom_append.mpr ⟨ih (by omega), ?_, trivial⟩
    rw [edits_fill]
    simp only [Edit.HasRoom, if_pos, List.length_reverse, List.length_range]
    omega

/-- Valid calls alone are not enough: after `INT_MAX` of them the next `AddNode` overflows. -/
theorem lists_overflow : ¬∀ (h : Heap Bool ℕ) (s : Shelf Bool ℕ) (calls : List (Bool × Edit ℕ)),
    Represents id h s → s.Valid calls → ∃ h', performAll id h calls = .ok h' := by
  intro hseparate
  obtain ⟨n, hn⟩ : ∃ n : ℕ, (n : ℤ) = intMax := ⟨intMax.toNat, Int.toNat_of_nonneg (by decide)⟩
  obtain ⟨h', hall⟩ := hseparate twoLists _ (fill (n + 1)) twoLists_represents (valid_fill _)
  obtain ⟨h₁, hfill, hrep, -⟩ := twoLists_represents.edits Function.injective_id (valid_fill n)
    (hasRoom_fill hn.le)
  have hfull : ((Shelf.edits (fun _ ↦ []) (fill n) true).length : ℤ) = intMax := by
    rw [edits_fill]
    simpa using hn
  have hoverflow := addNode_overflow (hrep.rep true) hfull n
  have herror : performAll id h₁ [(true, .addNode n)] = .error .intOverflow := by
    rw [performAll, perform]
    exact congrArg (· >>= _) hoverflow
  rw [fill_succ, performAll_append hfill, herror] at hall
  cases hall

end LinkList

end CodeOnLinux
