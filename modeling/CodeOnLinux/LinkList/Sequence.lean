import CodeOnLinux.Foundation.Transition
import CodeOnLinux.LinkList.Node

/-!
# The linked list refines a sequence

`Rep h lm l` ties the memory to the abstract list `l` of linked records: the chain that starts at
the manager's `head` visits exactly `l`, and the separately kept counter is its length. Two
operations navigate by that counter, so the two halves have to be preserved together; that the
chain is acyclic follows from its being linked (`Chain.Linked.nodup`).

Each operation has one lemma that computes the memory it leaves, and one that says which sequence
that memory represents. The abstract machine `Shelf.step` is the purpose of the component in its
own terms, and `list_refines_sequence` carries the correspondence over whole runs.
-/

namespace CodeOnLinux

namespace LinkList

open Chain

variable {μ ν : Type}

/-! ## The representation invariant -/

/-- The chain hanging off `lm->head` visits exactly the records `l`, and `size` counts them. -/
structure Rep (h : Heap μ ν) (lm : μ) (l : List ν) : Prop where
  /-- The chain is the sequence. -/
  linked : Linked h.next (h.next (.head lm)) (l.map .data)
  /-- The counter is its length. -/
  size_eq : h.size lm = l.length

theorem data_injective : Function.Injective (Cell.data : ν → Cell μ ν) := fun _ _ h ↦ by
  cases h
  rfl

theorem Rep.nodup {h : Heap μ ν} {lm : μ} {l : List ν} (hrep : Rep h lm l) : l.Nodup :=
  hrep.linked.nodup.of_map _

theorem data_notMem_chain {n : ν} {l : List ν} (lm : μ) (hn : n ∉ l) :
    (Cell.data n : Cell μ ν) ∉ Cell.head lm :: l.map .data := by
  rw [List.mem_cons, not_or]
  refine ⟨by simp, fun hmem ↦ ?_⟩
  obtain ⟨m, hm, hmn⟩ := List.mem_map.mp hmem
  exact hn (data_injective hmn ▸ hm)

/-- The invariant only sees the chain and the counter. -/
theorem Rep.congr {h h' : Heap μ ν} {lm : μ} {l : List ν} (hrep : Rep h lm l)
    (hnext : h'.next = h.next) (hsize : h'.size = h.size) : Rep h' lm l := by
  refine ⟨?_, ?_⟩
  · rw [hnext]
    exact hrep.linked
  · rw [hsize]
    exact hrep.size_eq

/-! ## What each function leaves in memory -/

section

variable [DecidableEq μ] [DecidableEq ν]

omit [DecidableEq μ] [DecidableEq ν] in
/-- Walking down from `stop + k` passes `k` links, whatever follows them. -/
theorem walk_segment {h : Heap μ ν} {stop : ℤ} (hstop : 0 ≤ stop) {c : Cell μ ν}
    {l : List (Cell μ ν)} {q : PNode μ ν} (hseg : Segment h.next (h.next c) l q) :
    walk h stop (some c) (stop + l.length) = .ok (some (l.getLastD c)) := by
  have hmin : intMin = -2147483648 := rfl
  induction l generalizing c with
  | nil =>
    rw [walk, if_neg (by simp [hmin]), if_pos (by simp)]
    rfl
  | cons a l ih =>
    obtain ⟨hc, hseg⟩ := hseg
    have hlen : stop + ((a :: l).length : ℤ) - 1 = stop + l.length := by
      rw [List.length_cons]
      push_cast
      ring
    rw [walk, if_neg (by rw [hmin]; omega), if_neg (by rw [List.length_cons]; push_cast; omega),
      Heap.loadNext_some, hc]
    dsimp only
    rw [if_neg (by rw [hlen, hmin]; omega), hlen, ih hseg, List.getLastD_cons]

omit [DecidableEq ν] in
theorem addSize_ok {h : Heap μ ν} {lm : μ} {d : ℤ} (hmin : intMin ≤ h.size lm + d)
    (hmax : h.size lm + d ≤ intMax) :
    h.addSize d (some lm) = .ok (h.setSize lm (h.size lm + d)) := by
  rw [Heap.addSize, checkInt_ok hmin hmax]
  rfl

theorem listInit_some (h : Heap μ ν) (lm : μ) :
    listInit h (some lm) = .ok ((h.setNext (.head lm) none).setSize lm 0, some lm) := rfl

omit [DecidableEq ν] in
/-- The counter has room for one node more. -/
theorem Rep.addSize_one {h g : Heap μ ν} {lm : μ} {l : List ν} (hrep : Rep h lm l)
    (hroom : (l.length : ℤ) + 1 ≤ intMax) (hsize : g.size = h.size) :
    g.addSize 1 (some lm) = .ok (g.setSize lm (l.length + 1)) := by
  have hmin : intMin = -2147483648 := rfl
  have hcount : g.size lm = l.length := (congrFun hsize lm).trans hrep.size_eq
  rw [addSize_ok (by omega) (by omega), hcount]

/-- The links are set first, then the node is counted. -/
theorem addNode_eq_addSize (h : Heap μ ν) (lm : μ) (n : ν) :
    addNode h (some lm) (some n) = ((h.setNext (.data n) (h.next (.head lm))).setNext
      (.head lm) (some (.data n))).addSize 1 (some lm) := by
  rw [addNode, if_neg (by simp)]
  rfl

theorem addNode_eq {h : Heap μ ν} {lm : μ} {l : List ν} (hrep : Rep h lm l)
    (hroom : (l.length : ℤ) + 1 ≤ intMax) (n : ν) :
    addNode h (some lm) (some n) =
      .ok (((h.setNext (.data n) (h.next (.head lm))).setNext (.head lm) (some (.data n))).setSize
        lm (l.length + 1)) := by
  rw [addNode_eq_addSize]
  exact hrep.addSize_one hroom rfl

omit [DecidableEq μ] [DecidableEq ν] in
/-- As many links as nodes are counted lead to the last cell. -/
theorem Rep.walk_size {h : Heap μ ν} {lm : μ} {l : List ν} (hrep : Rep h lm l) :
    walk h 0 (some (.head lm)) (h.size lm) =
      .ok (some ((l.map .data).getLastD (.head lm))) := by
  rw [hrep.size_eq, ← walk_segment (le_refl 0) hrep.linked, List.length_map, zero_add]

theorem pushBack_eq_addSize {h : Heap μ ν} {lm : μ} {l : List ν} (hrep : Rep h lm l) (n : ν) :
    pushBack h (some lm) (some n) = ((h.setNext ((l.map .data).getLastD (.head lm))
      (some (.data n))).setNext (.data n) none).addSize 1 (some lm) := by
  rw [pushBack]
  simp only [Heap.loadSize_some, headOf, Option.map_some, Checked.ok_bind, hrep.walk_size,
    Heap.storeNext_some]

theorem pushBack_eq {h : Heap μ ν} {lm : μ} {l : List ν} (hrep : Rep h lm l)
    (hroom : (l.length : ℤ) + 1 ≤ intMax) (n : ν) :
    pushBack h (some lm) (some n) =
      .ok (((h.setNext ((l.map .data).getLastD (.head lm)) (some (.data n))).setNext (.data n)
        none).setSize lm (l.length + 1)) := by
  rw [pushBack_eq_addSize hrep]
  exact hrep.addSize_one hroom rfl

/-- A position past the end is refused. -/
theorem delNode_of_gt {h : Heap μ ν} {lm : μ} {l : List ν} (hrep : Rep h lm l) {pos : ℤ}
    (hpos : (l.length : ℤ) < pos) : delNode h (some lm) pos = .ok h := by
  rw [delNode, hrep.size_eq, if_pos hpos]
  rfl

theorem delNode_eq {h : Heap μ ν} {lm : μ} {l₁ l₂ : List ν} {a : ν}
    (hrep : Rep h lm (l₁ ++ a :: l₂)) (hroom : ((l₁ ++ a :: l₂).length : ℤ) ≤ intMax) :
    delNode h (some lm) (l₁.length + 1) =
      .ok (((h.setNext ((l₁.map .data).getLastD (.head lm)) (h.next (.data a))).setNext (.data a)
        none).setSize lm (l₁ ++ l₂).length) := by
  have hmin : intMin = -2147483648 := rfl
  have hsize := hrep.size_eq
  obtain ⟨r, hseg, hr⟩ := segment_append.mp (List.map_append ▸ hrep.linked)
  obtain ⟨rfl, -⟩ := hr
  have hwalk : walk h 1 (some (.head lm)) (l₁.length + 1)
      = .ok (some ((l₁.map .data).getLastD (.head lm))) := by
    rw [← walk_segment zero_le_one hseg, List.length_map, add_comm]
  have hlen : ((l₁ ++ a :: l₂).length : ℤ) = (l₁ ++ l₂).length + 1 := by
    simp only [List.length_append, List.length_cons]
    push_cast
    ring
  rw [delNode, if_neg (by rw [hsize, hlen, List.length_append]; push_cast; omega)]
  simp only [headOf, Option.map_some, hwalk, Checked.ok_bind, Heap.loadNext_some,
    Heap.storeNext_some, hseg.next_getLastD]
  rw [addSize_ok (by simp only [Heap.setNext_size, hsize, hlen]; omega)
    (by simp only [Heap.setNext_size, hsize]; omega)]
  simp only [Heap.setNext_size, hsize, hlen]
  congr 2
  omega

/-- `Pop` is `DelNode` at the position that the counter gives. -/
theorem pop_eq_delNode (h : Heap μ ν) (lm : μ) :
    pop h (some lm) = delNode h (some lm) (h.size lm) := rfl

/-! ## Which sequence that memory represents -/

theorem listInit_rep (h : Heap μ ν) (lm : μ) :
    Rep ((h.setNext (.head lm) none).setSize lm 0) lm [] :=
  ⟨Function.update_self _ _ _, Function.update_self _ _ _⟩

theorem Rep.push {h : Heap μ ν} {lm : μ} {l : List ν} (hrep : Rep h lm l) {n : ν} (hn : n ∉ l) :
    Rep (((h.setNext (.data n) (h.next (.head lm))).setNext (.head lm) (some (.data n))).setSize
      lm (l.length + 1)) lm (n :: l) := by
  refine ⟨hrep.linked.push (data_notMem_chain lm hn), ?_⟩
  rw [Heap.setSize_size, Function.update_self, List.length_cons]
  push_cast
  rfl

theorem Rep.snoc {h : Heap μ ν} {lm : μ} {l : List ν} (hrep : Rep h lm l) {n : ν} (hn : n ∉ l) :
    Rep (((h.setNext ((l.map .data).getLastD (.head lm)) (some (.data n))).setNext (.data n)
      none).setSize lm (l.length + 1)) lm (l ++ [n]) := by
  refine ⟨?_, ?_⟩
  · rw [List.map_append]
    exact hrep.linked.snoc (data_notMem_chain lm hn)
  · rw [Heap.setSize_size, Function.update_self, List.length_append, List.length_singleton]
    push_cast
    rfl

theorem Rep.remove {h : Heap μ ν} {lm : μ} {l₁ l₂ : List ν} {a : ν}
    (hrep : Rep h lm (l₁ ++ a :: l₂)) :
    Rep (((h.setNext ((l₁.map .data).getLastD (.head lm)) (h.next (.data a))).setNext (.data a)
      none).setSize lm (l₁ ++ l₂).length) lm (l₁ ++ l₂) := by
  refine ⟨?_, Function.update_self _ _ _⟩
  have hlinked := hrep.linked
  rw [List.map_append, List.map_cons] at hlinked
  rw [List.map_append]
  exact hlinked.remove

end

/-! ## Traversal -/

/-- A callback that may do with the payloads what it likes, but does not relink nodes. -/
structure Visitor (μ ν : Type) where
  /-- What it does to the memory, called on a cell. -/
  visit : Cell μ ν → Heap μ ν → Heap μ ν
  /-- It does not relink nodes. -/
  keeps_next : ∀ c h, (visit c h).next = h.next
  /-- It does not touch the counters. -/
  keeps_size : ∀ c h, (visit c h).size = h.size

/-- The memory after the callback ran on each of the cells in turn. -/
def Visitor.visitAll (v : Visitor μ ν) (h : Heap μ ν) (cells : List (Cell μ ν)) : Heap μ ν :=
  cells.foldl (fun h c ↦ v.visit c h) h

theorem Visitor.visitAll_next (v : Visitor μ ν) (h : Heap μ ν) (cells : List (Cell μ ν)) :
    (v.visitAll h cells).next = h.next := by
  induction cells generalizing h with
  | nil => rfl
  | cons c cells ih => exact (ih (v.visit c h)).trans (v.keeps_next c h)

theorem Visitor.visitAll_size (v : Visitor μ ν) (h : Heap μ ν) (cells : List (Cell μ ν)) :
    (v.visitAll h cells).size = h.size := by
  induction cells generalizing h with
  | nil => rfl
  | cons c cells ih => exact (ih (v.visit c h)).trans (v.keeps_size c h)

/-- The loop calls the callback once on each cell of the chain, in order, and ends. -/
theorem traversalLoop_linked (v : Visitor μ ν) {h : Heap μ ν} {p : PNode μ ν}
    {cells : List (Cell μ ν)} (hlinked : Linked h.next p cells) {fuel : ℕ}
    (hfuel : cells.length ≤ fuel) :
    traversalLoop v.visit fuel h p = .ok (v.visitAll h cells, cells) := by
  induction cells generalizing h p fuel with
  | nil =>
    obtain rfl : p = none := hlinked
    cases fuel <;> rfl
  | cons c cells ih =>
    obtain ⟨rfl, hlinked⟩ := hlinked
    obtain ⟨fuel, rfl⟩ : ∃ k, fuel = k + 1 :=
      ⟨fuel - 1, by rw [List.length_cons] at hfuel; omega⟩
    -- the callback has run before `iter->next` is read, but it leaves the pointers alone
    have hnext : (v.visit c h).next = h.next := v.keeps_next c h
    have hrest : Linked (v.visit c h).next ((v.visit c h).next c) cells := by rwa [hnext]
    rw [traversalLoop, ih hrest (by simpa using hfuel)]
    rfl

theorem traversal_rep (v : Visitor μ ν) {h : Heap μ ν} {lm : μ} {l : List ν}
    (hrep : Rep h lm l) {fuel : ℕ} (hfuel : l.length ≤ fuel) :
    traversal fuel v.visit h (some lm) = .ok (v.visitAll h (l.map .data), l.map .data) :=
  traversalLoop_linked v hrep.linked (by rwa [List.length_map])

/-! ## The abstract machine -/

/-- A call on the list. -/
inductive Op (μ ν : Type)
  | addNode (data : ν)
  | pushBack (data : ν)
  | delNode (pos : ℤ)
  | pop
  | getSize
  | traversal (func : Visitor μ ν)

/-- The payloads behind a call: `Traversal` has run its callback on each element in turn, and no
other call looks at them. -/
def Op.payload (nodes : List ν) (h : Heap μ ν) : Op μ ν → ν → Bytes
  | .traversal func => (func.visitAll h (nodes.map .data)).payload
  | _ => h.payload

/-- What a call returns: the counter for `GetSize`, and for `Traversal` the calls it made. -/
inductive Answer (μ ν : Type)
  | done
  | size (n : ℤ)
  | visited (cells : List (Cell μ ν))

/-- The list as its user sees it. -/
structure Sequence (ν : Type) where
  /-- The linked records, in order. -/
  nodes : List ν
  /-- Those that were taken off and not inserted since. -/
  removed : List ν

/-- Take off the record at index `k`, if there is one. -/
def Sequence.removeAt (s : Sequence ν) (k : ℕ) : Sequence ν :=
  match s.nodes[k]? with
  | some a => ⟨s.nodes.eraseIdx k, a :: s.removed⟩
  | none => s

section

variable [DecidableEq ν]

/-- The abstract operations, with the obligations of the caller as guards. -/
def Sequence.step (s : Sequence ν) : Op μ ν → Option (Sequence ν × Answer μ ν)
  | .addNode n =>
    if n ∉ s.nodes ∧ (s.nodes.length : ℤ) + 1 < intMax then
      some (⟨n :: s.nodes, s.removed.filter (· ≠ n)⟩, .done)
    else none
  | .pushBack n =>
    if n ∉ s.nodes ∧ (s.nodes.length : ℤ) + 1 < intMax then
      some (⟨s.nodes ++ [n], s.removed.filter (· ≠ n)⟩, .done)
    else none
  | .delNode pos => if 1 ≤ pos then some (s.removeAt (pos.toNat - 1), .done) else none
  | .pop =>
    match s.nodes.getLast? with
    | some a => some (⟨s.nodes.dropLast, a :: s.removed⟩, .done)
    | none => none
  | .getSize => some (s, .size s.nodes.length)
  | .traversal _ => some (s, .visited (s.nodes.map .data))

variable [DecidableEq μ]

/-- The same calls on the memory. -/
def exec (fuel : ℕ) (lm : μ) (h : Heap μ ν) : Op μ ν → Option (Heap μ ν × Answer μ ν)
  | .addNode n => (addNode h (some lm) (some n)).toOption.map fun h ↦ (h, .done)
  | .pushBack n => (pushBack h (some lm) (some n)).toOption.map fun h ↦ (h, .done)
  | .delNode pos => (delNode h (some lm) pos).toOption.map fun h ↦ (h, .done)
  | .pop => (pop h (some lm)).toOption.map fun h ↦ (h, .done)
  | .getSize => some (h, .size (getSize h (some lm)))
  | .traversal func =>
    (traversal fuel func.visit h (some lm)).toOption.map fun r ↦ (r.1, .visited r.2)

end

/-! ## The refinement -/

/-- The memory `h` and the sequence `s` describe the same list. -/
structure Tracks (lm : μ) (h : Heap μ ν) (s : Sequence ν) : Prop where
  /-- The chain and the counter are those of the sequence. -/
  rep : Rep h lm s.nodes
  /-- The counter has room. -/
  bounded : (s.nodes.length : ℤ) < intMax
  /-- A record that was taken off has a null `next`. -/
  unlinked : ∀ n ∈ s.removed, n ∉ s.nodes ∧ h.next (.data n) = none

theorem Tracks.congr {lm : μ} {h h' : Heap μ ν} {s : Sequence ν} (htrack : Tracks lm h s)
    (hnext : h'.next = h.next) (hsize : h'.size = h.size) : Tracks lm h' s := by
  refine ⟨htrack.rep.congr hnext hsize, htrack.bounded, fun n hn ↦ ?_⟩
  rw [hnext]
  exact htrack.unlinked n hn

/-- A record that is not linked is not the last cell before any position. -/
theorem data_ne_getLastD {n : ν} {l : List ν} (lm : μ) (hn : n ∉ l) :
    (Cell.data n : Cell μ ν) ≠ (l.map .data).getLastD (.head lm) := fun he ↦
  data_notMem_chain lm hn (he ▸ getLastD_mem_cons (Cell.head lm) (l.map .data))

section

variable [DecidableEq ν]

/-- What both insertions do to the records that are not linked: nothing, but for the one that
becomes linked. -/
theorem Tracks.unlinked_insert {lm : μ} {h h' : Heap μ ν} {s : Sequence ν}
    (htrack : Tracks lm h s) {n : ν} {nodes : List ν}
    (hnodes : ∀ m, m ∈ nodes ↔ m = n ∨ m ∈ s.nodes)
    (hnext : ∀ m, m ≠ n → m ∉ s.nodes → h'.next (.data m) = h.next (.data m)) :
    ∀ m ∈ s.removed.filter (· ≠ n), m ∉ nodes ∧ h'.next (.data m) = none := by
  intro m hm
  obtain ⟨hm, hne⟩ := List.mem_filter.mp hm
  have hne : m ≠ n := by simpa using hne
  obtain ⟨hnot, hnull⟩ := htrack.unlinked m hm
  refine ⟨fun hmem ↦ ?_, (hnext m hne hnot).trans hnull⟩
  rcases (hnodes m).mp hmem with rfl | hmem
  · exact hne rfl
  · exact hnot hmem

variable [DecidableEq μ]

theorem exec_addNode {fuel : ℕ} {lm : μ} {h : Heap μ ν} {s : Sequence ν} (htrack : Tracks lm h s)
    {n : ν} (hn : n ∉ s.nodes) (hroom : (s.nodes.length : ℤ) + 1 < intMax) :
    ∃ h', exec fuel lm h (.addNode n) = some (h', .done) ∧
      Tracks lm h' ⟨n :: s.nodes, s.removed.filter (· ≠ n)⟩ ∧ h'.payload = h.payload := by
  refine ⟨_, by rw [exec, addNode_eq htrack.rep hroom.le]; rfl, ⟨htrack.rep.push hn, ?_, ?_⟩, rfl⟩
  · rw [List.length_cons]
    push_cast
    exact hroom
  · refine htrack.unlinked_insert (fun m ↦ List.mem_cons) fun m hne _ ↦ ?_
    simp only [Heap.setSize_next, Heap.setNext_next]
    rw [Function.update_of_ne (by simp), Function.update_of_ne (by simpa using hne)]

theorem exec_pushBack {fuel : ℕ} {lm : μ} {h : Heap μ ν} {s : Sequence ν} (htrack : Tracks lm h s)
    {n : ν} (hn : n ∉ s.nodes) (hroom : (s.nodes.length : ℤ) + 1 < intMax) :
    ∃ h', exec fuel lm h (.pushBack n) = some (h', .done) ∧
      Tracks lm h' ⟨s.nodes ++ [n], s.removed.filter (· ≠ n)⟩ ∧ h'.payload = h.payload := by
  refine ⟨_, by rw [exec, pushBack_eq htrack.rep hroom.le]; rfl, ⟨htrack.rep.snoc hn, ?_, ?_⟩, rfl⟩
  · rw [List.length_append, List.length_singleton]
    push_cast
    exact hroom
  · refine htrack.unlinked_insert (fun m ↦ by simp [or_comm]) fun m hne hm ↦ ?_
    simp only [Heap.setSize_next, Heap.setNext_next]
    rw [Function.update_of_ne (by simpa using hne), Function.update_of_ne (data_ne_getLastD lm hm)]

/-- Removal at a position that the walk reaches. -/
theorem delNode_tracks {lm : μ} {h : Heap μ ν} {s : Sequence ν} (htrack : Tracks lm h s)
    {l₁ l₂ : List ν} {a : ν} (hsplit : s.nodes = l₁ ++ a :: l₂) :
    ∃ h', delNode h (some lm) (l₁.length + 1) = .ok h' ∧
      Tracks lm h' ⟨l₁ ++ l₂, a :: s.removed⟩ ∧ h'.payload = h.payload := by
  have hrep := htrack.rep
  have hbounded := htrack.bounded
  have hnodup := hrep.nodup
  rw [hsplit] at hrep hbounded hnodup
  refine ⟨_, delNode_eq hrep hbounded.le, ⟨hrep.remove, ?_, fun n hn ↦ ?_⟩, rfl⟩
  · simp only [List.length_append, List.length_cons] at hbounded ⊢
    push_cast at hbounded ⊢
    omega
  · simp only [Heap.setSize_next, Heap.setNext_next]
    rcases List.mem_cons.mp hn with rfl | hn
    · exact ⟨(List.nodup_middle.mp hnodup).notMem, Function.update_self _ _ _⟩
    · obtain ⟨hnot, hnull⟩ := htrack.unlinked n hn
      rw [hsplit, List.mem_append, List.mem_cons, not_or, not_or] at hnot
      obtain ⟨hn₁, hne, hn₂⟩ := hnot
      refine ⟨by rw [List.mem_append, not_or]; exact ⟨hn₁, hn₂⟩, ?_⟩
      rw [Function.update_of_ne (by simpa using hne),
        Function.update_of_ne (data_ne_getLastD lm hn₁), hnull]

theorem exec_delNode {fuel : ℕ} {lm : μ} {h : Heap μ ν} {s : Sequence ν} (htrack : Tracks lm h s)
    {pos : ℤ} (hpos : 1 ≤ pos) :
    ∃ h', exec fuel lm h (.delNode pos) = some (h', .done) ∧
      Tracks lm h' (s.removeAt (pos.toNat - 1)) ∧ h'.payload = h.payload := by
  by_cases hlen : pos.toNat - 1 < s.nodes.length
  · -- the node is there: split the sequence around it
    have hsplit : s.nodes = s.nodes.take (pos.toNat - 1)
        ++ s.nodes[pos.toNat - 1] :: s.nodes.drop (pos.toNat - 1 + 1) := by
      rw [List.getElem_cons_drop, List.take_append_drop]
    obtain ⟨h', hdel, htrack', hpayload⟩ := delNode_tracks htrack hsplit
    have hposeq : ((s.nodes.take (pos.toNat - 1)).length : ℤ) + 1 = pos := by
      rw [List.length_take, min_eq_left hlen.le]
      omega
    rw [hposeq] at hdel
    refine ⟨h', by rw [exec, hdel]; rfl, ?_, hpayload⟩
    rw [Sequence.removeAt, List.getElem?_eq_getElem hlen, List.eraseIdx_eq_take_drop_succ]
    exact htrack'
  · have hgt : (s.nodes.length : ℤ) < pos := by omega
    refine ⟨h, by rw [exec, delNode_of_gt htrack.rep hgt]; rfl, ?_, rfl⟩
    rw [Sequence.removeAt, List.getElem?_eq_none (by omega)]
    exact htrack

theorem exec_pop {fuel : ℕ} {lm : μ} {h : Heap μ ν} {s : Sequence ν} (htrack : Tracks lm h s)
    {a : ν} (ha : s.nodes.getLast? = some a) :
    ∃ h', exec fuel lm h .pop = some (h', .done) ∧
      Tracks lm h' ⟨s.nodes.dropLast, a :: s.removed⟩ ∧ h'.payload = h.payload := by
  have hsplit : s.nodes = s.nodes.dropLast ++ a :: [] :=
    (List.dropLast_append_getLast? a ha).symm
  obtain ⟨h', hdel, htrack', hpayload⟩ := delNode_tracks htrack hsplit
  have hsize : h.size lm = s.nodes.dropLast.length + 1 := by
    rw [htrack.rep.size_eq]
    conv_lhs => rw [hsplit]
    rw [List.length_append, List.length_singleton]
    push_cast
    rfl
  rw [List.append_nil] at htrack'
  exact ⟨h', by rw [exec, pop_eq_delNode, hsize, hdel]; rfl, htrack', hpayload⟩

/-- **One call.** Whatever the caller may ask of the sequence, the code does to the memory, with
the same answer; and it does nothing else to the payloads. -/
theorem exec_tracks {fuel : ℕ} (hfuel : intMax ≤ fuel) {lm : μ} {h : Heap μ ν} {s s' : Sequence ν}
    {op : Op μ ν} {b : Answer μ ν} (htrack : Tracks lm h s) (hstep : s.step op = some (s', b)) :
    ∃ h', exec fuel lm h op = some (h', b) ∧ Tracks lm h' s' ∧
      h'.payload = op.payload s.nodes h := by
  cases op with
  | addNode n =>
    obtain ⟨⟨hn, hroom⟩, hs⟩ := Option.ite_none_right_eq_some.mp hstep
    obtain ⟨rfl, rfl⟩ := Prod.mk.inj (Option.some_inj.mp hs)
    exact exec_addNode htrack hn hroom
  | pushBack n =>
    obtain ⟨⟨hn, hroom⟩, hs⟩ := Option.ite_none_right_eq_some.mp hstep
    obtain ⟨rfl, rfl⟩ := Prod.mk.inj (Option.some_inj.mp hs)
    exact exec_pushBack htrack hn hroom
  | delNode pos =>
    obtain ⟨hpos, hs⟩ := Option.ite_none_right_eq_some.mp hstep
    obtain ⟨rfl, rfl⟩ := Prod.mk.inj (Option.some_inj.mp hs)
    exact exec_delNode htrack hpos
  | pop =>
    -- the specification has no answer on the empty list
    cases ha : s.nodes.getLast? with
    | none => simp [Sequence.step, ha] at hstep
    | some a =>
      simp only [Sequence.step, ha, Option.some_inj, Prod.mk.injEq] at hstep
      obtain ⟨rfl, rfl⟩ := hstep
      exact exec_pop htrack ha
  | getSize =>
    obtain ⟨rfl, rfl⟩ := Prod.mk.inj (Option.some_inj.mp hstep)
    exact ⟨h, by rw [exec, getSize, htrack.rep.size_eq], htrack, rfl⟩
  | traversal v =>
    obtain ⟨rfl, rfl⟩ := Prod.mk.inj (Option.some_inj.mp hstep)
    have hlen : s.nodes.length ≤ fuel := by
      have := htrack.bounded
      omega
    refine ⟨_, by rw [exec, traversal_rep v htrack.rep hlen]; rfl, ?_, rfl⟩
    exact htrack.congr (v.visitAll_next h _) (v.visitAll_size h _)

/-- **The list refines a sequence, over whole runs.** Whatever calls follow a `ListInit` that
returned, in any order, as long as inserted nodes are not linked, positions are at least `1`,
`Pop` meets a non-empty list and fewer than `INT_MAX` nodes are linked: the code makes the same
moves with the same answers, and at the end the chain from `head.next` is acyclic, ends in null
and visits the abstract sequence, `size` is its length, and every record that was taken off and
not inserted again has a null `next`. And every `Traversal` on the way has done to the payloads what
its callback does to each element in turn, while no other call has touched them. -/
theorem list_refines_sequence {h₀ h : Heap μ ν} {malloc : Option μ} {lm : μ}
    (hinit : listInit h₀ malloc = .ok (h, some lm)) {fuel : ℕ} (hfuel : intMax ≤ fuel)
    {ops : List (Op μ ν)} {s : Sequence ν} {answers : List (Answer μ ν)}
    (hrun : Transition.trace Sequence.step ⟨[], []⟩ ops = some (s, answers)) :
    ∃ h', Transition.trace (exec fuel lm) h ops = some (h', answers) ∧
      Linked h'.next (h'.next (.head lm)) (s.nodes.map .data) ∧ s.nodes.Nodup ∧
      h'.size lm = s.nodes.length ∧
      (∀ n ∈ s.removed, n ∉ s.nodes ∧ h'.next (.data n) = none) ∧
      ∀ done op rest, ops = done ++ op :: rest → ∃ s₁ h₁ h₂ before b,
        Transition.trace Sequence.step ⟨[], []⟩ done = some (s₁, before) ∧
        Transition.trace (exec fuel lm) h done = some (h₁, before) ∧
        exec fuel lm h₁ op = some (h₂, b) ∧ h₂.payload = op.payload s₁.nodes h₁ := by
  cases malloc with
  | none => cases hinit
  | some m =>
    rw [listInit_some, Except.ok.injEq, Prod.mk.injEq, Option.some_inj] at hinit
    obtain ⟨rfl, rfl⟩ := hinit
    have htrack : Tracks m ((h₀.setNext (.head m) none).setSize m 0) ⟨[], []⟩ :=
      ⟨listInit_rep h₀ m, by simp [intMax], fun n hn ↦ absurd hn List.not_mem_nil⟩
    have hsim : ∀ (h : Heap μ ν) (s : Sequence ν) op s' b, Tracks m h s →
        s.step op = some (s', b) → ∃ h', exec fuel m h op = some (h', b) ∧ Tracks m h' s' := by
      intro h s op s' b htrack hstep
      obtain ⟨h', hexec, htrack', -⟩ := exec_tracks hfuel htrack hstep
      exact ⟨h', hexec, htrack'⟩
    obtain ⟨h', htrace, htrack'⟩ := Transition.exists_trace_of_refines (Tracks m) hsim htrack hrun
    refine ⟨h', htrace, htrack'.rep.linked, htrack'.rep.nodup, htrack'.rep.size_eq,
      htrack'.unlinked, ?_⟩
    rintro done op rest rfl
    obtain ⟨s₁, before, _, hdone, hrest, -⟩ := Transition.trace_append_eq_some.mp hrun
    obtain ⟨s₂, b, _, hop, -⟩ := Transition.trace_cons_eq_some.mp hrest
    obtain ⟨h₁, htrace₁, htrack₁⟩ := Transition.exists_trace_of_refines (Tracks m) hsim htrack hdone
    obtain ⟨h₂, hexec, -, hpayload⟩ := exec_tracks hfuel htrack₁ hop
    exact ⟨s₁, h₁, h₂, before, b, hdone, htrace₁, hexec, hpayload⟩

end

/-- The calls of `test01`, with a callback that does nothing. -/
def test01 : List (Op Unit ℕ) :=
  let printData : Visitor Unit ℕ := ⟨fun _ h ↦ h, fun _ _ ↦ rfl, fun _ _ ↦ rfl⟩
  [.getSize, .addNode 1, .addNode 2, .addNode 3, .addNode 4, .traversal printData, .getSize,
    .delNode 2, .traversal printData, .getSize, .pushBack 3, .traversal printData, .getSize, .pop,
    .traversal printData, .getSize]

/-- On that run every guard is met: the third record is taken off, appended and popped. -/
theorem list_refines_sequence_test01 :
    ∃ h' answers, Transition.trace (exec intMax.toNat ())
        (((⟨fun _ ↦ none, fun _ ↦ 7, fun _ ↦ []⟩ : Heap Unit ℕ).setNext (.head ()) none).setSize
          () 0) test01 = some (h', answers) ∧
      Linked h'.next (h'.next (.head ())) [.data 4, .data 2, .data 1] ∧ h'.size () = 3 ∧
      h'.next (.data 3) = none := by
  have hrun : ∃ answers, Transition.trace Sequence.step ⟨[], []⟩ test01
      = some (⟨[4, 2, 1], [3]⟩, answers) := ⟨_, rfl⟩
  obtain ⟨answers, hrun⟩ := hrun
  obtain ⟨h', htrace, hlinked, -, hsize, hnull, -⟩ :=
    list_refines_sequence (listInit_some _ ()) (Int.self_le_toNat intMax) hrun
  exact ⟨h', answers, htrace, hlinked, hsize, (hnull 3 (by simp)).2⟩

end LinkList

end CodeOnLinux
