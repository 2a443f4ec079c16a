import CodeOnLinux.Foundation.Chain
import CodeOnLinux.Foundation.Machine

/-!
# The intrusive linked list of `node.c`

The user owns the nodes: a `Node` is the first field of a larger record, and the list only ever
touches its `next` pointer. A `ListManager` holds a node of its own, `head`, and a counter `size`
that is kept separately from the chain; `PushBack` and `DelNode` walk by that counter and never
look for the null pointer.

Objects do not overlap, so the cells a `pNode` can point to are the `head` of some manager and the
leading node of some user record. The functions below follow the source statement by statement;
following a null pointer and overflowing an `int` are faults. The messages that the source prints
are left out.
-/

namespace CodeOnLinux

namespace LinkList

/-- What a non-null `pNode` points to: the `head` of a list manager, or a user's record. -/
inductive Cell (μ ν : Type)
  | head (list_manager : μ)
  | data (record : ν)
  deriving DecidableEq

/-- A `pNode`; `none` is `NULL`. -/
abbrev PNode (μ ν : Type) := Option (Cell μ ν)

/-- The memory of managers and records. -/
structure Heap (μ ν : Type) where
  /-- The `next` of each cell. -/
  next : Cell μ ν → PNode μ ν
  /-- The `size` of each manager. -/
  size : μ → ℤ
  /-- What follows the embedded node in a record, which belongs to the user. -/
  payload : ν → Bytes

variable {μ ν : Type}

/-! ## Memory accesses -/

/-- `p->next` -/
def Heap.loadNext (h : Heap μ ν) : PNode μ ν → Checked (PNode μ ν)
  | some c => .ok (h.next c)
  | none => .error .nullPointer

@[simp] theorem Heap.loadNext_some (h : Heap μ ν) (c : Cell μ ν) :
    h.loadNext (some c) = .ok (h.next c) := rfl

/-- `list_manager->size` -/
def Heap.loadSize (h : Heap μ ν) : Option μ → Checked ℤ
  | some lm => .ok (h.size lm)
  | none => .error .nullPointer

@[simp] theorem Heap.loadSize_some (h : Heap μ ν) (lm : μ) :
    h.loadSize (some lm) = .ok (h.size lm) := rfl

section

variable [DecidableEq μ]

def Heap.setSize (h : Heap μ ν) (lm : μ) (n : ℤ) : Heap μ ν :=
  { h with size := Function.update h.size lm n }

@[simp] theorem Heap.setSize_next (h : Heap μ ν) (lm : μ) (n : ℤ) :
    (h.setSize lm n).next = h.next := rfl

@[simp] theorem Heap.setSize_size (h : Heap μ ν) (lm : μ) (n : ℤ) :
    (h.setSize lm n).size = Function.update h.size lm n := rfl

/-- `list_manager->size += d` -/
def Heap.addSize (h : Heap μ ν) (d : ℤ) : Option μ → Checked (Heap μ ν)
  | some lm => do
    let n ← checkInt (h.size lm + d)
    return h.setSize lm n
  | none => .error .nullPointer

end

variable [DecidableEq μ] [DecidableEq ν]

def Heap.setNext (h : Heap μ ν) (c : Cell μ ν) (p : PNode μ ν) : Heap μ ν :=
  { h with next := Function.update h.next c p }

@[simp] theorem Heap.setNext_next (h : Heap μ ν) (c : Cell μ ν) (p : PNode μ ν) :
    (h.setNext c p).next = Function.update h.next c p := rfl

@[simp] theorem Heap.setNext_size (h : Heap μ ν) (c : Cell μ ν) (p : PNode μ ν) :
    (h.setNext c p).size = h.size := rfl

/-- `p->next = q` -/
def Heap.storeNext (h : Heap μ ν) : PNode μ ν → PNode μ ν → Checked (Heap μ ν)
  | some c, q => .ok (h.setNext c q)
  | none, _ => .error .nullPointer

@[simp] theorem Heap.storeNext_some (h : Heap μ ν) (c : Cell μ ν) (q : PNode μ ν) :
    h.storeNext (some c) q = .ok (h.setNext c q) := rfl

/-- `&list_manager->head`: `head` is the first field, so of a null manager it is null. -/
def headOf (list_manager : Option μ) : PNode μ ν := list_manager.map .head

/-! ## The functions -/

/-- `ListInit`, given the address that `malloc` returned. -/
def listInit (h : Heap μ ν) (malloc : Option μ) : Checked (Heap μ ν × Option μ) := do
  let h ← h.storeNext (headOf malloc) none
  match malloc with
  | some lm => return (h.setSize lm 0, some lm)
  | none => .error .nullPointer

def addNode (h : Heap μ ν) (list_manager : Option μ) (data : Option ν) : Checked (Heap μ ν) := do
  let new_node : PNode μ ν := data.map .data
  if list_manager = none ∨ data = none then
    return h
  else
    let first ← h.loadNext (headOf list_manager)
    let h ← h.storeNext new_node first
    let h ← h.storeNext (headOf list_manager) new_node
    h.addSize 1 list_manager

/-- The loop `while(pos - stop) { iter = iter->next; pos--; }`. Its test overflows, if ever, when
`pos` is down to `INT_MIN`. -/
def walk (h : Heap μ ν) (stop : ℤ) (iter : PNode μ ν) (pos : ℤ) : Checked (PNode μ ν) :=
  if pos - stop < intMin then .error .intOverflow
  else if pos - stop = 0 then .ok iter
  else match h.loadNext iter with
    | .error e => .error e
    | .ok iter =>
      if pos - 1 < intMin then .error .intOverflow else walk h stop iter (pos - 1)
termination_by (pos - intMin).toNat
decreasing_by omega

def delNode (h : Heap μ ν) (list_manager : Option μ) (pos : ℤ) : Checked (Heap μ ν) :=
  let iter : PNode μ ν := headOf list_manager
  match list_manager with
  | none => .ok h
  | some lm => do
    if pos > h.size lm then
      return h
    else
      let iter ← walk h 1 iter pos
      let temp ← h.loadNext iter
      let after ← h.loadNext temp
      let h ← h.storeNext iter after
      let h ← h.storeNext temp none
      h.addSize (-1) list_manager

def getSize (h : Heap μ ν) : Option μ → ℤ
  | none => 0
  | some lm => h.size lm

/-- `PushBack` reads `list_manager->size` before anything else and checks neither argument. -/
def pushBack (h : Heap μ ν) (list_manager : Option μ) (data : Option ν) : Checked (Heap μ ν) := do
  let tmp_pos ← h.loadSize list_manager
  let new_node : PNode μ ν := data.map .data
  let iter ← walk h 0 (headOf list_manager) tmp_pos
  let h ← h.storeNext iter new_node
  let h ← h.storeNext new_node none
  h.addSize 1 list_manager

def pop (h : Heap μ ν) (list_manager : Option μ) : Checked (Heap μ ν) := do
  let size ← h.loadSize list_manager
  delNode h list_manager size

/-- The loop of `Traversal`. It also returns the cells that `func` was called on, in order. A
chain that runs in a circle is never left, hence `fuel`. -/
def traversalLoop (func : Cell μ ν → Heap μ ν → Heap μ ν) :
    ℕ → Heap μ ν → PNode μ ν → Checked (Heap μ ν × List (Cell μ ν))
  | _, h, none => .ok (h, [])
  | 0, _, some _ => .error .outOfFuel
  | fuel + 1, h, some iter => do
    let h := func iter h
    let r ← traversalLoop func fuel h (h.next iter)
    return (r.1, iter :: r.2)

def traversal (fuel : ℕ) (func : Cell μ ν → Heap μ ν → Heap μ ν) (h : Heap μ ν) :
    Option μ → Checked (Heap μ ν × List (Cell μ ν))
  | none => .ok (h, [])
  | some lm => traversalLoop func fuel h (h.next (.head lm))

end LinkList

end CodeOnLinux
