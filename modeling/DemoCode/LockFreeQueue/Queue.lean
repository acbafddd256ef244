import Mathlib.Data.Finset.Basic
import Mathlib.Tactic.Simps.Basic
import DemoCode.Lib.Links
import DemoCode.Lib.Machine

/-! `RoughLockFreeQueue` in `lock_free_queue.hpp`, with each atomic load, store and compare-exchange
of a caller as a step of its own.  A deleted node keeps its contents until its address is given out
again. -/

namespace DemoCode.LockFreeQueue

abbrev Addr := ℕ

/-- A node; `birth` tells which of the allocations made it. -/
structure QueueNode (V : Type*) where
  data : Option V := none
  next : Option Addr := none
  birth : ℕ := 0
  deriving DecidableEq, Repr

/-- The step that a caller does next, with its local variables. -/
inductive Pc where
  | idle
  -- EnQueue
  | loadTail (newNode : Addr)
  | link (newNode tail : Addr)
  | swingTail (newNode tail : Addr)
  | fetchAdd
  -- DeQueue
  | loadHead
  | testNext (head : Option Addr)
  | loadNext (head : Addr)
  | swingHead (head : Addr) (next : Option Addr)
  | fetchSub (head : Addr)
  | deleteHead (head : Addr)
  deriving DecidableEq, Repr

/-- The queue with its memory and its callers.  `live` has the addresses that are allocated;
`removed` lists the nodes that `m_head` was moved away from, each by its birth, the last one first. -/
structure RoughLockFreeQueue (ι V : Type*) where
  nodes : Addr → QueueNode V
  live : Finset Addr
  born : ℕ
  removed : List ℕ
  head : Option Addr
  tail : Addr
  size : UInt32
  pc : ι → Pc

inductive Event (ι V : Type*) where
  | enQueue (i : ι) (t : Option V) (newNode : Addr)
  | deQueue (i : ι)
  | empty (i : ι)
  | step (i : ι)

/-- What a call returns. -/
inductive Ret (V : Type*) where
  | enQueue
  | deQueue (res : Option V)
  | empty (b : Bool)
  deriving DecidableEq, Repr

namespace RoughLockFreeQueue

variable {ι V : Type*}

/-- The constructor, with the address of its node. -/
def fresh (node : Addr) : RoughLockFreeQueue ι V where
  nodes := fun _ => {}
  live := {node}
  born := 1
  removed := []
  head := some node
  tail := node
  size := 0
  pc := fun _ => .idle

/-- The `next` field of each node. -/
def next (s : RoughLockFreeQueue ι V) (a : Addr) : Option Addr := (s.nodes a).next

def birth (s : RoughLockFreeQueue ι V) (a : Addr) : ℕ := (s.nodes a).birth

def data (s : RoughLockFreeQueue ι V) (a : Addr) : Option V := (s.nodes a).data

/-- `empty`. -/
def empty (s : RoughLockFreeQueue ι V) : Bool := s.size == 0

/-- `new QueueNode<T>()` and the store of its data. -/
@[simps -fullyApplied]
def alloc (s : RoughLockFreeQueue ι V) (newNode : Addr) (t : Option V) : RoughLockFreeQueue ι V :=
  { s with
    nodes := Function.update s.nodes newNode { data := t, next := none, birth := s.born }
    live := insert newNode s.live
    born := s.born + 1 }

/-- The compare-exchange of `tail->next` when it finds no node there. -/
@[simps -fullyApplied]
def setNext (s : RoughLockFreeQueue ι V) (tail newNode : Addr) : RoughLockFreeQueue ι V :=
  { s with nodes := Function.update s.nodes tail { s.nodes tail with next := some newNode } }

/-- The compare-exchange of `m_head` when it finds `head` there. -/
@[simps -fullyApplied]
def moveHead (s : RoughLockFreeQueue ι V) (head : Addr) (next : Option Addr) :
    RoughLockFreeQueue ι V :=
  { s with head := next, removed := s.birth head :: s.removed }

/-- A store to `m_tail`. -/
@[simps -fullyApplied]
def setTail (s : RoughLockFreeQueue ι V) (tail : Addr) : RoughLockFreeQueue ι V :=
  { s with tail }

/-- A store to `m_size`. -/
@[simps -fullyApplied]
def setSize (s : RoughLockFreeQueue ι V) (size : UInt32) : RoughLockFreeQueue ι V :=
  { s with size }

/-- `delete` of a node. -/
@[simps -fullyApplied]
def free (s : RoughLockFreeQueue ι V) (node : Addr) : RoughLockFreeQueue ι V :=
  { s with live := s.live.erase node }

theorem next_of_nodes {s s' : RoughLockFreeQueue ι V} (h : s'.nodes = s.nodes) :
    s'.next = s.next := by
  funext a
  rw [next, next, h]

theorem data_of_nodes {s s' : RoughLockFreeQueue ι V} (h : s'.nodes = s.nodes) :
    s'.data = s.data := by
  funext a
  rw [data, data, h]

theorem alloc_next (s : RoughLockFreeQueue ι V) (newNode : Addr) (t : Option V) :
    (s.alloc newNode t).next = Function.update s.next newNode none := by
  funext a
  by_cases ha : a = newNode
  · subst ha
    simp [next, alloc]
  · simp [next, alloc, ha]

theorem alloc_birth (s : RoughLockFreeQueue ι V) (newNode : Addr) (t : Option V) :
    (s.alloc newNode t).birth = Function.update s.birth newNode s.born := by
  funext a
  by_cases ha : a = newNode
  · subst ha
    simp [birth, alloc]
  · simp [birth, alloc, ha]

theorem alloc_data (s : RoughLockFreeQueue ι V) (newNode : Addr) (t : Option V) :
    (s.alloc newNode t).data = Function.update s.data newNode t := by
  funext a
  by_cases ha : a = newNode
  · subst ha
    simp [data, alloc]
  · simp [data, alloc, ha]

theorem setNext_next (s : RoughLockFreeQueue ι V) (tail newNode : Addr) :
    (s.setNext tail newNode).next = Function.update s.next tail (some newNode) := by
  funext a
  by_cases ha : a = tail
  · subst ha
    simp [next, setNext]
  · simp [next, setNext, ha]

theorem setNext_birth (s : RoughLockFreeQueue ι V) (tail newNode : Addr) :
    (s.setNext tail newNode).birth = s.birth := by
  funext a
  by_cases ha : a = tail
  · subst ha
    simp [birth, setNext]
  · simp [birth, setNext, ha]

theorem setNext_data (s : RoughLockFreeQueue ι V) (tail newNode : Addr) :
    (s.setNext tail newNode).data = s.data := by
  funext a
  by_cases ha : a = tail
  · subst ha
    simp [data, setNext]
  · simp [data, setNext, ha]

variable [DecidableEq ι]

@[simps -fullyApplied]
def goto (s : RoughLockFreeQueue ι V) (i : ι) (pc : Pc) : RoughLockFreeQueue ι V :=
  { s with pc := Function.update s.pc i pc }

/-- The next step of a caller that is inside of a call; no step at all follows a null pointer. -/
def advance (s : RoughLockFreeQueue ι V) (i : ι) :
    Pc → Option (RoughLockFreeQueue ι V × Option (Ret V))
  | .idle => none
  | .loadTail newNode => some (s.goto i (.link newNode s.tail), none)
  | .link newNode tail =>
    if s.next tail = none then
      some ((s.setNext tail newNode).goto i (.swingTail newNode tail), none)
    else
      some (s.goto i (.loadTail newNode), none)
  | .swingTail newNode tail =>
    let tail' := if s.tail = tail then newNode else s.tail
    some ((s.setTail tail').goto i .fetchAdd, none)
  | .fetchAdd =>
    some ((s.setSize (s.size + 1)).goto i .idle, some .enQueue)
  | .loadHead => some (s.goto i (.testNext s.head), none)
  | .testNext none => none
  | .testNext (some head) =>
    if s.next head = none then
      some (s.goto i .idle, some (.deQueue none))
    else
      some (s.goto i (.loadNext head), none)
  | .loadNext head => some (s.goto i (.swingHead head (s.next head)), none)
  | .swingHead head next =>
    if s.head = some head then
      some ((s.moveHead head next).goto i (.fetchSub head), none)
    else
      some (s.goto i .loadHead, none)
  | .fetchSub head =>
    some ((s.setSize (s.size - 1)).goto i (.deleteHead head), none)
  | .deleteHead head =>
    some ((s.free head).goto i .idle, some (.deQueue (s.data head)))

/-- One step of one caller, with what its call returns when it ends there.  A caller that is idle may
start a call; a new node gets any address that is not allocated. -/
def step (s : RoughLockFreeQueue ι V) :
    Event ι V → Option (RoughLockFreeQueue ι V × Option (Ret V))
  | .enQueue i t newNode =>
    if s.pc i = .idle ∧ newNode ∉ s.live then
      some ((s.alloc newNode t).goto i (.loadTail newNode), none)
    else
      none
  | .deQueue i => if s.pc i = .idle then some (s.goto i .loadHead, none) else none
  | .empty i => if s.pc i = .idle then some (s, some (.empty s.empty)) else none
  | .step i => s.advance i (s.pc i)

/-! ### Frames -/

@[simp] theorem goto_next (s : RoughLockFreeQueue ι V) (i : ι) (pc : Pc) :
    (s.goto i pc).next = s.next := rfl

@[simp] theorem goto_birth (s : RoughLockFreeQueue ι V) (i : ι) (pc : Pc) :
    (s.goto i pc).birth = s.birth := rfl

@[simp] theorem goto_pc_self (s : RoughLockFreeQueue ι V) (i : ι) (pc : Pc) :
    (s.goto i pc).pc i = pc := by simp [goto]

@[simp] theorem goto_goto (s : RoughLockFreeQueue ι V) (i : ι) (pc pc' : Pc) :
    (s.goto i pc).goto i pc' = s.goto i pc' := by simp [goto]

theorem goto_setNext (s : RoughLockFreeQueue ι V) (i : ι) (pc : Pc) (a b : Addr) :
    (s.goto i pc).setNext a b = (s.setNext a b).goto i pc := rfl

theorem goto_setTail (s : RoughLockFreeQueue ι V) (i : ι) (pc : Pc) (a : Addr) :
    (s.goto i pc).setTail a = (s.setTail a).goto i pc := rfl

theorem goto_setSize (s : RoughLockFreeQueue ι V) (i : ι) (pc : Pc) (n : UInt32) :
    (s.goto i pc).setSize n = (s.setSize n).goto i pc := rfl

theorem goto_pc_of_ne (s : RoughLockFreeQueue ι V) {i j : ι} (pc : Pc) (h : j ≠ i) :
    (s.goto i pc).pc j = s.pc j := by simp [goto, h]

end RoughLockFreeQueue

end DemoCode.LockFreeQueue
