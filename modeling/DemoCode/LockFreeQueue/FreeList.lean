import DemoCode.Lib.Links
import DemoCode.Lib.Machine
import DemoCode.Lib.Tally

/-! `FreeList` in `lock_free_stack.hpp`, with each atomic load, store and read-modify-write of a
caller as a step of its own, one after another.  A node goes from a client to the list with `add`
and back with `tryGet`; the reference count keeps its link as it is while anyone may read it, and
whoever takes the count to zero puts the node on the list. -/

namespace DemoCode.LockFreeQueue

/-- The bits of `freeListRefs` that count references. -/
def refsMask : UInt32 := 0x7FFFFFFF

/-- The bit of `freeListRefs` of a node that waits to be put on the list. -/
def shouldBeOnFreelist : UInt32 := 0x80000000

namespace FreeList

/-- Where `add_knowing_refcount_is_zero` returns to: `add`, or the loop of `try_get`. -/
inductive Caller (ν : Type*) where
  | add
  | tryGet (head : Option ν)
  deriving DecidableEq, Repr

/-- The step that a caller does next, with its local variables. -/
inductive Pc (ν : Type*) where
  | idle
  | aborted
  -- add
  | addRefs (node : ν)
  -- add_knowing_refcount_is_zero
  | linkLoad (node : ν) (k : Caller ν)
  | storeNext (node : ν) (head : Option ν) (k : Caller ν)
  | storeRefs (node : ν) (head : Option ν) (k : Caller ν)
  | swapIn (node : ν) (head : Option ν) (k : Caller ν)
  | addBack (node : ν) (head : Option ν) (k : Caller ν)
  -- try_get
  | getLoad
  | loadRefs (head : ν)
  | incRefs (head : ν) (refs : UInt32)
  | loadNext (head : ν)
  | swapOut (head : ν) (next : Option ν)
  | checkRefs (head : ν)
  | subRefs (head : ν)
  | unref (prevHead : ν) (head : Option ν)
  deriving DecidableEq, Repr

end FreeList

/-- The list with its nodes and its callers.  `out` tells which nodes a client has. -/
structure FreeList (ι ν : Type*) where
  freeListHead : Option ν
  freeListRefs : ν → UInt32
  freeListNext : ν → Option ν
  out : ν → Bool
  pc : ι → FreeList.Pc ν

namespace FreeList

inductive Event (ι ν : Type*) where
  | add (i : ι) (node : ν)
  | tryGet (i : ι)
  | step (i : ι)
  deriving DecidableEq

/-- What a call returns. -/
inductive Ret (ν : Type*) where
  | add
  | tryGet (res : Option ν)
  deriving DecidableEq, Repr

variable {ι ν : Type*}

/-- The constructors: every node is with a client. -/
def fresh : FreeList ι ν where
  freeListHead := none
  freeListRefs := fun _ => 0
  freeListNext := fun _ => none
  out := fun _ => true
  pc := fun _ => .idle

variable [DecidableEq ι] [DecidableEq ν]

@[simps -fullyApplied]
def goto (s : FreeList ι ν) (i : ι) (pc : Pc ν) : FreeList ι ν :=
  { s with pc := Function.update s.pc i pc }

@[simps -fullyApplied]
def setRefs (s : FreeList ι ν) (node : ν) (refs : UInt32) : FreeList ι ν :=
  { s with freeListRefs := Function.update s.freeListRefs node refs }

@[simps -fullyApplied]
def setNext (s : FreeList ι ν) (node : ν) (next : Option ν) : FreeList ι ν :=
  { s with freeListNext := Function.update s.freeListNext node next }

/-- The test of the loop of `try_get`. -/
def loop (s : FreeList ι ν) (i : ι) : Option ν → FreeList ι ν × Option (Ret ν)
  | none => (s.goto i .idle, some (.tryGet none))
  | some head => (s.goto i (.loadRefs head), none)

/-- The return of `add_knowing_refcount_is_zero`. -/
def leave (s : FreeList ι ν) (i : ι) : Caller ν → FreeList ι ν × Option (Ret ν)
  | .add => (s.goto i .idle, some .add)
  | .tryGet head => s.loop i head

/-- The next step of a caller. -/
def resume (s : FreeList ι ν) (i : ι) : Option (FreeList ι ν × Option (Ret ν)) :=
  match s.pc i with
  | .idle => none
  | .aborted => none
  | .addRefs node =>
    let s' := s.setRefs node (s.freeListRefs node + shouldBeOnFreelist)
    if s.freeListRefs node = 0 then some (s'.goto i (.linkLoad node .add), none)
    else some (s'.goto i .idle, some .add)
  | .linkLoad node k => some (s.goto i (.storeNext node s.freeListHead k), none)
  | .storeNext node head k => some ((s.setNext node head).goto i (.storeRefs node head k), none)
  | .storeRefs node head k => some ((s.setRefs node 1).goto i (.swapIn node head k), none)
  | .swapIn node head k =>
    if s.freeListHead = head then some ({ s with freeListHead := some node }.leave i k)
    else some (s.goto i (.addBack node s.freeListHead k), none)
  | .addBack node head k =>
    let s' := s.setRefs node (s.freeListRefs node + (shouldBeOnFreelist - 1))
    if s.freeListRefs node = 1 then some (s'.goto i (.storeNext node head k), none)
    else some (s'.leave i k)
  | .getLoad => some (s.loop i s.freeListHead)
  | .loadRefs head =>
    if s.freeListRefs head &&& refsMask = 0 then some (s.goto i .getLoad, none)
    else some (s.goto i (.incRefs head (s.freeListRefs head)), none)
  | .incRefs head refs =>
    if s.freeListRefs head = refs then
      some ((s.setRefs head (refs + 1)).goto i (.loadNext head), none)
    else some (s.goto i .getLoad, none)
  | .loadNext head => some (s.goto i (.swapOut head (s.freeListNext head)), none)
  | .swapOut head next =>
    if s.freeListHead = some head then
      some ({ s with freeListHead := next }.goto i (.checkRefs head), none)
    else some (s.goto i (.unref head s.freeListHead), none)
  | .checkRefs head =>
    if s.freeListRefs head &&& shouldBeOnFreelist = 0 then some (s.goto i (.subRefs head), none)
    else some (s.goto i .aborted, none)
  | .subRefs head =>
    let s' := s.setRefs head (s.freeListRefs head - 2)
    some ({ s' with out := Function.update s.out head true }.goto i .idle,
      some (.tryGet (some head)))
  | .unref prevHead head =>
    let s' := s.setRefs prevHead (s.freeListRefs prevHead - 1)
    if s.freeListRefs prevHead = shouldBeOnFreelist + 1 then
      some (s'.goto i (.linkLoad prevHead (.tryGet head)), none)
    else some (s'.loop i head)

/-- One step.  A caller calls when it is not in a call, and adds only a node that a client has. -/
def step (s : FreeList ι ν) : Event ι ν → Option (FreeList ι ν × Option (Ret ν))
  | .add i node =>
    if s.pc i = .idle ∧ s.out node = true then
      some ({ s with out := Function.update s.out node false }.goto i (.addRefs node), none)
    else none
  | .tryGet i => if s.pc i = .idle then some (s.goto i .getLoad, none) else none
  | .step i => s.resume i

end FreeList

end DemoCode.LockFreeQueue
