import Mathlib.Data.Finset.Lattice.Fold
import Mathlib.Order.Lattice.Nat
import DemoCode.LockFreeQueue.Queue

/-! Calls of a `RoughLockFreeQueue` that follow one another.  `DeQueue` returns the data of the node
that it removes, which is the node in front of the one with the oldest element, so each element comes
out one removal late. -/

namespace DemoCode.LockFreeQueue

open Links

variable {ι V : Type*}

inductive Call (ι V : Type*) where
  | enQueue (i : ι) (t : Option V)
  | deQueue (i : ι)
  deriving DecidableEq, Repr

def Call.caller : Call ι V → ι
  | .enQueue i _ => i
  | .deQueue i => i

/-- Where `new` finds memory. -/
structure Allocator (ι V : Type*) where
  pick : RoughLockFreeQueue ι V → Addr
  pick_free : ∀ s, pick s ∉ s.live

def Allocator.start (alloc : Allocator ι V) (s : RoughLockFreeQueue ι V) : Call ι V → Event ι V
  | .enQueue i t => .enQueue i t (alloc.pick s)
  | .deQueue i => .deQueue i

namespace RoughLockFreeQueue

variable [DecidableEq ι]

/-- The steps of one caller until its call returns. -/
def finish (i : ι) : ℕ → RoughLockFreeQueue ι V → Option (RoughLockFreeQueue ι V × Ret V)
  | 0, _ => none
  | fuel + 1, s =>
    match s.step (.step i) with
    | none => none
    | some (s', none) => finish i fuel s'
    | some (s', some ret) => some (s', ret)

/-- A whole call, with what it returns and what `empty` returns after it. -/
def call (alloc : Allocator ι V) (s : RoughLockFreeQueue ι V) (c : Call ι V) :
    Option (RoughLockFreeQueue ι V × (Ret V × Bool)) := do
  let (s', _) ← s.step (alloc.start s c)
  let (t, ret) ← finish c.caller 6 s'
  some (t, (ret, t.empty))

/-- The queue after a whole `EnQueue` of an element with a new node. -/
def enQueued (s : RoughLockFreeQueue ι V) (i : ι) (newNode : Addr) (t : Option V) :
    RoughLockFreeQueue ι V :=
  ((((s.alloc newNode t).setNext s.tail newNode).setTail newNode).setSize (s.size + 1)).goto i .idle

variable {s s' t : RoughLockFreeQueue ι V} {i : ι} {pc : Pc} {fuel : ℕ} {ret : Ret V}

theorem finish_step (hPc : s.pc i = pc) (h : s.advance i pc = some (s', none)) :
    finish i (fuel + 1) s = finish i fuel s' := by
  simp only [finish, step, hPc, h]

theorem finish_done (hPc : s.pc i = pc) (h : s.advance i pc = some (s', some ret)) :
    finish i (fuel + 1) s = some (s', ret) := by
  simp only [finish, step, hPc, h]

end RoughLockFreeQueue

/-- The queue as its callers see it when they call one after the other: the data of the node in front,
and the elements that wait. -/
structure Lagging (V : Type*) where
  front : Option V := none
  waiting : List (Option V) := []

/-- The counter of the elements is an `uint32_t`. -/
def Lagging.empty (l : Lagging V) : Bool := l.waiting.length % 2 ^ 32 = 0

def Lagging.call (l : Lagging V) : Call ι V → Lagging V × Ret V
  | .enQueue _ t => ({ l with waiting := l.waiting ++ [t] }, .enQueue)
  | .deQueue _ =>
    match l.waiting with
    | [] => (l, .deQueue none)
    | t :: rest => ({ front := t, waiting := rest }, .deQueue l.front)

/-- What the calls return, each with what `empty` returns after it. -/
def Lagging.calls (l : Lagging V) : List (Call ι V) → List (Ret V × Bool)
  | [] => []
  | c :: rest => ((l.call c).2, (l.call c).1.empty) :: (l.call c).1.calls rest

/-- The memory of a queue that no caller is inside of. -/
structure Stores (s : RoughLockFreeQueue ι V) (l : Lagging V) (first : Addr) (rest : List Addr) :
    Prop where
  idle : ∀ i, s.pc i = .idle
  head : s.head = some first
  tail : (first :: rest).getLast? = some s.tail
  linked : Linked s.next (first :: rest)
  nodup : (first :: rest).Nodup
  live : ∀ a ∈ first :: rest, a ∈ s.live
  front : s.data first = l.front
  waiting : rest.map s.data = l.waiting
  size : s.size.toNat = l.waiting.length % 2 ^ 32

variable {s : RoughLockFreeQueue ι V} {l : Lagging V} {first : Addr} {rest : List Addr}

theorem Stores.empty_eq (h : Stores s l first rest) : s.empty = l.empty := by
  rw [Bool.eq_iff_iff, RoughLockFreeQueue.empty, Lagging.empty, beq_iff_eq, decide_eq_true_eq,
    ← h.size, ← UInt32.toNat_inj, UInt32.toNat_zero]

theorem fresh_stores (node : Addr) :
    Stores (RoughLockFreeQueue.fresh node : RoughLockFreeQueue ι V) {} node [] where
  idle := fun _ => rfl
  head := rfl
  tail := rfl
  linked := ⟨rfl, trivial⟩
  nodup := by simp
  live := fun _ ha => Finset.mem_singleton.mpr (List.mem_singleton.mp ha)
  front := rfl
  waiting := rfl
  size := rfl

variable [DecidableEq ι]

/-- What a whole `EnQueue` makes of the queue keeps its element behind the others. -/
theorem Stores.enQueued (h : Stores s l first rest) (i : ι) {a : Addr} (t : Option V)
    (hFree : a ∉ s.live) :
    Stores (s.enQueued i a t) { l with waiting := l.waiting ++ [t] } first (rest ++ [a]) := by
  obtain ⟨before, hTail⟩ := List.getLast?_eq_some_iff.mp h.tail
  have hTailIn : s.tail ∈ first :: rest := by simp [hTail]
  have hNew : a ∉ first :: rest := fun hIn => hFree (h.live _ hIn)
  have hNe : s.tail ≠ a := ne_of_mem_of_not_mem hTailIn hNew
  have hNextEq : (s.enQueued i a t).next =
      Function.update (Function.update s.next a none) s.tail (some a) := by
    change ((s.alloc a t).setNext s.tail a).next = _
    rw [RoughLockFreeQueue.setNext_next, RoughLockFreeQueue.alloc_next]
  have hDataEq : (s.enQueued i a t).data = Function.update s.data a t := by
    change ((s.alloc a t).setNext s.tail a).data = _
    rw [RoughLockFreeQueue.setNext_data, RoughLockFreeQueue.alloc_data]
  have hLive : ∀ b, b ∈ (s.enQueued i a t).live ↔ b = a ∨ b ∈ s.live := fun b => Finset.mem_insert
  refine ⟨fun j => ?_, h.head, ?_, ?_, ?_, ?_, ?_, ?_, ?_⟩
  · by_cases hj : j = i
    · subst hj
      simp [RoughLockFreeQueue.enQueued]
    · simpa [RoughLockFreeQueue.enQueued, RoughLockFreeQueue.goto_pc_of_ne, hj] using h.idle j
  · rw [← List.cons_append, List.getLast?_concat]
    rfl
  · have hOld : Linked (Function.update s.next a none) (first :: rest) := linked_update h.linked hNew
    have hAlone : Linked (Function.update s.next a none) [a] := ⟨by simp, trivial⟩
    have hNodup := h.nodup
    rw [hTail] at hOld hNodup
    rw [hNextEq, ← List.cons_append, hTail]
    have hLast : s.tail ∉ before := fun hIn =>
      (List.nodup_append.mp hNodup).2.2 s.tail hIn s.tail (List.mem_singleton_self _) rfl
    exact linked_link hOld hLast hAlone (by simp [hNe])
  · rw [← List.cons_append]
    exact List.Nodup.append h.nodup (List.nodup_singleton a) (by simpa using hNew)
  · intro b hb
    rw [← List.cons_append, List.mem_append, List.mem_singleton] at hb
    exact (hLive b).mpr (hb.symm.imp_right (h.live b))
  · rw [hDataEq, Function.update_of_ne (ne_of_mem_of_not_mem List.mem_cons_self hNew)]
    exact h.front
  · have hOld : rest.map (Function.update s.data a t) = rest.map s.data := by
      apply List.map_congr_left
      intro b hb
      exact Function.update_of_ne (ne_of_mem_of_not_mem (List.mem_cons_of_mem first hb) hNew) _ _
    rw [hDataEq, List.map_append, hOld, h.waiting]
    simp
  · have hSize := h.size
    change (s.size + 1).toNat = _
    rw [UInt32.toNat_add, UInt32.toNat_one, List.length_append, List.length_singleton]
    omega

omit [DecidableEq ι] in
/-- Nothing is linked behind the last node. -/
theorem Stores.next_tail (h : Stores s l first rest) : s.next s.tail = none := by
  obtain ⟨before, hTail⟩ := List.getLast?_eq_some_iff.mp h.tail
  have hLinked := h.linked
  rw [hTail] at hLinked
  exact (linked_of_append hLinked).1

omit [DecidableEq ι] in
/-- A new node is not the last one. -/
theorem Stores.tail_ne (h : Stores s l first rest) {a : Addr} (hFree : a ∉ s.live) : s.tail ≠ a :=
  ne_of_mem_of_not_mem (h.live s.tail (List.mem_of_getLast? h.tail)) hFree

/-- A whole `EnQueue` puts its element behind the others. -/
theorem enQueue_call (alloc : Allocator ι V) (h : Stores s l first rest) (i : ι) (t : Option V) :
    ∃ s' rest', s.call alloc (.enQueue i t) = some (s', (.enQueue, s'.empty)) ∧
      Stores s' { l with waiting := l.waiting ++ [t] } first rest' := by
  generalize hPick : alloc.pick s = a
  have hFree : a ∉ s.live := hPick ▸ alloc.pick_free s
  -- the states that the caller goes through
  let s₀ := (s.alloc a t).goto i (.loadTail a)
  let s₁ := s₀.goto i (.link a s.tail)
  let s₂ := (s₁.setNext s.tail a).goto i (.swingTail a s.tail)
  let s₃ := (s₂.setTail a).goto i .fetchAdd
  have hStart : s.step (.enQueue i t a) = some (s₀, none) := if_pos ⟨h.idle i, hFree⟩
  have hLoad : s₀.advance i (.loadTail a) = some (s₁, none) := rfl
  have hLink : s₁.advance i (.link a s.tail) = some (s₂, none) := by
    have hNext : s₁.next s.tail = none := by
      change (s.alloc a t).next s.tail = none
      rw [RoughLockFreeQueue.alloc_next, Function.update_of_ne (h.tail_ne hFree), h.next_tail]
    exact if_pos hNext
  have hSwing : s₂.advance i (.swingTail a s.tail) = some (s₃, none) := by
    have hSame : s₂.tail = s.tail := rfl
    simp [RoughLockFreeQueue.advance, hSame, s₃]
  have hAdd : s₃.advance i .fetchAdd = some (s.enQueued i a t, some .enQueue) := by
    simp [RoughLockFreeQueue.advance, RoughLockFreeQueue.enQueued, RoughLockFreeQueue.goto_setNext,
      RoughLockFreeQueue.goto_setTail, RoughLockFreeQueue.goto_setSize, s₃, s₂, s₁, s₀]
  have hFinish : RoughLockFreeQueue.finish i 6 s₀ = some (s.enQueued i a t, .enQueue) := by
    rw [RoughLockFreeQueue.finish_step (by simp [s₀]) hLoad,
      RoughLockFreeQueue.finish_step (by simp [s₁]) hLink,
      RoughLockFreeQueue.finish_step (by simp [s₂]) hSwing,
      RoughLockFreeQueue.finish_done (by simp [s₃]) hAdd]
  refine ⟨s.enQueued i a t, rest ++ [a], ?_, h.enQueued i t hFree⟩
  simp only [RoughLockFreeQueue.call, Allocator.start, hPick, hStart, Call.caller, hFinish,
    Option.bind_eq_bind, Option.bind_some]

/-- A `DeQueue` that finds no node behind the one in front leaves the queue alone. -/
theorem deQueue_call_nil (alloc : Allocator ι V) (h : Stores s l first []) (i : ι) :
    ∃ s', s.call alloc (.deQueue i) = some (s', (.deQueue none, s'.empty)) ∧
      Stores s' l first [] := by
  let s₀ := s.goto i .loadHead
  let s₁ := s₀.goto i (.testNext (some first))
  let s₂ := s₁.goto i .idle
  have hStart : s.step (.deQueue i) = some (s₀, none) := if_pos (h.idle i)
  have hHead : s₀.advance i .loadHead = some (s₁, none) := by
    simp [RoughLockFreeQueue.advance, s₁, s₀, h.head]
  have hTest : s₁.advance i (.testNext (some first)) = some (s₂, some (.deQueue none)) :=
    if_pos h.linked.1
  have hFinish : RoughLockFreeQueue.finish i 6 s₀ = some (s₂, .deQueue none) := by
    rw [RoughLockFreeQueue.finish_step (by simp [s₀]) hHead,
      RoughLockFreeQueue.finish_done (by simp [s₁]) hTest]
  refine ⟨s₂, ?_, ⟨fun j => ?_, h.head, h.tail, h.linked, h.nodup, h.live, h.front, h.waiting,
    h.size⟩⟩
  · simp only [RoughLockFreeQueue.call, Allocator.start, hStart, Call.caller, hFinish,
      Option.bind_eq_bind, Option.bind_some]
  · by_cases hj : j = i
    · subst hj
      simp [s₂]
    · simpa [s₂, s₁, s₀, RoughLockFreeQueue.goto_pc_of_ne, hj] using h.idle j

/-- Any other `DeQueue` moves on to the next node and returns the data of the one it leaves. -/
theorem deQueue_call_cons (alloc : Allocator ι V) {second : Addr}
    (h : Stores s l first (second :: rest)) (i : ι) :
    ∃ s' t waiting, l.waiting = t :: waiting ∧
      s.call alloc (.deQueue i) = some (s', (.deQueue l.front, s'.empty)) ∧
      Stores s' { front := t, waiting } second rest := by
  have hNext : s.next first = some second := h.linked.1
  let s₀ := s.goto i .loadHead
  let s₁ := s₀.goto i (.testNext (some first))
  let s₂ := s₁.goto i (.loadNext first)
  let s₃ := s₂.goto i (.swingHead first (some second))
  let s₄ := (s₃.moveHead first (some second)).goto i (.fetchSub first)
  let s₅ := (s₄.setSize (s₄.size - 1)).goto i (.deleteHead first)
  let s₆ := (s₅.free first).goto i .idle
  have hStart : s.step (.deQueue i) = some (s₀, none) := if_pos (h.idle i)
  have hHead : s₀.advance i .loadHead = some (s₁, none) := by
    simp [RoughLockFreeQueue.advance, s₁, s₀, h.head]
  have hTest : s₁.advance i (.testNext (some first)) = some (s₂, none) := by
    simp [RoughLockFreeQueue.advance, s₂, s₁, s₀, hNext]
  have hLoad : s₂.advance i (.loadNext first) = some (s₃, none) := by
    simp [RoughLockFreeQueue.advance, s₃, s₂, s₁, s₀, hNext]
  have hSwing : s₃.advance i (.swingHead first (some second)) = some (s₄, none) := if_pos h.head
  have hSub : s₄.advance i (.fetchSub first) = some (s₅, none) := rfl
  have hDelete : s₅.advance i (.deleteHead first) = some (s₆, some (.deQueue (s₅.data first))) := rfl
  have hData : s₅.data = s.data :=
    RoughLockFreeQueue.data_of_nodes (by simp [s₅, s₄, s₃, s₂, s₁, s₀])
  have hFinish : RoughLockFreeQueue.finish i 6 s₀ = some (s₆, .deQueue (s.data first)) := by
    rw [RoughLockFreeQueue.finish_step (by simp [s₀]) hHead,
      RoughLockFreeQueue.finish_step (by simp [s₁]) hTest,
      RoughLockFreeQueue.finish_step (by simp [s₂]) hLoad,
      RoughLockFreeQueue.finish_step (by simp [s₃]) hSwing,
      RoughLockFreeQueue.finish_step (by simp [s₄]) hSub,
      RoughLockFreeQueue.finish_done (by simp [s₅]) hDelete,
      hData]
  have hNodes : s₆.nodes = s.nodes := by simp [s₆, s₅, s₄, s₃, s₂, s₁, s₀]
  have hLive : s₆.live = s.live.erase first := by simp [s₆, s₅, s₄, s₃, s₂, s₁, s₀]
  have hSizeEq : s₆.size = s.size - 1 := by simp [s₆, s₅, s₄, s₃, s₂, s₁, s₀]
  have hTailEq : s₆.tail = s.tail := by simp [s₆, s₅, s₄, s₃, s₂, s₁, s₀]
  have hNodup := List.nodup_cons.mp h.nodup
  refine ⟨s₆, s.data second, rest.map s.data, h.waiting.symm, ?_, ?_⟩
  · rw [← h.front]
    simp only [RoughLockFreeQueue.call, Allocator.start, hStart, Call.caller, hFinish,
      Option.bind_eq_bind, Option.bind_some]
  constructor
  · intro j
    by_cases hj : j = i
    · subst hj
      simp [s₆]
    · simpa [s₆, s₅, s₄, s₃, s₂, s₁, s₀, hj] using h.idle j
  · simp [s₆, s₅, s₄]
  · have hTail := h.tail
    rw [hTailEq]
    rwa [List.getLast?_cons_cons] at hTail
  · rw [RoughLockFreeQueue.next_of_nodes hNodes]
    exact h.linked.2
  · exact hNodup.2
  · intro a ha
    rw [hLive]
    exact Finset.mem_erase.mpr ⟨fun hEq => hNodup.1 (hEq ▸ ha), h.live a (List.mem_cons_of_mem _ ha)⟩
  · rw [RoughLockFreeQueue.data_of_nodes hNodes]
  · rw [RoughLockFreeQueue.data_of_nodes hNodes]
  · have hSize := h.size
    rw [← h.waiting, List.map_cons, List.length_cons] at hSize
    rw [hSizeEq, UInt32.toNat_sub, UInt32.toNat_one]
    dsimp only
    omega

/-- One call after another: each does to the queue what `Lagging.call` says. -/
theorem call_lagging (alloc : Allocator ι V) (h : Stores s l first rest) (c : Call ι V) :
    ∃ s' first' rest', s.call alloc c = some (s', ((l.call c).2, (l.call c).1.empty)) ∧
      Stores s' (l.call c).1 first' rest' := by
  cases c with
  | enQueue i t =>
    obtain ⟨s', rest', hCall, hStores⟩ := enQueue_call alloc h i t
    rw [hStores.empty_eq] at hCall
    exact ⟨s', first, rest', hCall, hStores⟩
  | deQueue i =>
    cases rest with
    | nil =>
      obtain ⟨s', hCall, hStores⟩ := deQueue_call_nil alloc h i
      have hWaiting : l.waiting = [] := h.waiting.symm
      rw [hStores.empty_eq] at hCall
      simp only [Lagging.call, hWaiting]
      exact ⟨s', first, [], hCall, hStores⟩
    | cons second rest =>
      obtain ⟨s', t, waiting, hWaiting, hCall, hStores⟩ := deQueue_call_cons alloc h i
      rw [hStores.empty_eq] at hCall
      simp only [Lagging.call, hWaiting]
      exact ⟨s', second, rest, hCall, hStores⟩

/-- Any calls one after another return what `Lagging.calls` says. -/
theorem calls_lagging (alloc : Allocator ι V) (h : Stores s l first rest) (calls : List (Call ι V)) :
    ∃ t, Machine.run (RoughLockFreeQueue.call alloc) s calls = some (t, l.calls calls) := by
  induction calls generalizing s l first rest with
  | nil => exact ⟨s, rfl⟩
  | cons c calls ih =>
    obtain ⟨s', first', rest', hCall, hStores⟩ := call_lagging alloc h c
    obtain ⟨t, hRun⟩ := ih hStores
    exact ⟨t, Machine.run_step hCall hRun⟩

/-! ### Where this is a queue -/

/-- The calls on a queue with some elements return what they should: `DeQueue` the oldest element, and
null exactly when there is none, and `empty` whether there is one. -/
def Fifo (queue : List (Option V)) : List (Call ι V) → List (Ret V × Bool) → Prop
  | [], _ => True
  | .enQueue _ t :: calls, (_, empty) :: outs =>
    empty = false ∧ Fifo (queue ++ [t]) calls outs
  | .deQueue _ :: calls, (ret, empty) :: outs =>
    (∃ res, ret = .deQueue res ∧ (res = none ↔ queue = []) ∧ (queue ≠ [] → queue.head? = some res)) ∧
      (empty = true ↔ queue.tail = []) ∧ Fifo queue.tail calls outs
  | _, [] => False

def Call.isEnQueue : Call ι V → Bool
  | .enQueue _ _ => true
  | .deQueue _ => false

/-- All `DeQueue` calls come before the first `EnQueue`, and the elements can be counted. -/
def NeverDrained (calls : List (Call ι V)) : Prop :=
  ∃ des ens, calls = des ++ ens ∧ (∀ c ∈ des, c.isEnQueue = false) ∧
    (∀ c ∈ ens, c.isEnQueue = true) ∧ ens.length < 2 ^ 32

omit [DecidableEq ι] in
/-- While nothing was removed, `DeQueue` returns null, which is wrong as soon as an element waits. -/
theorem fifo_waiting {queue : List (Option V)} (hSome : queue ≠ []) (hCount : queue.length < 2 ^ 32)
    (calls : List (Call ι V)) : Fifo queue calls (Lagging.calls ⟨none, queue⟩ calls) ↔
      (∀ c ∈ calls, c.isEnQueue = true) ∧ queue.length + calls.length < 2 ^ 32 := by
  induction calls generalizing queue with
  | nil => simpa [Fifo] using hCount
  | cons c calls ih =>
    cases c with
    | enQueue i t =>
      have hLength : (queue ++ [t]).length = queue.length + 1 := by simp
      simp only [Fifo, Lagging.calls, Lagging.call, Lagging.empty, List.forall_mem_cons,
        Call.isEnQueue, true_and, List.length_cons, decide_eq_false_iff_not, hLength]
      by_cases hFull : queue.length + 1 = 2 ^ 32
      · constructor
        · rintro ⟨hNot, -⟩
          omega
        · rintro ⟨-, hLt⟩
          omega
      · rw [ih (by simp) (by omega), hLength]
        constructor
        · rintro ⟨-, hAll, hLt⟩
          exact ⟨hAll, by omega⟩
        · rintro ⟨hAll, hLt⟩
          exact ⟨by omega, hAll, by omega⟩
    | deQueue i =>
      obtain ⟨t, rest, rfl⟩ := List.exists_cons_of_ne_nil hSome
      simp only [Fifo, Lagging.calls, Lagging.call, List.forall_mem_cons, Call.isEnQueue,
        Bool.false_eq_true, false_and, iff_false]
      rintro ⟨⟨res, hRet, hNull, -⟩, -⟩
      obtain rfl : none = res := Ret.deQueue.inj hRet
      exact absurd (hNull.mp rfl) (List.cons_ne_nil t rest)

omit [DecidableEq ι] in
theorem fifo_fresh (calls : List (Call ι V)) :
    Fifo [] calls (Lagging.calls {} calls) ↔ NeverDrained calls := by
  induction calls with
  | nil => simpa [Fifo] using ⟨[], [], rfl, by simp, by simp, by simp⟩
  | cons c calls ih =>
    cases c with
    | enQueue i t =>
      have hFifo : Fifo [] (.enQueue i t :: calls) (Lagging.calls {} (.enQueue i t :: calls)) ↔
          Fifo [t] calls (Lagging.calls ⟨none, [t]⟩ calls) := by
        simp [Fifo, Lagging.calls, Lagging.call, Lagging.empty]
      rw [hFifo, fifo_waiting (by simp) (by simp)]
      constructor
      · rintro ⟨hAll, hLt⟩
        refine ⟨[], _, rfl, by simp, List.forall_mem_cons.mpr ⟨rfl, hAll⟩, ?_⟩
        simpa [Nat.add_comm] using hLt
      · rintro ⟨des, ens, hEq, hDes, hEns, hLt⟩
        cases des with
        | nil =>
          obtain rfl : _ = ens := hEq
          refine ⟨fun c hc => hEns c (List.mem_cons_of_mem _ hc), ?_⟩
          simpa [Nat.add_comm] using hLt
        | cons d des =>
          obtain ⟨rfl, -⟩ := List.cons.inj hEq
          cases hDes _ List.mem_cons_self
    | deQueue i =>
      have hFifo : Fifo [] (.deQueue i :: calls) (Lagging.calls {} (.deQueue i :: calls)) ↔
          Fifo [] calls (Lagging.calls {} calls) := by
        simp [Fifo, Lagging.calls, Lagging.call, Lagging.empty]
      rw [hFifo, ih]
      constructor
      · rintro ⟨des, ens, rfl, hDes, hEns, hLt⟩
        exact ⟨.deQueue i :: des, ens, rfl, List.forall_mem_cons.mpr ⟨rfl, hDes⟩, hEns, hLt⟩
      · rintro ⟨des, ens, hEq, hDes, hEns, hLt⟩
        cases des with
        | nil =>
          obtain rfl : _ = ens := hEq
          cases hEns _ List.mem_cons_self
        | cons d des =>
          obtain ⟨-, rfl⟩ := List.cons.inj hEq
          exact ⟨des, ens, rfl, fun c hc => hDes c (List.mem_cons_of_mem _ hc), hEns, hLt⟩

/-- Every sequence of calls on a fresh queue returns, and the calls return what those of a queue
should exactly when nothing is removed after the first element came in and the counter does not
overflow. -/
theorem fifo_iff (alloc : Allocator ι V) (node : Addr) (calls : List (Call ι V)) :
    ∃ t outs, Machine.run (RoughLockFreeQueue.call alloc) (.fresh node) calls = some (t, outs) ∧
      (Fifo [] calls outs ↔ NeverDrained calls) := by
  obtain ⟨t, hRun⟩ := calls_lagging alloc (fresh_stores node) calls
  exact ⟨t, _, hRun, fifo_fresh calls⟩

/-- The address after all that are allocated. -/
def lastFit : Allocator Unit ℕ where
  pick s := s.live.sup id + 1
  pick_free s hIn := by
    have hLe : s.live.sup id + 1 ≤ s.live.sup id := Finset.le_sup (f := id) hIn
    exact Nat.not_succ_le_self _ hLe

/-- The first element that is put in does not come out of the next `DeQueue`. -/
theorem deQueue_loses : ∃ t outs,
    Machine.run (RoughLockFreeQueue.call lastFit) (.fresh 0)
      [.enQueue () (some 7), .deQueue ()] = some (t, outs) ∧
    outs = [(.enQueue, false), (.deQueue none, true)] ∧
    ¬ Fifo [] [Call.enQueue () (some 7), .deQueue ()] outs := by
  refine ⟨_, _, rfl, rfl, ?_⟩
  rintro ⟨-, ⟨res, hRet, hNull, -⟩, -⟩
  obtain rfl : none = res := Ret.deQueue.inj hRet
  exact absurd (hNull.mp rfl) (List.cons_ne_nil (some 7) [])

end DemoCode.LockFreeQueue
