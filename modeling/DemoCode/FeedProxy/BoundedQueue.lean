import Mathlib.Data.List.Induction
import DemoCode.FeedProxy.CricularBuffer

/-! A `CricularBuffer` is a bounded queue.  Whatever is pushed and popped, the chain of data is the
queue and the two chains together have one node more than the buffer's size, so that a push always
finds a free one; the counter of the free nodes counts them modulo 2^32. -/

namespace DemoCode.FeedProxy

/-- `push` and `pop`. -/
inductive QueueOp (T : Type) where
  | push (t : T)
  | pop
  deriving DecidableEq, Repr

variable {T : Type}

/-! ### The queue -/

namespace QueueOp

/-- An operation on a queue of at most `size` elements, the oldest first. -/
def onQueue (size : Nat) (queue : List T) : QueueOp T → List T
  | .push t => if queue.length < size then queue ++ [t] else (queue ++ [t]).tail
  | .pop => queue.tail

/-- The queue after the operations. -/
def queue (size : Nat) (ops : List (QueueOp T)) : List T := ops.foldl (onQueue size) []

def pushed : QueueOp T → Option T
  | .push t => some t
  | .pop => none

/-- The element that was pushed last. -/
def lastPushed (ops : List (QueueOp T)) : Option T := (ops.filterMap pushed).getLast?

theorem queue_concat (size : Nat) (ops : List (QueueOp T)) (op : QueueOp T) :
    queue size (ops ++ [op]) = onQueue size (queue size ops) op := by
  rw [queue, List.foldl_append]
  rfl

theorem length_queue_le {size : Nat} (h : 0 < size) (ops : List (QueueOp T)) :
    (queue size ops).length ≤ size := by
  induction ops using List.reverseRecOn with
  | nil => exact Nat.zero_le _
  | append_singleton ops op ih =>
    rw [queue_concat]
    cases op with
    | push t =>
      rw [onQueue]
      split
      · rw [List.length_append, List.length_singleton]
        omega
      · rw [List.length_tail, List.length_append, List.length_singleton]
        omega
    | pop =>
      rw [onQueue, List.length_tail]
      omega

/-- The newest element is the one that was pushed last. -/
theorem getLast?_queue {size : Nat} (h : 0 < size) (ops : List (QueueOp T))
    (hSome : queue size ops ≠ []) : (queue size ops).getLast? = lastPushed ops := by
  induction ops using List.reverseRecOn with
  | nil => exact absurd rfl hSome
  | append_singleton ops op ih =>
    have hLast : lastPushed (ops ++ [op]) = op.pushed.or (lastPushed ops) := by
      rw [lastPushed, List.filterMap_append, List.getLast?_append]
      cases op <;> rfl
    rw [queue_concat] at hSome ⊢
    rw [hLast]
    cases op with
    | push t =>
      rw [onQueue]
      split
      · exact List.getLast?_concat
      · rename_i hFull
        cases hQueue : queue size ops with
        | nil =>
          rw [hQueue] at hFull
          exact absurd h hFull
        | cons oldest rest => exact List.getLast?_concat
    | pop =>
      cases hQueue : queue size ops with
      | nil =>
        rw [hQueue] at hSome
        exact absurd rfl hSome
      | cons oldest rest =>
        rw [hQueue] at hSome ih
        rw [← ih (List.cons_ne_nil _ _)]
        have hRest : rest ≠ [] := hSome
        exact (List.getLast?_cons_of_ne_nil hRest).symm

end QueueOp

/-! ### The buffer -/

namespace CricularBuffer

/-- The well-formed buffers whose counters add up. -/
structure Sound (buf : CricularBuffer T) : Prop where
  wf : buf.Wf
  counted : buf.dataSize + buf.freeNodeNum = buf.bufferSize + 1

theorem init_sound [Inhabited T] {bufferSize : UInt32} (h : 0 < bufferSize.toNat) :
    (init bufferSize : CricularBuffer T).Sound := ⟨init_wf h, UInt32.zero_add _⟩

section

variable {buf buf' : CricularBuffer T}

/-- The counter of the free nodes counts them modulo 2^32. -/
theorem Sound.freeNodeNum (h : buf.Sound) :
    buf.freeNodeNum.toNat = buf.freeLst.length % 2 ^ 32 := by
  have hCounted := congrArg UInt32.toNat h.counted
  have hSize := h.wf.size
  have hTotal := h.wf.total
  have hLess := buf.freeNodeNum.toNat_lt
  rw [UInt32.toNat_add, UInt32.toNat_add, UInt32.toNat_one] at hCounted
  omega

/-- A push always finds a free node. -/
theorem Wf.freeLst_ne_nil (h : buf.Wf) : buf.freeLst ≠ [] := by
  intro hNil
  have hBound := h.bound
  have hTotal := h.total
  rw [hNil, List.length_nil] at hTotal
  omega

/-- `back()` is the newest element. -/
theorem Wf.back_eq (h : buf.Wf) (hSome : buf.dataLst ≠ []) :
    buf.back = (buf.dataLst.map LinkNode.data).getLast? := by
  obtain ⟨front, last, hLst, -, hBack, hFront, -⟩ := h.last hSome
  have hNone : front.find? (fun node => node.addr = last.addr) = none := by
    rw [List.find?_eq_none]
    intro node hIn hSame
    exact hFront (List.mem_map.mpr ⟨node, hIn, of_decide_eq_true hSame⟩)
  rw [back, hBack, hLst]
  simp [List.find?_append, hNone]

variable [Inhabited T]

/-- A push takes a free node and either counts one more element or frees one again. -/
theorem push_counted {t : T} {out : List T} (h : buf.push t = some (buf', out)) :
    buf'.dataSize + buf'.freeNodeNum = buf.dataSize + buf.freeNodeNum := by
  have hMoved : ∀ d f : UInt32, d + 1 + (f - 1) = d + f := by
    intro d f
    grind
  unfold push at h
  split at h
  · cases h
  dsimp only at h
  split at h
  · cases h
    exact hMoved _ _
  split at h
  · cases h
  split at h
  · split at h
    · cases h
    · cases h
      show buf.dataSize + (buf.freeNodeNum - 1 + 1) = _
      rw [UInt32.sub_add_cancel]
  · cases h
    exact hMoved _ _

/-- **Push**. -/
theorem Sound.push (h : buf.Sound) (t : T) :
    ∃ buf' out, buf.push t = some (buf', out) ∧ buf'.Sound ∧ buf'.bufferSize = buf.bufferSize ∧
      buf'.dataLst.map LinkNode.data =
        QueueOp.onQueue buf.bufferSize.toNat (buf.dataLst.map LinkNode.data) (.push t) := by
  obtain ⟨free, freeLst, hFree⟩ := List.exists_cons_of_ne_nil h.wf.freeLst_ne_nil
  have hSize := h.wf.size
  by_cases hFull : buf.dataSize ≥ buf.bufferSize
  · have hLimit := hFull
    rw [ge_iff_le, UInt32.le_iff_toNat_le] at hLimit
    have hPos := h.wf.pos
    obtain ⟨oldest, dataLst, hOldest⟩ :=
      List.exists_cons_of_ne_nil (List.ne_nil_of_length_pos (show 0 < buf.dataLst.length by omega))
    obtain ⟨buf', hPush, hWf, hSame, -, hData⟩ := h.wf.push_full hFree hFull hOldest t
    refine ⟨buf', _, hPush, ⟨hWf, ?_⟩, hSame, ?_⟩
    · rw [push_counted hPush, h.counted, hSame]
    · rw [QueueOp.onQueue, if_neg (by rw [List.length_map]; omega), hData, hOldest]
      simp
  · have hRoom := hFull
    rw [ge_iff_le, UInt32.le_iff_toNat_le] at hRoom
    obtain ⟨buf', hPush, hWf, hSame, -, hData⟩ := h.wf.push_room hFree hFull t
    refine ⟨buf', _, hPush, ⟨hWf, ?_⟩, hSame, ?_⟩
    · rw [push_counted hPush, h.counted, hSame]
    · rw [QueueOp.onQueue, if_pos (by rw [List.length_map]; omega), hData]
      simp

omit [Inhabited T] in
/-- **Pop**. -/
theorem Sound.pop (h : buf.Sound) :
    ∃ buf', buf.pop = some buf' ∧ buf'.Sound ∧ buf'.bufferSize = buf.bufferSize ∧
      buf'.dataLst.map LinkNode.data =
        QueueOp.onQueue buf.bufferSize.toNat (buf.dataLst.map LinkNode.data) .pop := by
  have hSize := h.wf.size
  have hTotal := h.wf.total
  have hBound := h.wf.bound
  have hNodup := h.wf.nodup
  rcases hLst : buf.dataLst with _ | ⟨oldest, dataLst⟩
  · rw [hLst, List.length_nil] at hSize
    have hEmpty : buf.dataSize = 0 := UInt32.toNat_inj.mp hSize
    refine ⟨buf, if_pos hEmpty, h, rfl, ?_⟩
    rw [hLst]
    rfl
  rw [hLst, List.length_cons] at hSize hTotal hBound
  have hSome : buf.dataSize ≠ 0 := by
    intro hEmpty
    rw [hEmpty, UInt32.toNat_zero] at hSize
    omega
  refine ⟨{ buf with
    dataSize := buf.dataSize - 1
    freeNodeNum := buf.freeNodeNum + 1
    dataLst
    freeLst := oldest :: buf.freeLst }, ?_, ⟨⟨h.wf.pos, ?_, ?_, ?_, ?_, ?_, ?_⟩, ?_⟩, rfl, rfl⟩
  · simp only [CricularBuffer.pop, if_neg hSome, hLst]
  · rw [hLst, List.cons_append, List.map_cons] at hNodup
    simpa using (List.perm_middle.nodup_iff.mpr (by simpa using hNodup))
  · dsimp only
    have hOne : (1 : UInt32) ≤ buf.dataSize := by
      rw [UInt32.le_iff_toNat_le, UInt32.toNat_one]
      omega
    rw [UInt32.toNat_sub_of_le _ _ hOne, UInt32.toNat_one]
    omega
  · dsimp only
    omega
  · dsimp only
    rw [List.length_cons]
    omega
  -- the current node stays the last one, as long as there is one
  · intro node hIn
    apply h.wf.insertNode
    rw [hLst, List.getLast?_cons_of_ne_nil (List.ne_nil_of_mem (List.mem_of_mem_getLast? hIn))]
    exact hIn
  · intro node hIn
    apply h.wf.backData
    rw [hLst, List.getLast?_cons_of_ne_nil (List.ne_nil_of_mem (List.mem_of_mem_getLast? hIn))]
    exact hIn
  · show buf.dataSize - 1 + (buf.freeNodeNum + 1) = buf.bufferSize + 1
    rw [← h.counted]
    grind

end

def queueOp [Inhabited T] (buf : CricularBuffer T) : QueueOp T → Option (CricularBuffer T)
  | .push t => (buf.push t).map Prod.fst
  | .pop => buf.pop

/-- The buffer is the queue that the operations make. -/
structure IsQueue (buf : CricularBuffer T) (bufferSize : UInt32) (ops : List (QueueOp T)) : Prop where
  data : buf.dataLst.map LinkNode.data = QueueOp.queue bufferSize.toNat ops
  size : buf.size.toNat = (QueueOp.queue bufferSize.toNat ops).length
  free : buf.freeLst ≠ []
  freeLength : buf.freeNodeNum.toNat = buf.freeLst.length
  freeNum : buf.freeNodeNum.toNat = bufferSize.toNat + 1 - buf.size.toNat
  back : QueueOp.queue bufferSize.toNat ops ≠ [] → buf.back = QueueOp.lastPushed ops

/-- **Step**. -/
theorem Sound.queueOp [Inhabited T] {buf : CricularBuffer T} (h : buf.Sound) (op : QueueOp T) :
    ∃ buf', buf.queueOp op = some buf' ∧ buf'.Sound ∧ buf'.bufferSize = buf.bufferSize ∧
      buf'.dataLst.map LinkNode.data =
        op.onQueue buf.bufferSize.toNat (buf.dataLst.map LinkNode.data) := by
  cases op with
  | push t =>
    obtain ⟨buf', out, hPush, hSound, hSame, hData⟩ := h.push t
    refine ⟨buf', ?_, hSound, hSame, hData⟩
    rw [CricularBuffer.queueOp, hPush]
    rfl
  | pop => exact h.pop

/-- **Run**: the operations on a new buffer all succeed and make the queue. -/
theorem foldlM_queueOp [Inhabited T] {size : UInt32} (hSize : 0 < size.toNat)
    (ops : List (QueueOp T)) :
    ∃ buf, ops.foldlM queueOp (init size) = some buf ∧ buf.Sound ∧ buf.bufferSize = size ∧
      buf.dataLst.map LinkNode.data = QueueOp.queue size.toNat ops := by
  induction ops using List.reverseRecOn with
  | nil => exact ⟨init size, rfl, init_sound hSize, rfl, rfl⟩
  | append_singleton ops op ih =>
    obtain ⟨buf, hRun, hSound, hSame, hData⟩ := ih
    obtain ⟨buf', hOp, hSound', hSame', hData'⟩ := hSound.queueOp op
    refine ⟨buf', ?_, hSound', hSame'.trans hSame, ?_⟩
    · rw [List.foldlM_append, hRun]
      simp [hOp]
    · rw [hData', hSame, hData, QueueOp.queue_concat]

/-- **Bounded queue**: a buffer of any size is the queue, its counter of the free nodes as well, after
any pushes and pops exactly if the counter can hold their number. -/
theorem is_queue_iff [Inhabited T] (size : UInt32) (hSize : 1 ≤ size.toNat)
    (ops : List (QueueOp T)) :
    (∃ buf, ops.foldlM queueOp (init size) = some buf ∧ buf.IsQueue size ops) ↔
      size.toNat + 1 < 2 ^ 32 ∨ QueueOp.queue size.toNat ops ≠ [] := by
  obtain ⟨buf, hRun, hSound, hSame, hData⟩ := foldlM_queueOp hSize ops
  have hLength : buf.dataLst.length = (QueueOp.queue size.toNat ops).length := by
    rw [← hData, List.length_map]
  have hDataSize : buf.size.toNat = (QueueOp.queue size.toNat ops).length :=
    hSound.wf.size.trans hLength
  have hTotal := hSound.wf.total
  rw [hSame, hLength] at hTotal
  have hFree := hSound.freeNodeNum
  have hLess := size.toNat_lt
  rw [← List.length_pos_iff]
  constructor
  · rintro ⟨buf', hRun', hQueue⟩
    cases hRun.symm.trans hRun'
    have hCount := hQueue.freeLength
    omega
  · intro hFits
    have hCount : buf.freeNodeNum.toNat = buf.freeLst.length := by omega
    refine ⟨buf, hRun, hData, hDataSize, hSound.wf.freeLst_ne_nil, hCount, ?_, ?_⟩
    · rw [hCount, hDataSize]
      omega
    · intro hSome
      have hLst : buf.dataLst ≠ [] := by
        intro hNil
        rw [← hData, hNil] at hSome
        exact hSome rfl
      rw [hSound.wf.back_eq hLst, hData]
      exact QueueOp.getLast?_queue hSize ops hSome

theorem is_queue_iff_first :
    ∃ buf, [QueueOp.push 1, .push 2, .push 3, .pop].foldlM queueOp (init 2) = some buf ∧
      buf.IsQueue 2 [QueueOp.push 1, .push 2, .push 3, .pop] :=
  (is_queue_iff 2 (by decide) _).mpr (.inl (by decide))

theorem not_isQueue_init [Inhabited T] {size : UInt32} (h : size.toNat + 1 = 2 ^ 32) :
    ¬(init size : CricularBuffer T).IsQueue size [] := by
  intro hQueue
  have hCount := hQueue.freeLength
  rw [init, List.length_map, List.length_range, UInt32.toNat_add, UInt32.toNat_one, h,
    Nat.mod_self] at hCount
  omega

/-- The counter of a new buffer of the greatest size is 0. -/
theorem not_is_queue :
    ¬∀ (size : UInt32), 1 ≤ size.toNat → ∀ ops : List (QueueOp Nat),
      ∃ buf, ops.foldlM queueOp (init size) = some buf ∧ buf.IsQueue size ops := by
  intro h
  obtain ⟨buf, hRun, hQueue⟩ := h 4294967295 (by decide) []
  rw [← Option.some.inj hRun] at hQueue
  exact not_isQueue_init (by decide) hQueue

end CricularBuffer

end DemoCode.FeedProxy
