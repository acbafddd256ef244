import Mathlib.Data.List.MinMax
import DemoCode.Lib.Machine
import DemoCode.FeedProxy.BoundedQueue

/-! `resize` of a `CricularBuffer` in the middle of pushes and pops.  It always keeps the newest
elements; when it takes elements away, it notes how many these were as the number of those that are
left, and leaves the counter of the free nodes alone. -/

namespace DemoCode.FeedProxy

/-- Anything that is done with a buffer; a new size is not 0. -/
inductive RingOp (T : Type) where
  | queue (op : QueueOp T)
  | resize (size : UInt32) (pos : 1 ≤ size.toNat)
  deriving DecidableEq

namespace CricularBuffer

variable {T : Type} {buf : CricularBuffer T}

/-! ### The loops -/

theorem unlink_eq {sum : Nat} {lst : List (LinkNode T)} (h : sum ≤ lst.length) :
    unlink sum lst = some (lst.drop sum) := by
  induction sum generalizing lst with
  | zero => rfl
  | succ sum ih =>
    cases lst with
    | nil => exact absurd h (Nat.not_succ_le_zero sum)
    | cons node lst => exact ih (Nat.le_of_succ_le_succ h)

theorem freshAddr_notMem : buf.freshAddr ∉ (buf.dataLst ++ buf.freeLst).map LinkNode.addr := by
  intro hIn
  have hLe := List.le_max_of_le' 0 (List.mem_append_left (buf.currentInsertNode.toList ++
    buf.currentBackData.toList) hIn) (Nat.le_refl _)
  rw [← List.append_assoc] at hLe
  exact Nat.not_succ_le_self _ hLe

variable [Inhabited T]

/-- New nodes come in front of the free ones. -/
theorem addFree_eq (sum : Nat) (buf : CricularBuffer T)
    (hNodup : ((buf.dataLst ++ buf.freeLst).map LinkNode.addr).Nodup) :
    ∃ nodes : List (LinkNode T), nodes.length = sum ∧
      ((buf.dataLst ++ (nodes ++ buf.freeLst)).map LinkNode.addr).Nodup ∧
      addFree sum buf = { buf with
        freeNodeNum := buf.freeNodeNum + UInt32.ofNat sum
        freeLst := nodes ++ buf.freeLst } := by
  induction sum generalizing buf with
  | zero =>
    refine ⟨[], rfl, hNodup, ?_⟩
    rw [addFree, List.nil_append]
    show buf = { buf with freeNodeNum := buf.freeNodeNum + 0 }
    rw [UInt32.add_zero]
  | succ sum ih =>
    let next : CricularBuffer T := { buf with
      freeNodeNum := buf.freeNodeNum + 1
      freeLst := ⟨buf.freshAddr, default⟩ :: buf.freeLst }
    have hNext : ((next.dataLst ++ next.freeLst).map LinkNode.addr).Nodup := by
      have hNew := List.nodup_cons.mpr ⟨freshAddr_notMem, hNodup⟩
      rw [← List.map_cons (f := LinkNode.addr) (a := (⟨buf.freshAddr, default⟩ : LinkNode T))] at hNew
      exact (List.perm_middle.map LinkNode.addr).nodup_iff.mpr hNew
    obtain ⟨nodes, hLength, hAll, hEq⟩ := ih next hNext
    refine ⟨nodes ++ [⟨buf.freshAddr, default⟩], ?_, ?_, ?_⟩
    · rw [List.length_append, hLength, List.length_singleton]
    · rw [List.append_assoc, List.singleton_append]
      exact hAll
    · rw [addFree, hEq, List.append_assoc, List.singleton_append]
      show _ = { buf with
        freeNodeNum := buf.freeNodeNum + UInt32.ofNat (sum + 1)
        freeLst := nodes ++ next.freeLst }
      rw [UInt32.ofNat_add]
      show { next with
        freeNodeNum := buf.freeNodeNum + 1 + UInt32.ofNat sum
        freeLst := nodes ++ next.freeLst } = _
      rw [UInt32.add_assoc, UInt32.add_comm 1]
      rfl

/-! ### The branches -/

/-- Free nodes go. -/
theorem Sound.resize_smaller (h : buf.Sound) {size : UInt32} (hPos : 1 ≤ size.toNat)
    (hFits : buf.dataSize ≤ size) (hSmaller : size ≤ buf.bufferSize) :
    ∃ buf', buf.resize size = some buf' ∧ buf'.Sound ∧ buf'.bufferSize = size ∧
      buf'.dataLst = buf.dataLst := by
  have hSize := h.wf.size
  have hTotal := h.wf.total
  have hNodup := h.wf.nodup
  have hCounted := h.counted
  have hFitsNat : buf.dataSize.toNat ≤ size.toNat := UInt32.le_iff_toNat_le.mp hFits
  have hSmallerNat := UInt32.le_iff_toNat_le.mp hSmaller
  have hSum : buf.freeNodeNum + buf.dataSize - size - 1 = buf.bufferSize - size := by
    rw [UInt32.add_comm buf.freeNodeNum, hCounted]
    grind
  have hSumNat : (buf.bufferSize - size).toNat = buf.bufferSize.toNat - size.toNat :=
    UInt32.toNat_sub_of_le _ _ hSmaller
  have hUnlink : unlink (buf.bufferSize - size).toNat buf.freeLst =
      some (buf.freeLst.drop (buf.bufferSize - size).toNat) := unlink_eq (by omega)
  refine ⟨{ buf with
    bufferSize := size
    freeNodeNum := size - buf.dataSize + 1
    freeLst := buf.freeLst.drop (buf.bufferSize - size).toNat }, ?_, ⟨⟨hPos, ?_, hSize, ?_, ?_,
      h.wf.insertNode, h.wf.backData⟩, ?_⟩, rfl, rfl⟩
  · rw [resize, if_pos hSmaller, if_pos hFits]
    simp only [hSum, hUnlink, Option.bind_eq_bind, Option.bind_some]
  · apply List.Nodup.sublist _ hNodup
    exact (List.Sublist.append_left (List.drop_sublist _ _) _).map _
  · dsimp only
    omega
  · dsimp only
    rw [List.length_drop]
    omega
  · show buf.dataSize + (size - buf.dataSize + 1) = size + 1
    grind

/-- New nodes come. -/
theorem Sound.resize_larger (h : buf.Sound) {size : UInt32} (hLarger : ¬size ≤ buf.bufferSize) :
    ∃ buf', buf.resize size = some buf' ∧ buf'.Sound ∧ buf'.bufferSize = size ∧
      buf'.dataLst = buf.dataLst := by
  have hSize := h.wf.size
  have hTotal := h.wf.total
  have hNodup := h.wf.nodup
  have hCounted := h.counted
  have hPos := h.wf.pos
  have hGrows : buf.bufferSize.toNat < size.toNat := by
    rw [UInt32.le_iff_toNat_le] at hLarger
    omega
  have hSum : size - buf.dataSize - buf.freeNodeNum + 1 = size - buf.bufferSize := by
    have hFree : buf.freeNodeNum = buf.bufferSize + 1 - buf.dataSize := by
      rw [← hCounted]
      grind
    rw [hFree]
    grind
  have hSumNat : (size - buf.bufferSize).toNat = size.toNat - buf.bufferSize.toNat :=
    UInt32.toNat_sub_of_le _ _ (UInt32.le_iff_toNat_le.mpr (Nat.le_of_lt hGrows))
  obtain ⟨nodes, hLength, hAll, hEq⟩ :=
    addFree_eq (size - buf.bufferSize).toNat { buf with bufferSize := size } hNodup
  refine ⟨{ buf with
    bufferSize := size
    freeNodeNum := buf.freeNodeNum + UInt32.ofNat (size - buf.bufferSize).toNat
    freeLst := nodes ++ buf.freeLst }, ?_, ⟨⟨?_, hAll, hSize, ?_, ?_, h.wf.insertNode,
      h.wf.backData⟩, ?_⟩, rfl, rfl⟩
  · rw [resize, if_neg hLarger]
    dsimp only
    rw [hSum, hEq]
  · dsimp only
    omega
  · dsimp only
    omega
  · dsimp only
    rw [List.length_append, hLength]
    omega
  · show buf.dataSize + (buf.freeNodeNum + UInt32.ofNat (size - buf.bufferSize).toNat) = size + 1
    rw [UInt32.ofNat_toNat, ← UInt32.add_assoc, hCounted]
    grind

/-- The elements are kept. -/
theorem Sound.resize_fits (h : buf.Sound) {size : UInt32} (hPos : 1 ≤ size.toNat)
    (hFits : buf.dataSize ≤ size) :
    ∃ buf', buf.resize size = some buf' ∧ buf'.Sound ∧ buf'.bufferSize = size ∧
      buf'.dataLst = buf.dataLst := by
  by_cases hSmaller : size ≤ buf.bufferSize
  · exact h.resize_smaller hPos hFits hSmaller
  · exact h.resize_larger hSmaller

/-- The oldest elements go; the counters are not what they should be. -/
theorem Sound.resize_cuts (h : buf.Sound) {size : UInt32} (hCuts : ¬buf.dataSize ≤ size) :
    ∃ node, buf.freeLst.getLast? = some node ∧ buf.resize size = some { buf with
      bufferSize := size
      dataSize := buf.dataSize - size
      dataLst := buf.dataLst.drop (buf.dataLst.length - size.toNat)
      freeLst := [node] } := by
  have hSize := h.wf.size
  have hTotal := h.wf.total
  have hBound := h.wf.bound
  have hCount := h.freeNodeNum
  have hLess := buf.bufferSize.toNat_lt
  obtain ⟨front, node, hFree⟩ :=
    List.eq_nil_or_concat buf.freeLst |>.resolve_left h.wf.freeLst_ne_nil
  rw [List.concat_eq_append] at hFree
  have hFreeLength : buf.freeLst.length = front.length + 1 := by
    rw [hFree, List.length_append, List.length_singleton]
  have hCutsNat : size.toNat < buf.dataSize.toNat := by
    rw [UInt32.le_iff_toNat_le] at hCuts
    omega
  have hSmaller : size ≤ buf.bufferSize := UInt32.le_iff_toNat_le.mpr (by omega)
  have hSum : (buf.dataSize - size).toNat = buf.dataLst.length - size.toNat := by
    rw [UInt32.toNat_sub_of_le _ _ (UInt32.le_iff_toNat_le.mpr (by omega)), hSize]
  have hFront : (buf.freeNodeNum - 1).toNat = front.length := by
    rw [UInt32.toNat_sub, UInt32.toNat_one, hCount, hFreeLength]
    omega
  refine ⟨node, by rw [hFree, List.getLast?_concat], ?_⟩
  have hData : unlink (buf.dataLst.length - size.toNat) buf.dataLst =
      some (buf.dataLst.drop (buf.dataLst.length - size.toNat)) := unlink_eq (by omega)
  have hRest : unlink front.length buf.freeLst = some [node] := by
    rw [unlink_eq (by omega), hFree, List.drop_left]
  rw [resize, if_pos hSmaller, if_neg hCuts]
  dsimp only
  rw [hSum, hFront, hData, hRest]
  rfl

/-! ### Runs -/

/-- `resize` keeps the newest elements, and its counters count. -/
def Keeps (buf : CricularBuffer T) (size : UInt32) : Prop :=
  ∃ buf', buf.resize size = some buf' ∧
    buf'.dataLst.map LinkNode.data =
      (buf.dataLst.map LinkNode.data).drop
        (buf.dataLst.length - min buf.dataLst.length size.toNat) ∧
    buf'.size.toNat = buf'.dataLst.length ∧ buf'.freeNodeNum.toNat = buf'.freeLst.length ∧
    buf'.size.toNat + buf'.freeNodeNum.toNat = size.toNat + 1

def ringOp (buf : CricularBuffer T) : RingOp T → Option (CricularBuffer T × Unit)
  | .queue op => (buf.queueOp op).map (·, ())
  | .resize size _ => (buf.resize size).map (·, ())

/-- An operation does not follow a null pointer, and a new size keeps the newest elements. -/
def Serves (buf : CricularBuffer T) : RingOp T → Prop
  | .queue op => (buf.queueOp op).isSome
  | .resize size _ => buf.Keeps size

/-- A new size either holds all of the elements, with a number of free nodes that can be counted, or
is half of the number of elements of a full buffer. -/
def Fits (buf : CricularBuffer T) : RingOp T → Prop
  | .queue _ => True
  | .resize size _ =>
    if buf.dataSize ≤ size then buf.dataSize ≠ 0 ∨ size.toNat + 1 < 2 ^ 32
    else buf.dataSize = buf.bufferSize ∧ buf.dataSize.toNat = 2 * size.toNat

omit [Inhabited T] in
/-- The buffer after a new size that is half of the number of elements. -/
theorem Sound.halved (h : buf.Sound) {size : UInt32} {node : LinkNode T} (hPos : 1 ≤ size.toNat)
    (hNode : buf.freeLst.getLast? = some node) (hFull : buf.dataSize = buf.bufferSize)
    (hHalf : buf.dataSize.toNat = 2 * size.toNat) :
    Sound { buf with
      bufferSize := size
      dataSize := buf.dataSize - size
      dataLst := buf.dataLst.drop (buf.dataLst.length - size.toNat)
      freeLst := [node] } := by
  have hSize := h.wf.size
  have hDouble : buf.dataSize = size + size := by
    apply UInt32.toNat_inj.mp
    have hLess := buf.dataSize.toNat_lt
    rw [UInt32.toNat_add]
    omega
  have hLength : (buf.dataLst.drop (buf.dataLst.length - size.toNat)).length = size.toNat := by
    rw [List.length_drop]
    omega
  have hLast : (buf.dataLst.drop (buf.dataLst.length - size.toNat)).getLast? =
      buf.dataLst.getLast? := by
    rw [List.getLast?_drop, if_neg (by omega)]
  refine ⟨⟨hPos, ?_, ?_, ?_, ?_, ?_, ?_⟩, ?_⟩
  · apply List.Nodup.sublist _ h.wf.nodup
    apply List.Sublist.map
    exact List.Sublist.append (List.drop_sublist _ _)
      (List.singleton_sublist.mpr (List.mem_of_getLast? hNode))
  · dsimp only
    rw [hLength, hDouble, UInt32.add_sub_cancel]
  · exact hLength.le
  · dsimp only
    rw [hLength, List.length_singleton]
  · intro last hIn
    rw [hLast] at hIn
    exact h.wf.insertNode last hIn
  · intro last hIn
    rw [hLast] at hIn
    exact h.wf.backData last hIn
  · have hCounted := h.counted
    rw [← hFull] at hCounted
    have hFree : buf.freeNodeNum = 1 := by grind
    show buf.dataSize - size + buf.freeNodeNum = size + 1
    rw [hFree, hDouble, UInt32.add_sub_cancel]

/-- **Step**: an operation that fits succeeds and leaves the counters right. -/
theorem Sound.ringOp (h : buf.Sound) {op : RingOp T} (hFits : buf.Fits op) :
    ∃ buf' out, buf.ringOp op = some (buf', out) ∧ buf'.Sound := by
  cases op with
  | queue op =>
    obtain ⟨buf', hOp, hSound, -⟩ := h.queueOp op
    exact ⟨buf', (), by rw [CricularBuffer.ringOp, hOp, Option.map_some], hSound⟩
  | resize size hPos =>
    by_cases hKeeps : buf.dataSize ≤ size
    · obtain ⟨buf', hResize, hSound, -⟩ := h.resize_fits hPos hKeeps
      exact ⟨buf', (), by rw [CricularBuffer.ringOp, hResize, Option.map_some], hSound⟩
    · obtain ⟨hFull, hHalf⟩ := (if_neg hKeeps).mp hFits
      obtain ⟨node, hNode, hResize⟩ := h.resize_cuts hKeeps
      exact ⟨_, (), by rw [CricularBuffer.ringOp, hResize, Option.map_some],
        h.halved hPos hNode hFull hHalf⟩

theorem Sound.keeps_iff (h : buf.Sound) {size : UInt32} (hPos : 1 ≤ size.toNat) :
    buf.Keeps size ↔ buf.Fits (.resize size hPos) := by
  have hSize := h.wf.size
  have hTotal := h.wf.total
  have hBound := h.wf.bound
  have hCount := h.freeNodeNum
  have hLess := size.toNat_lt
  have hLessOld := buf.bufferSize.toNat_lt
  have hZero : buf.dataSize ≠ 0 ↔ buf.dataSize.toNat ≠ 0 := (not_congr UInt32.toNat_inj).symm
  by_cases hKeeps : buf.dataSize ≤ size
  · have hKeepsNat := UInt32.le_iff_toNat_le.mp hKeeps
    obtain ⟨buf', hResize, hSound, hSame, hData⟩ := h.resize_fits hPos hKeeps
    have hSize' := hSound.wf.size
    have hTotal' := hSound.wf.total
    have hCount' := hSound.freeNodeNum
    rw [hSame, hData] at hTotal'
    rw [hData] at hSize'
    rw [Fits, if_pos hKeeps, hZero]
    constructor
    · rintro ⟨buf'', hResize', -, -, hFree, -⟩
      cases hResize.symm.trans hResize'
      omega
    · intro hFits
      refine ⟨buf', hResize, ?_, ?_, ?_, ?_⟩
      · rw [hData, Nat.min_eq_left (by omega), Nat.sub_self, List.drop_zero]
      · rw [hData]
        exact hSize'
      · omega
      · rw [CricularBuffer.size]
        omega
  · have hCutsNat : size.toNat < buf.dataSize.toNat := by
      rw [UInt32.le_iff_toNat_le] at hKeeps
      omega
    obtain ⟨node, -, hResize⟩ := h.resize_cuts hKeeps
    have hRest : (buf.dataSize - size).toNat = buf.dataSize.toNat - size.toNat :=
      UInt32.toNat_sub_of_le _ _ (UInt32.le_iff_toNat_le.mpr (by omega))
    have hLength : (buf.dataLst.drop (buf.dataLst.length - size.toNat)).length = size.toNat := by
      rw [List.length_drop]
      omega
    rw [Fits, if_neg hKeeps, ← UInt32.toNat_inj (a := buf.dataSize) (b := buf.bufferSize)]
    constructor
    · rintro ⟨buf', hResize', -, hSize', hFree, -⟩
      cases hResize.symm.trans hResize'
      rw [CricularBuffer.size, hRest, hLength] at hSize'
      have hOne : buf.freeNodeNum.toNat = 1 := hFree
      omega
    · rintro ⟨hFull, hHalf⟩
      refine ⟨_, hResize, ?_, ?_, ?_, ?_⟩
      · rw [Nat.min_eq_right (by omega)]
        exact List.map_drop
      · rw [CricularBuffer.size, hRest, hLength]
        omega
      · show buf.freeNodeNum.toNat = 1
        omega
      · rw [CricularBuffer.size, hRest]
        show _ + buf.freeNodeNum.toNat = _
        omega

theorem Sound.serves_iff (h : buf.Sound) (op : RingOp T) : buf.Serves op ↔ buf.Fits op := by
  cases op with
  | queue op =>
    obtain ⟨buf', hOp, -⟩ := h.queueOp op
    exact iff_of_true (Option.isSome_iff_exists.mpr ⟨buf', hOp⟩) trivial
  | resize size hPos => exact h.keeps_iff hPos

/-- **Resize**: in any run on a buffer of any size, every operation succeeds and every new size keeps
the newest elements and the counters exactly if every new size fits. -/
theorem resizes_iff (bufferSize : UInt32) (hSize : 1 ≤ bufferSize.toNat) (ops : List (RingOp T)) :
    ((∃ t outs, Machine.run ringOp (init bufferSize) ops = some (t, outs)) ∧
        Machine.Along ringOp Serves (init bufferSize) ops) ↔
      Machine.Along ringOp Fits (init bufferSize) ops := by
  have hStart : (init bufferSize : CricularBuffer T).Sound := init_sound hSize
  have hAgree : Machine.Along ringOp Serves (init bufferSize) ops ↔
      Machine.Along ringOp Fits (init bufferSize) ops := by
    apply Machine.along_iff (I := Sound) (fun h => h.serves_iff _) _ hStart
    intro buf op buf' out h hFits hOp
    obtain ⟨next, out', hNext, hSound⟩ := h.ringOp hFits
    cases hOp.symm.trans hNext
    exact hSound
  rw [hAgree, and_iff_right_iff_imp]
  intro hAlong
  obtain ⟨t, outs, hRun, -⟩ :=
    Machine.run_returns (I := Sound) (fun h hFits => h.ringOp hFits) hStart hAlong
  exact ⟨t, outs, hRun⟩

theorem resizes_iff_first :
    ((∃ t outs, Machine.run ringOp (init 2) [RingOp.queue (.push 1), .queue (.push 2),
        .resize 1 (by decide), .resize 4 (by decide)] = some (t, outs)) ∧
        Machine.Along ringOp Serves (init 2) [RingOp.queue (.push 1), .queue (.push 2),
          .resize 1 (by decide), .resize 4 (by decide)]) ↔
      Machine.Along ringOp Fits (init 2) [RingOp.queue (.push 1), .queue (.push 2),
        .resize 1 (by decide), .resize 4 (by decide)] :=
  resizes_iff 2 (by decide) _

/-- Of three elements the newest one is kept, and two are counted. -/
theorem not_resizes :
    ¬∀ (bufferSize : UInt32), 1 ≤ bufferSize.toNat → ∀ ops : List (RingOp Nat),
      ∀ t outs, Machine.run ringOp (init bufferSize) ops = some (t, outs) →
        ∀ size : UInt32, 1 ≤ size.toNat → t.Keeps size := by
  intro h
  obtain ⟨buf', hResize, -, hSize, -⟩ :=
    h 4 (by decide) [.queue (.push 1), .queue (.push 2), .queue (.push 3)] _ _ rfl 1 (by decide)
  cases hResize
  exact absurd hSize (by decide)

end CricularBuffer

end DemoCode.FeedProxy
