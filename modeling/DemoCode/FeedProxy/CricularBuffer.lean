import Mathlib.Algebra.Group.Nat.Defs
import Mathlib.Data.List.Nodup

/-! `CricularBuffer` of `eddid_cricular_buffer.h`: a chain of nodes with data and a chain of free
nodes.  A push takes a free node for the newest data and frees the node of the oldest when there is
too much. -/

namespace DemoCode.FeedProxy

/-- `ST_LINK_NODE` at its address; a chain of them is a list. -/
structure LinkNode (T : Type) where
  addr : Nat
  data : T
  deriving DecidableEq, Repr

/-- `CricularBuffer`; the weak pointers are addresses. -/
structure CricularBuffer (T : Type) where
  bufferSize : UInt32
  dataSize : UInt32
  freeNodeNum : UInt32
  dataLst : List (LinkNode T)
  freeLst : List (LinkNode T)
  currentInsertNode : Option Nat
  currentBackData : Option Nat
  deriving DecidableEq, Repr

/-- Writing `next` of a node of a chain: the node behind it is now `node`, and the last. -/
def linkAfter {T : Type} (current : Option Nat) (node : LinkNode T) :
    List (LinkNode T) → Option (List (LinkNode T))
  | [] => none
  | first :: rest =>
    if some first.addr = current then some [first, node]
    else (linkAfter current node rest).map (first :: ·)

/-- Writing the data of a node of a chain. -/
def writeData {T : Type} (addr : Nat) (f : T → T) (lst : List (LinkNode T)) : List (LinkNode T) :=
  lst.map fun node => if node.addr = addr then { node with data := f node.data } else node

variable {T : Type}

theorem linkAfter_last {front : List (LinkNode T)} {last node : LinkNode T}
    (h : last.addr ∉ front.map LinkNode.addr) :
    linkAfter (some last.addr) node (front ++ [last]) = some (front ++ [last] ++ [node]) := by
  induction front with
  | nil => exact if_pos rfl
  | cons first front ih =>
    rw [List.map_cons, List.mem_cons, not_or] at h
    have hOther : some first.addr ≠ some last.addr := fun hEq => h.1 (Option.some.inj hEq).symm
    rw [List.cons_append, linkAfter, if_neg hOther, ih h.2]
    rfl

theorem writeData_of_not_mem {addr : Nat} {lst : List (LinkNode T)} (f : T → T)
    (h : addr ∉ lst.map LinkNode.addr) : writeData addr f lst = lst := by
  apply (List.map_congr_left _).trans (List.map_id lst)
  intro node hIn
  have hOther : node.addr ≠ addr := fun hEq => h (hEq ▸ List.mem_map_of_mem hIn)
  exact if_neg hOther

namespace CricularBuffer

/-- The constructor. -/
def init [Inhabited T] (bufferSize : UInt32) : CricularBuffer T where
  bufferSize
  dataSize := 0
  freeNodeNum := bufferSize + 1
  dataLst := []
  freeLst := (List.range (bufferSize.toNat + 1)).map fun addr => ⟨addr, default⟩
  currentInsertNode := none
  currentBackData := none

/-- `push`, with the data it destroys. -/
def push [Inhabited T] (buf : CricularBuffer T) (t : T) : Option (CricularBuffer T × List T) :=
  match buf.freeLst with
  | [] => none
  | free :: freeLst =>
    let node := { free with data := t }
    let freeNodeNum := buf.freeNodeNum - 1
    match buf.dataLst with
    | [] =>
      some ({ buf with
        dataSize := buf.dataSize + 1
        freeNodeNum
        dataLst := [node]
        freeLst
        currentInsertNode := some node.addr
        currentBackData := some node.addr }, [free.data])
    | _ :: _ =>
      match linkAfter buf.currentInsertNode node buf.dataLst with
      | none => none
      | some dataLst =>
        let linked := { buf with
          freeNodeNum
          dataLst
          freeLst
          currentInsertNode := some node.addr
          currentBackData := some node.addr }
        if buf.dataSize ≥ buf.bufferSize then
          match dataLst with
          | [] => none
          | oldest :: dataLst =>
            some ({ linked with
              freeNodeNum := freeNodeNum + 1
              dataLst
              freeLst := { oldest with data := default } :: freeLst }, [free.data, oldest.data])
        else
          some ({ linked with dataSize := buf.dataSize + 1 }, [free.data])

/-- A change of `back()`. -/
def modifyBack (buf : CricularBuffer T) (f : T → T) : Option (CricularBuffer T) :=
  match buf.currentBackData with
  | none => none
  | some addr =>
    if addr ∈ (buf.dataLst ++ buf.freeLst).map LinkNode.addr then
      some { buf with
        dataLst := writeData addr f buf.dataLst
        freeLst := writeData addr f buf.freeLst }
    else
      none

/-- `size()`. -/
def size (buf : CricularBuffer T) : UInt32 := buf.dataSize

/-- `back()`. -/
def back (buf : CricularBuffer T) : Option T :=
  match buf.currentBackData with
  | none => none
  | some addr =>
    ((buf.dataLst ++ buf.freeLst).find? fun node => node.addr = addr).map LinkNode.data

/-- `pop`; the node keeps its data. -/
def pop (buf : CricularBuffer T) : Option (CricularBuffer T) :=
  if buf.dataSize = 0 then
    some buf
  else
    match buf.dataLst with
    | [] => none
    | node :: dataLst =>
      some { buf with
        dataSize := buf.dataSize - 1
        freeNodeNum := buf.freeNodeNum + 1
        dataLst
        freeLst := node :: buf.freeLst }

/-- A loop of `resize` that takes nodes off the front of a chain. -/
def unlink : Nat → List (LinkNode T) → Option (List (LinkNode T))
  | 0, lst => some lst
  | _ + 1, [] => none
  | sum + 1, _ :: lst => unlink sum lst

/-- An address that no node has and no weak pointer names. -/
def freshAddr (buf : CricularBuffer T) : Nat :=
  ((buf.dataLst ++ buf.freeLst).map LinkNode.addr ++ buf.currentInsertNode.toList ++
    buf.currentBackData.toList).foldr max 0 + 1

/-- The loop of `resize` that puts new nodes in front of the free ones. -/
def addFree [Inhabited T] : Nat → CricularBuffer T → CricularBuffer T
  | 0, buf => buf
  | sum + 1, buf =>
    addFree sum { buf with
      freeNodeNum := buf.freeNodeNum + 1
      freeLst := ⟨buf.freshAddr, default⟩ :: buf.freeLst }

/-- `resize`. -/
def resize [Inhabited T] (buf : CricularBuffer T) (size : UInt32) : Option (CricularBuffer T) :=
  if size ≤ buf.bufferSize then
    if buf.dataSize ≤ size then do
      let sum := buf.freeNodeNum + buf.dataSize - size - 1
      let freeLst ← unlink sum.toNat buf.freeLst
      some { buf with bufferSize := size, freeNodeNum := size - buf.dataSize + 1, freeLst }
    else do
      let sum := buf.dataSize - size
      let dataLst ← unlink sum.toNat buf.dataLst
      let freeLst ← unlink (buf.freeNodeNum - 1).toNat buf.freeLst
      some { buf with bufferSize := size, dataSize := sum, dataLst, freeLst }
  else
    let sum := size - buf.dataSize - buf.freeNodeNum + 1
    some (addFree sum.toNat { buf with bufferSize := size })

/-- The data, the newest first. -/
def contents (buf : CricularBuffer T) : List T := (buf.dataLst.map LinkNode.data).reverse

/-- The chains share no node and have one more than the buffer's size, and the current node is the
last one with data. -/
structure Wf (buf : CricularBuffer T) : Prop where
  pos : 0 < buf.bufferSize.toNat
  nodup : ((buf.dataLst ++ buf.freeLst).map LinkNode.addr).Nodup
  size : buf.dataSize.toNat = buf.dataLst.length
  bound : buf.dataLst.length ≤ buf.bufferSize.toNat
  total : buf.dataLst.length + buf.freeLst.length = buf.bufferSize.toNat + 1
  insertNode : ∀ node ∈ buf.dataLst.getLast?, buf.currentInsertNode = some node.addr
  backData : ∀ node ∈ buf.dataLst.getLast?, buf.currentBackData = some node.addr

/-- The free nodes hold nothing. -/
def Cleared [Inhabited T] (buf : CricularBuffer T) : Prop := ∀ node ∈ buf.freeLst, node.data = default

theorem init_wf [Inhabited T] {bufferSize : UInt32} (h : 0 < bufferSize.toNat) :
    (init bufferSize : CricularBuffer T).Wf where
  pos := h
  nodup := by
    simp only [init, List.nil_append, List.map_map]
    exact List.nodup_range.map fun _ _ hEq => hEq
  size := rfl
  bound := Nat.zero_le _
  total := by simp [init]
  insertNode := by
    intro node hIn
    cases hIn
  backData := by
    intro node hIn
    cases hIn

theorem init_cleared [Inhabited T] (bufferSize : UInt32) :
    (init bufferSize : CricularBuffer T).Cleared := by
  intro node hIn
  obtain ⟨addr, -, rfl⟩ := List.mem_map.mp hIn
  rfl

theorem Wf.of_concat {buf : CricularBuffer T} {lst : List (LinkNode T)} {node : LinkNode T}
    (hLst : buf.dataLst = lst ++ [node]) (hInsert : buf.currentInsertNode = some node.addr)
    (hBack : buf.currentBackData = some node.addr) (pos : 0 < buf.bufferSize.toNat)
    (nodup : ((buf.dataLst ++ buf.freeLst).map LinkNode.addr).Nodup)
    (size : buf.dataSize.toNat = buf.dataLst.length)
    (bound : buf.dataLst.length ≤ buf.bufferSize.toNat)
    (total : buf.dataLst.length + buf.freeLst.length = buf.bufferSize.toNat + 1) : buf.Wf := by
  refine ⟨pos, nodup, size, bound, total, ?_, ?_⟩
  · intro last hIn
    rw [hLst, List.getLast?_concat] at hIn
    cases hIn
    exact hInsert
  · intro last hIn
    rw [hLst, List.getLast?_concat] at hIn
    cases hIn
    exact hBack

/-- The last node with data, which the weak pointers name, is no other node. -/
theorem Wf.last {buf : CricularBuffer T} (h : buf.Wf) (hSome : buf.dataLst ≠ []) :
    ∃ front last, buf.dataLst = front ++ [last] ∧ buf.currentInsertNode = some last.addr ∧
      buf.currentBackData = some last.addr ∧ last.addr ∉ front.map LinkNode.addr ∧
      last.addr ∉ buf.freeLst.map LinkNode.addr := by
  obtain ⟨front, last, hLst⟩ := List.eq_nil_or_concat buf.dataLst |>.resolve_left hSome
  rw [List.concat_eq_append] at hLst
  have hIn : last ∈ buf.dataLst.getLast? := by
    rw [hLst, List.getLast?_concat]
    rfl
  have hNodup := h.nodup
  rw [hLst, List.map_append, List.map_append, List.nodup_append, List.nodup_append] at hNodup
  obtain ⟨⟨-, -, hFront⟩, -, hFree⟩ := hNodup
  refine ⟨front, last, hLst, h.insertNode last hIn, h.backData last hIn, ?_, ?_⟩
  · exact fun hMem => hFront _ hMem _ (List.mem_singleton_self _) rfl
  · exact fun hMem => hFree _ (List.mem_append_right _ (List.mem_singleton_self _)) _ hMem rfl

theorem Wf.link {buf : CricularBuffer T} (h : buf.Wf) (hSome : buf.dataLst ≠ [])
    (node : LinkNode T) :
    linkAfter buf.currentInsertNode node buf.dataLst = some (buf.dataLst ++ [node]) := by
  obtain ⟨front, last, hLst, hInsert, -, hFront, -⟩ := h.last hSome
  rw [hInsert, hLst]
  exact linkAfter_last hFront

/-! ### The branches of a push -/

section

variable [Inhabited T] {buf : CricularBuffer T} {free : LinkNode T} {freeLst : List (LinkNode T)}

/-- There is room for one more. -/
theorem Wf.push_room (h : buf.Wf) (hFree : buf.freeLst = free :: freeLst)
    (hRoom : ¬buf.dataSize ≥ buf.bufferSize) (t : T) :
    ∃ buf', buf.push t = some (buf', [free.data]) ∧ buf'.Wf ∧ buf'.bufferSize = buf.bufferSize ∧
      buf'.freeLst = freeLst ∧ buf'.dataLst = buf.dataLst ++ [{ free with data := t }] := by
  have hPush : buf.push t = some ({ buf with
      dataSize := buf.dataSize + 1
      freeNodeNum := buf.freeNodeNum - 1
      dataLst := buf.dataLst ++ [{ free with data := t }]
      freeLst
      currentInsertNode := some free.addr
      currentBackData := some free.addr }, [free.data]) := by
    rcases hLst : buf.dataLst with _ | ⟨first, rest⟩
    · simp only [push, hFree, hLst, List.nil_append]
    · have hLink := h.link (hLst ▸ List.cons_ne_nil _ _) { free with data := t }
      rw [hLst] at hLink
      simp only [push, hFree, hLst, hLink, if_neg hRoom]
  refine ⟨_, hPush, ?_, rfl, rfl, rfl⟩
  have hSize := h.size
  have hTotal := h.total
  have hNodup := h.nodup
  rw [ge_iff_le, UInt32.le_iff_toNat_le] at hRoom
  rw [hFree] at hNodup hTotal
  rw [List.length_cons] at hTotal
  have hLess := buf.bufferSize.toNat_lt
  refine .of_concat rfl rfl rfl h.pos ?_ ?_ ?_ ?_
  · dsimp only
    rw [List.append_assoc, List.singleton_append]
    simpa only [List.map_append, List.map_cons] using hNodup
  · rw [List.length_append, List.length_singleton, ← hSize, UInt32.toNat_add]
    exact Nat.mod_eq_of_lt (by show _ + 1 < _; omega)
  · rw [List.length_append, List.length_singleton]
    dsimp only
    omega
  · rw [List.length_append, List.length_singleton]
    dsimp only
    omega

/-- The oldest data goes, and its node is free again. -/
theorem Wf.push_full {oldest : LinkNode T} {dataLst : List (LinkNode T)} (h : buf.Wf)
    (hFree : buf.freeLst = free :: freeLst) (hFull : buf.dataSize ≥ buf.bufferSize)
    (hOldest : buf.dataLst = oldest :: dataLst) (t : T) :
    ∃ buf', buf.push t = some (buf', [free.data, oldest.data]) ∧ buf'.Wf ∧
      buf'.bufferSize = buf.bufferSize ∧ buf'.freeLst = { oldest with data := default } :: freeLst ∧
      buf'.dataLst = dataLst ++ [{ free with data := t }] := by
  have hLink := h.link (hOldest ▸ List.cons_ne_nil _ _) { free with data := t }
  rw [hOldest, List.cons_append] at hLink
  have hPush : buf.push t = some ({ buf with
      freeNodeNum := buf.freeNodeNum - 1 + 1
      dataLst := dataLst ++ [{ free with data := t }]
      freeLst := { oldest with data := default } :: freeLst
      currentInsertNode := some free.addr
      currentBackData := some free.addr }, [free.data, oldest.data]) := by
    simp only [push, hFree, hOldest, hLink, if_pos hFull]
  refine ⟨_, hPush, ?_, rfl, rfl, rfl⟩
  have hSize := h.size
  have hBound := h.bound
  have hTotal := h.total
  have hNodup := h.nodup
  rw [hOldest] at hSize hBound hTotal hNodup
  rw [hFree] at hTotal hNodup
  refine .of_concat rfl rfl rfl h.pos ?_ ?_ ?_ ?_
  -- the node that is filled and the oldest one change places
  · have hMoved : ((dataLst.map LinkNode.addr ++ [free.addr]) ++
        (oldest.addr :: freeLst.map LinkNode.addr)).Perm
        ((oldest :: dataLst ++ free :: freeLst).map LinkNode.addr) := by
      rw [List.map_append, List.map_cons, List.map_cons, List.append_assoc,
        List.singleton_append, List.cons_append]
      exact (List.Perm.append_left _ (List.Perm.swap ..)).trans List.perm_middle
    simpa using hMoved.nodup_iff.mpr hNodup
  · rw [List.length_append, List.length_singleton]
    exact hSize
  · rw [List.length_append, List.length_singleton]
    exact hBound
  · rw [List.length_cons, List.length_cons] at hTotal
    rw [List.length_append, List.length_singleton, List.length_cons]
    omega

end

/-- **Push**: the newest data comes first, what is above the buffer's size goes, and so does what the
free node held. -/
theorem Wf.push [Inhabited T] {buf : CricularBuffer T} (h : buf.Wf) (hClear : buf.Cleared) (t : T) :
    ∃ buf', buf.push t =
        some (buf', default :: (t :: buf.contents).drop buf.bufferSize.toNat) ∧
      buf'.Wf ∧ buf'.Cleared ∧ buf'.bufferSize = buf.bufferSize ∧
      buf'.contents = (t :: buf.contents).take buf.bufferSize.toNat := by
  have hPos := h.pos
  have hSize := h.size
  have hBound := h.bound
  have hTotal := h.total
  have hLength : buf.contents.length = buf.dataLst.length := by
    rw [contents, List.length_reverse, List.length_map]
  rcases hFree : buf.freeLst with _ | ⟨free, freeLst⟩
  · rw [hFree, List.length_nil] at hTotal
    omega
  have hDefault : free.data = default := hClear free (hFree ▸ List.mem_cons_self)
  have hRest : ∀ node ∈ freeLst, node.data = default :=
    fun node hIn => hClear node (hFree ▸ List.mem_cons_of_mem _ hIn)
  by_cases hFull : buf.dataSize ≥ buf.bufferSize
  · have hAtLimit : buf.dataLst.length = buf.bufferSize.toNat := by
      rw [ge_iff_le, UInt32.le_iff_toNat_le] at hFull
      omega
    obtain ⟨oldest, dataLst, hOldest⟩ :=
      List.exists_cons_of_ne_nil (List.ne_nil_of_length_pos (show 0 < buf.dataLst.length by omega))
    obtain ⟨buf', hPush, hWf, hSame, hFreed, hData⟩ := h.push_full hFree hFull hOldest t
    rw [hOldest, List.length_cons] at hAtLimit
    have hContents : buf.contents = (dataLst.map LinkNode.data).reverse ++ [oldest.data] := by
      rw [contents, hOldest, List.map_cons, List.reverse_cons]
    have hShort : (t :: (dataLst.map LinkNode.data).reverse).length = buf.bufferSize.toNat := by
      rw [List.length_cons, List.length_reverse, List.length_map, hAtLimit]
    rw [hContents, ← List.cons_append, List.drop_left' hShort, List.take_left' hShort, ← hDefault]
    refine ⟨buf', hPush, hWf, ?_, hSame, ?_⟩
    · intro node hIn
      rw [hFreed] at hIn
      rcases List.mem_cons.mp hIn with rfl | hIn
      · rfl
      · exact hRest node hIn
    · rw [contents, hData]
      simp
  · obtain ⟨buf', hPush, hWf, hSame, hFreed, hData⟩ := h.push_room hFree hFull t
    rw [ge_iff_le, UInt32.le_iff_toNat_le] at hFull
    have hShort : (t :: buf.contents).length ≤ buf.bufferSize.toNat := by
      rw [List.length_cons, hLength]
      omega
    rw [List.drop_eq_nil_of_le hShort, List.take_of_length_le hShort, ← hDefault]
    refine ⟨buf', hPush, hWf, ?_, hSame, ?_⟩
    · rw [Cleared, hFreed]
      exact hRest
    · rw [contents, hData, contents]
      simp

theorem Wf.contents_eq_nil {buf : CricularBuffer T} (h : buf.Wf) (hEmpty : buf.dataSize = 0) :
    buf.contents = [] := by
  have hSize := h.size
  rw [hEmpty] at hSize
  rw [contents, List.eq_nil_of_length_eq_zero hSize.symm]
  rfl

theorem Wf.contents_ne_nil {buf : CricularBuffer T} (h : buf.Wf) (hSome : buf.dataSize ≠ 0) :
    buf.contents ≠ [] := by
  intro hNil
  rw [contents, List.reverse_eq_nil_iff, List.map_eq_nil_iff] at hNil
  have hSize := h.size
  rw [hNil] at hSize
  exact hSome (UInt32.toNat_inj.mp hSize)

/-- **Back**: a change of the newest data. -/
theorem Wf.modifyBack {buf : CricularBuffer T} (h : buf.Wf) {x : T} {rest : List T}
    (hContents : buf.contents = x :: rest) (f : T → T) :
    ∃ buf', buf.modifyBack f = some buf' ∧ buf'.Wf ∧ buf'.bufferSize = buf.bufferSize ∧
      buf'.freeLst = buf.freeLst ∧ buf'.contents = f x :: rest := by
  have hSome : buf.dataLst ≠ [] := by
    intro hNil
    rw [contents, hNil] at hContents
    cases hContents
  obtain ⟨front, last, hLst, hInsert, hBack, hFront, hFree⟩ := h.last hSome
  have hWrite : writeData last.addr f buf.dataLst = front ++ [{ last with data := f last.data }] := by
    rw [hLst, writeData, List.map_append, ← writeData, writeData_of_not_mem f hFront]
    simp
  have hIn : last.addr ∈ (buf.dataLst ++ buf.freeLst).map LinkNode.addr := by
    rw [hLst]
    simp
  have hNodup := h.nodup
  have hSize := h.size
  have hBound := h.bound
  have hTotal := h.total
  rw [hLst] at hNodup hSize hBound hTotal
  rw [contents, hLst, List.map_append, List.reverse_append] at hContents
  obtain ⟨rfl, rfl⟩ := List.cons.inj hContents
  refine ⟨{ buf with dataLst := front ++ [{ last with data := f last.data }] }, ?_, ?_, rfl, rfl, ?_⟩
  · simp only [CricularBuffer.modifyBack, hBack, if_pos hIn, hWrite, writeData_of_not_mem f hFree]
  · refine .of_concat rfl hInsert hBack h.pos ?_ ?_ ?_ ?_
    · simpa using hNodup
    · simpa using hSize
    · simpa using hBound
    · simpa using hTotal
  · simp [contents]

end CricularBuffer

end DemoCode.FeedProxy
