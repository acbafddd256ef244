import DemoCode.Uws.Frames

/-! What `consumeMessage` and `consumeContinuation` do with a frame in the buffer, in the terms of the
decoder of frames: a frame that is there, the first part of one, a further part, and the last. -/

namespace DemoCode.Uws

open WebSocket

variable {σ : Type} {g : Group σ} {isServer : Bool} {w x v : WebSocket σ} {b c : List UInt8}
  {b0 b1 : UInt8} {header payload n : ℕ} {s : WebSocketState}

/-! ### Heads -/

theorem checkHead_keeping {fb : List UInt8} {tip : ℕ} :
    checkHead b0 b1 (w.keeping s fb tip) = (checkHead b0 b1 w).map (·.keeping s fb tip) := by
  unfold checkHead setCompressed
  cases hRsv : rsv1 b0 with
  | false =>
    simp only [Bool.false_eq_true, if_false, Option.bind_eq_bind, Option.bind_some]
    split
    · rfl
    · rfl
  | true =>
    simp only [if_true]
    by_cases hStatus : w.compressionStatus = .enabled
    · simp only [keeping, hStatus, if_true, Option.bind_eq_bind, Option.bind_some]
      split
      · rfl
      · rfl
    · simp only [keeping, hStatus, if_false, Option.bind_eq_bind, Option.bind_none, Option.map_none]

/-- A head that passes is of a data frame, or of a short control frame that is whole. -/
theorem checkHead_some (h : checkHead b0 b1 w = some v) :
    v = { w with compressionStatus := v.compressionStatus } ∧
      (rsv1 b0 = true ∧ w.compressionStatus = .enabled ∧ v.compressionStatus = .compressedFrame ∨
        rsv1 b0 = false ∧ v = w) ∧
      (getOpCode b0 < 3 ∨ isFin b0 = true ∧ payloadLength b1 < 126) := by
  have hOp : ∀ {y : WebSocket σ}, (if (rsv23 b0 || (2 < getOpCode b0 && getOpCode b0 < 8) ||
      10 < getOpCode b0 || (2 < getOpCode b0 && (!isFin b0 || 125 < payloadLength b1))) then none
      else some y) = some v →
      v = y ∧ (getOpCode b0 < 3 ∨ isFin b0 = true ∧ payloadLength b1 < 126) := by
    intro y h
    split at h
    · cases h
    · rename_i hCond
      cases h
      refine ⟨rfl, ?_⟩
      simp only [Bool.or_eq_true, Bool.and_eq_true, decide_eq_true_eq, Bool.not_eq_true',
        not_or, not_and, Bool.not_eq_false] at hCond
      grind
  unfold checkHead at h
  cases hRsv : rsv1 b0 with
  | false =>
    simp only [hRsv, Bool.false_eq_true, if_false, Option.bind_eq_bind, Option.bind_some] at h
    obtain ⟨rfl, hCode⟩ := hOp h
    exact ⟨rfl, Or.inr ⟨rfl, rfl⟩, hCode⟩
  | true =>
    simp only [hRsv, if_true, setCompressed] at h
    by_cases hStatus : w.compressionStatus = .enabled
    · simp only [hStatus, if_true, Option.bind_eq_bind, Option.bind_some] at h
      obtain ⟨rfl, hCode⟩ := hOp h
      exact ⟨rfl, Or.inl ⟨rfl, hStatus, rfl⟩, hCode⟩
    · simp [hStatus] at h

/-- The test of a compressed head does not pass twice. -/
theorem checkHead_again (hRsv : rsv1 b0 = true) (h : w.compressionStatus = .compressedFrame) :
    checkHead b0 b1 w = none := by
  simp [checkHead, setCompressed, hRsv, h]

theorem startMessage_atHead {fb : List UInt8} {tip : ℕ} :
    startMessage g b0 n (w.keeping w.atHead fb tip) =
      (startMessage g b0 n w).map fun x => x.keeping x.atHead fb tip := by
  unfold startMessage
  by_cases hMax : g.maxPayload.toNat < n
  · by_cases hOp : getOpCode b0 = 0
    · by_cases hStack : w.opStack = [] <;>
        simp [keeping, WebSocketState.atHead, hOp, hStack, hMax]
    · by_cases hStack : w.opStack.length = 2 ∨ (w.lastFin = false ∧ getOpCode b0 < 2) <;>
        simp [keeping, WebSocketState.atHead, hOp, hStack, hMax]
  · by_cases hOp : getOpCode b0 = 0
    · by_cases hStack : w.opStack = [] <;>
        simp [keeping, WebSocketState.atHead, hOp, hStack, hMax]
    · by_cases hStack : w.opStack.length = 2 ∨ (w.lastFin = false ∧ getOpCode b0 < 2) <;>
        simp [keeping, WebSocketState.atHead, hOp, hStack, hMax]

theorem startMessage_some (h : startMessage g b0 n w = some x) :
    x = { w with opStack := x.opStack, lastFin := isFin b0 } ∧ x.opStack ≠ [] ∧
      (getOpCode b0 = 0 ∧ x.opStack = w.opStack ∨ x.opStack = getOpCode b0 :: w.opStack) ∧
      n ≤ g.maxPayload.toNat := by
  unfold startMessage at h
  by_cases hOp : getOpCode b0 ≠ 0
  · rw [if_pos hOp] at h
    by_cases hStack : w.opStack.length = 2 ∨ (w.lastFin = false ∧ getOpCode b0 < 2)
    · simp [hStack] at h
    · simp only [hStack, if_false, Option.bind_eq_bind, Option.bind_some] at h
      split at h
      · cases h
      · cases h
        exact ⟨rfl, by simp, Or.inr rfl, by omega⟩
  · rw [if_neg hOp] at h
    by_cases hStack : w.opStack = []
    · simp [hStack] at h
    · simp only [hStack, if_false, Option.bind_eq_bind, Option.bind_some] at h
      split at h
      · cases h
      · cases h
        exact ⟨rfl, hStack, Or.inl ⟨not_not.mp hOp, rfl⟩, by omega⟩

/-! ### Between two frames, and in a frame -/

/-- A connection between two frames. -/
structure Ready (w : WebSocket σ) : Prop where
  isOpen : w.ended = false
  tip : w.controlTipLength = 0
  pong : w.hasOutstandingPong = false
  stack : ∀ o ∈ w.opStack, o < 3

theorem Ready.settle_eq (h : Ready w) : w.settle = w.keeping w.atHead w.fragmentBuffer 0 := by
  rw [settle_of_open h.isOpen]
  obtain ⟨_, tip, pong, -⟩ := h
  cases w
  simp only at tip pong
  subst tip pong
  rfl

theorem Ready.settle (h : Ready w) : Ready w.settle := by
  rw [h.settle_eq]
  exact ⟨h.isOpen, rfl, h.pong, h.stack⟩

/-- A connection whose frame is on the stack. -/
structure Started (g : Group σ) (x : WebSocket σ) (b0 : UInt8) (payload : ℕ) : Prop where
  isOpen : x.ended = false
  tip : x.controlTipLength = 0
  pong : x.hasOutstandingPong = false
  lastFin : x.lastFin = isFin b0
  stack_ne : x.opStack ≠ []
  stack : ∀ o ∈ (if isFin b0 then x.opStack.tail else x.opStack), o < 3
  control : ¬x.opStack.headD 0 < 3 → isFin b0 = true ∧ payload < 126
  small : payload ≤ g.maxPayload.toNat

theorem Ready.started (hw : Ready w) (h : front g isServer w b = .frame x header payload) :
    Started g x (b.getD 0 0) payload := by
  obtain ⟨-, -, -, hPayload, v, hCheck, hStart⟩ := of_front_frame h
  obtain ⟨hv, -, hCode⟩ := checkHead_some hCheck
  obtain ⟨hx, hNe, hStack, hSmall⟩ := startMessage_some hStart
  have hvStack : v.opStack = w.opStack := by rw [hv]
  have hxStack : ∀ o ∈ x.opStack.tail, o < 3 := by
    rcases hStack with ⟨-, hEq⟩ | hEq
    · intro o ho
      rw [hEq, hvStack] at ho
      exact hw.stack o (List.mem_of_mem_tail ho)
    · rw [hEq, List.tail_cons, hvStack]
      exact hw.stack
  have hControl : ¬x.opStack.headD 0 < 3 → isFin (b.getD 0 0) = true ∧ payload < 126 := by
    intro hHead
    have hPush : x.opStack = getOpCode (b.getD 0 0) :: v.opStack := by
      rcases hStack with ⟨-, hEq⟩ | hEq
      · refine absurd ?_ hHead
        rw [hEq, hvStack] at hNe ⊢
        cases hOp : w.opStack with
        | nil => exact absurd hOp hNe
        | cons o os => exact hw.stack o (by simp [hOp])
      · exact hEq
    rw [hPush, List.headD_cons] at hHead
    obtain ⟨hFin, hLength⟩ := hCode.resolve_left hHead
    refine ⟨hFin, ?_⟩
    rw [hPayload, statedLength, if_pos hLength]
    exact hLength
  have hOpen : x.ended = false := by
    rw [hx, hv]
    exact hw.isOpen
  refine ⟨hOpen, ?_, ?_, by rw [hx], hNe, ?_, hControl, hSmall⟩
  · rw [hx, hv]
    exact hw.tip
  · rw [hx, hv]
    exact hw.pong
  · split
    · exact hxStack
    · rename_i hFin
      have hHead := not_imp_comm.mp hControl fun h => hFin h.1
      cases hOp : x.opStack with
      | nil => simp
      | cons o os =>
        rw [hOp] at hHead hxStack
        simp only [List.mem_cons, forall_eq_or_imp]
        exact ⟨hHead, hxStack⟩

theorem Ready.front_settle (hw : Ready w) :
    front g isServer w.settle b =
      (front g isServer w b).map fun x => x.keeping x.atHead x.fragmentBuffer 0 := by
  rw [hw.settle_eq]
  unfold front
  split
  · rfl
  · rw [checkHead_keeping]
    cases hCheck : checkHead (b.getD 0 0) (b.getD 1 0) w with
    | none => rfl
    | some v =>
      obtain ⟨hv, -, -⟩ := checkHead_some hCheck
      have hHead : v.atHead = w.atHead := by rw [hv]
      have hBuffer : v.fragmentBuffer = w.fragmentBuffer := by rw [hv]
      simp only [Option.map_some]
      split
      · rfl
      · rw [← hHead, startMessage_atHead]
        cases hStart : startMessage g (b.getD 0 0) (statedLength b (b.getD 1 0)) v with
        | none => rfl
        | some x =>
          obtain ⟨hx, -, -, -⟩ := startMessage_some hStart
          have hBuffer' : x.fragmentBuffer = w.fragmentBuffer := by rw [hx, hBuffer]
          simp only [Option.map_some, Front.map, hBuffer']

/-- What can be seen of a connection from outside. -/
def WebSocket.seen (w : WebSocket σ) : σ × List Event × Bool × Bool :=
  (w.user, w.out, w.shuttingDown, w.closed)

@[simp] theorem seen_settle (w : WebSocket σ) : w.settle.seen = w.seen := by
  unfold WebSocket.settle
  split <;> rfl

@[simp] theorem seen_keeping {fb : List UInt8} {tip : ℕ} : (w.keeping s fb tip).seen = w.seen := rfl

theorem seen_front (h : front g isServer w b = .frame x header payload) : x.seen = w.seen := by
  obtain ⟨-, -, -, -, v, hCheck, hStart⟩ := of_front_frame h
  obtain ⟨hv, -, -⟩ := checkHead_some hCheck
  obtain ⟨hx, -, -, -⟩ := startMessage_some hStart
  rw [hx, hv]
  rfl

theorem forceClose_settle (hSeen : w.seen = v.seen) :
    (w.forceClose g).settle = (v.forceClose g).settle := by
  simp only [WebSocket.seen, Prod.mk.injEq] at hSeen
  obtain ⟨hUser, hOut, hShut, hClosed⟩ := hSeen
  rw [settle_of_ended forceClose_ended, settle_of_ended forceClose_ended]
  unfold forceClose
  cases hDown : v.shuttingDown <;> simp [hShut, hDown, disconnect, hUser, hOut]

theorem settle_pop :
    WebSocket.settle { w with opStack := w.opStack.tail } =
      { w.settle with opStack := w.settle.opStack.tail } := by
  cases h : w.ended with
  | true =>
    rw [settle_of_ended h]
    exact settle_of_ended h
  | false =>
    rw [settle_of_open h]
    exact settle_of_open h

theorem popped_settle {fin : Bool} (h : w.settle = v.settle) :
    (popped fin w).settle = (popped fin v).settle := by
  cases fin with
  | false => exact h
  | true =>
    simp only [popped, if_true, settle_pop]
    rw [h]

/-- The last part of a frame, whatever was kept of the others, does what the whole frame does. -/
theorem Started.rest (hx : Started g x b0 payload) (got rest : List UInt8)
    (hs : s.atHead = x.atHead) (hLength : (got ++ rest).length = payload) :
    let w := x.keeping s (x.fragmentBuffer ++ got) (if x.opStack.headD 0 < 3 then 0 else got.length)
    let r := w.handleFragment g rest 0 (x.opStack.headD 0) (isFin b0)
    r.1 = r.2.ended ∧ r.2.toWebSocketState = s ∧
      (popped (isFin b0) r.2).settle = (complete g x (got ++ rest) (isFin b0)).settle ∧
      (r.1 = false → Ready (popped (isFin b0) r.2)) := by
  intro w r
  have hControl : ¬x.opStack.headD 0 < 3 → isFin b0 = true ∧ (got ++ rest).length < 256 := by
    intro hOp
    have := hx.control hOp
    exact ⟨this.1, by omega⟩
  obtain ⟨hStop, hSettle⟩ := handleFragment_rest (g := g) hx.isOpen hx.tip hs hControl
  obtain ⟨y, fb, hStop', hSettle'⟩ := handleFragment_whole (g := g) hx.isOpen hx.tip hControl
  have hr : r.2.settle = (y.keeping x.toWebSocketState fb 0).settle := hSettle.trans hSettle'
  have hEnded : r.2.ended = y.ended := by rw [← ended_settle, hr, ended_settle, ended_keeping]
  have hr1 : r.1 = r.2.ended := by rw [hEnded, ← hStop', ← hStop]
  obtain ⟨hState, hPong⟩ : SameState r.2 w := handleFragment_same
  refine ⟨hr1, hState, popped_settle hSettle, ?_⟩
  intro hFalse
  have hOpen : r.2.ended = false := hr1.symm.trans hFalse
  have hOpen' : y.ended = false := hEnded.symm.trans hOpen
  rw [settle_of_open hOpen, settle_of_open (by simpa using hOpen')] at hr
  have hTip : r.2.controlTipLength = 0 := congrArg (fun w => w.controlTipLength) hr
  have hStack : r.2.opStack = x.opStack := congrArg (fun w => w.opStack) hr
  have hData := hx.stack
  rw [← hStack] at hData
  unfold popped
  split
  · rename_i hF
    rw [if_pos hF] at hData
    exact ⟨hOpen, hTip, hPong.trans hx.pong, hData⟩
  · rename_i hF
    rw [if_neg hF] at hData
    exact ⟨hOpen, hTip, hPong.trans hx.pong, hData⟩

/-! ### Frames in the buffer -/

theorem split_masked (b : List UInt8) (h : 4 ≤ header) (payload : ℕ) :
    b = b.take (header - 4) ++
      (frameKey b header ++ ((b.drop header).take payload ++ b.drop (header + payload))) := by
  have hKey : (b.drop (header - 4)).drop 4 = b.drop header := by
    rw [List.drop_drop]
    congr 1
    omega
  rw [← List.drop_drop (j := header), List.take_append_drop, frameKey, ← hKey,
    List.take_append_drop, List.take_append_drop]

theorem split_plain (b : List UInt8) (header payload : ℕ) :
    b = b.take header ++ ((b.drop header).take payload ++ b.drop (header + payload)) := by
  rw [← List.drop_drop, List.take_append_drop, List.take_append_drop]

theorem getElem_front {pre post : List UInt8} (h : 0 < b.length) :
    (pre ++ (b ++ post))[pre.length]? = some (b.getD 0 0) := by
  rw [List.getElem?_append_right le_rfl, Nat.sub_self, List.getElem?_append_left h,
    List.getD_eq_getElem?_getD, List.getElem?_eq_getElem h, Option.getD_some]

theorem head_stack (h : x.opStack ≠ []) : x.opStack.head? = some (x.opStack.headD 0) := by
  cases hStack : x.opStack with
  | nil => exact absurd hStack h
  | cons o os => rfl

/-- A frame that is there as a whole. -/
theorem consumeMessage_whole (pre : List UInt8) {post : List UInt8} (hPost : 4 ≤ post.length)
    (hStart : startMessage g (b.getD 0 0) payload w = some x) (hNe : x.opStack ≠ [])
    (hHeader : shortMessageHeader isServer ≤ header) (hLe : header + payload ≤ b.length) :
    let r := x.handleFragment g (content isServer b header payload) 0 (x.opStack.headD 0)
      (isFin (b.getD 0 0))
    ∃ p, consumeMessage g isServer header payload ⟨pre ++ (b ++ post), pre.length, b.length⟩ w =
        some (r.1, p, if r.1 then r.2 else { popped (isFin (b.getD 0 0)) r.2 with spill := [] }) ∧
      (r.1 = false → ∃ pre' : List UInt8, p = ⟨pre' ++ (b.drop (header + payload) ++ post),
        pre'.length, (b.drop (header + payload)).length⟩) := by
  intro r
  have hTwo := two_le_short isServer
  have hb : 0 < b.length := by omega
  have hLe' : payload + header ≤ b.length := by omega
  cases isServer with
  | true =>
    have hSix : 6 ≤ header := hHeader
    have hSplit := split_masked b (show 4 ≤ header by omega) payload
    have hKey : (frameKey b header).length = 4 := by
      simp only [frameKey, List.length_take, List.length_drop]
      omega
    have hPay : ((b.drop header).take payload).length = payload := by
      rw [List.length_take, List.length_drop]
      omega
    have hTake : (b.take (header - 4)).length = header - 4 := by
      rw [List.length_take]
      omega
    have hMem : pre ++ (b ++ post) = (pre ++ b.take (header - 4)) ++ (frameKey b header ++
        ((b.drop header).take payload ++ (b.drop (header + payload) ++ post))) := by
      nth_rewrite 1 [hSplit]
      simp only [List.append_assoc]
    have hFirst : ∀ rest : List UInt8,
        (pre ++ b.take (header - 4) ++ rest)[pre.length]? = some (b.getD 0 0) := by
      intro rest
      rw [List.append_assoc, getElem_front (by omega), List.getD_eq_getElem?_getD,
        List.getElem?_take_of_lt (by omega), ← List.getD_eq_getElem?_getD]
    have hKeyAt := readAt_eq (pre ++ b.take (header - 4)) (frameKey b header)
      ((b.drop header).take payload ++ (b.drop (header + payload) ++ post))
      (show pre.length + header - 4 = _ by simp only [List.length_append]; omega) hKey.symm
    obtain ⟨junk, hJunk, hMove⟩ := unmaskImprecise_keeps (pre ++ b.take (header - 4))
      (frameKey b header) ((b.drop header).take payload) (b.drop (header + payload) ++ post) hPay hKey
      (show pre.length + header - 4 = _ by simp only [List.length_append]; omega)
      (show pre.length + header = _ by simp only [List.length_append]; omega) hKey
      (by simp only [List.length_append]; omega)
    have hData := readAt_eq (pre ++ b.take (header - 4))
      (Masking.mask (frameKey b header) ((b.drop header).take payload))
      (junk ++ (b.drop (header + payload) ++ post))
      (show pre.length + header - 4 = _ by simp only [List.length_append]; omega)
      (show payload = _ by rw [Masking.length_mask, hPay])
    have hr : r = x.handleFragment g
        (Masking.mask (frameKey b header) ((b.drop header).take payload)) 0 (x.opStack.headD 0)
        (isFin (b.getD 0 0)) := rfl
    simp only [consumeMessage, hStart, head_stack hNe, hLe', if_true, Option.bind_eq_bind,
      Option.bind_some, unmaskImpreciseCopyMask, hMem, hKeyAt, hMove, hData, ← hr, hFirst]
    cases hStop : r.1 with
    | true => exact ⟨_, rfl, by simp⟩
    | false =>
      refine ⟨_, rfl, fun _ => ⟨pre ++ b.take (header - 4) ++
        Masking.mask (frameKey b header) ((b.drop header).take payload) ++ junk, ?_⟩⟩
      simp only [Input.mk.injEq, List.append_assoc, List.length_append, hTake, Masking.length_mask,
        hPay, hJunk, List.length_drop, true_and]
      omega
  | false =>
    have hSplit := split_plain b header payload
    have hPay : ((b.drop header).take payload).length = payload := by
      rw [List.length_take, List.length_drop]
      omega
    have hTake : (b.take header).length = header := by
      rw [List.length_take]
      omega
    have hMem : pre ++ (b ++ post) = (pre ++ b.take header) ++
        ((b.drop header).take payload ++ (b.drop (header + payload) ++ post)) := by
      nth_rewrite 1 [hSplit]
      simp only [List.append_assoc]
    have hData := readAt_eq (pre ++ b.take header) ((b.drop header).take payload)
      (b.drop (header + payload) ++ post)
      (show pre.length + header = _ by simp only [List.length_append]; omega) hPay.symm
    rw [← hMem] at hData
    have hr : r = x.handleFragment g ((b.drop header).take payload) 0 (x.opStack.headD 0)
        (isFin (b.getD 0 0)) := rfl
    simp only [consumeMessage, getElem_front hb, hStart, head_stack hNe, hLe', if_true,
      Bool.false_eq_true, if_false, Option.bind_eq_bind, Option.bind_some, hData, ← hr]
    cases hStop : r.1 with
    | true => exact ⟨_, rfl, by simp⟩
    | false =>
      refine ⟨_, rfl, fun _ => ⟨pre ++ b.take header ++ (b.drop header).take payload, ?_⟩⟩
      simp only [hMem, Input.mk.injEq, List.append_assoc, List.length_append, hTake, hPay,
        List.length_drop, true_and]
      omega

/-- A frame whose end is still to come. -/
theorem consumeMessage_part (pre : List UInt8) {post : List UInt8} (hPost : 4 ≤ post.length)
    (hStart : startMessage g (b.getD 0 0) payload w = some x) (hx : Started g x (b.getD 0 0) payload)
    (hHeader : shortMessageHeader isServer ≤ header) (hThere : header ≤ b.length)
    (hLess : b.length < header + payload) :
    ∃ (p : Input) (s : WebSocketState), s.atHead = x.atHead ∧ s.wantsHead = false ∧ s.spill = [] ∧
      s.remainingBytes = header + payload - b.length ∧
      (isServer = true → s.mask = (frameKey b header).rotate (b.length - header)) ∧
      consumeMessage g isServer header payload ⟨pre ++ (b ++ post), pre.length, b.length⟩ w =
        some (true, p, x.keeping s (x.fragmentBuffer ++ content isServer b header payload)
          (if x.opStack.headD 0 < 3 then 0 else (content isServer b header payload).length)) := by
  have hTwo := two_le_short isServer
  have hb : 0 < b.length := by omega
  have hLe : ¬payload + header ≤ b.length := by omega
  have hSmall : payload < 2 ^ 32 := lt_of_le_of_lt hx.small g.maxPayload.toNat_lt
  have hRemaining : (payload + header - b.length) % 2 ^ 32 = header + payload - b.length := by
    rw [Nat.mod_eq_of_lt (by omega), Nat.add_comm]
  have hPart : ¬(header + payload - b.length = 0 ∧ isFin (b.getD 0 0) = true) := by omega
  have hPay : (b.drop header).take payload = b.drop header := by
    rw [List.take_of_length_le]
    rw [List.length_drop]
    omega
  have hThere' : (b.take header).length = header := by
    rw [List.length_take]
    omega
  have hLength : (b.drop header).length = b.length - header := List.length_drop
  have hTip : ∀ tip : ℕ, tip = b.length - header →
      (if x.opStack.headD 0 < 3 then x.controlTipLength else (x.controlTipLength + tip) % 2 ^ 8) =
        if x.opStack.headD 0 < 3 then 0 else tip := by
    intro tip hTip
    rw [hx.tip, Nat.zero_add]
    split
    · rfl
    · rename_i hOp
      have := (hx.control hOp).2
      exact Nat.mod_eq_of_lt (by omega)
  rw [content, hPay]
  cases isServer with
  | true =>
    have hSix : 6 ≤ header := hHeader
    have hKey : (frameKey b header).length = 4 := by
      simp only [frameKey, List.length_take, List.length_drop]
      omega
    have hSplit := split_masked b (show 4 ≤ header by omega) payload
    have hMemKey : pre ++ (b ++ post) = (pre ++ b.take (header - 4)) ++
        (frameKey b header ++ (b.drop header ++ (b.drop (header + payload) ++ post))) := by
      nth_rewrite 1 [hSplit]
      simp only [hPay, List.append_assoc]
    have hMem : pre ++ (b ++ post) = pre ++ (b.take header ++ (b.drop header ++ post)) := by
      rw [← List.append_assoc (b.take header), List.take_append_drop]
    have hKeyAt := readAt_eq (pre ++ b.take (header - 4)) (frameKey b header)
      (b.drop header ++ (b.drop (header + payload) ++ post))
      (show pre.length + header - 4 = _ by simp only [List.length_append, List.length_take]; omega)
      hKey.symm
    rw [← hMemKey] at hKeyAt
    obtain ⟨junk, -, hMove⟩ := unmaskImprecise_eq pre (b.take header) (b.drop header) post hLength hKey rfl
      (show pre.length + header = _ by rw [hThere']) hPost
    rw [← hMem] at hMove
    have hData := readAt_eq pre (Masking.mask (frameKey b header) (b.drop header)) junk rfl
      (show b.length - header = _ by rw [Masking.length_mask, hLength])
    refine ⟨⟨pre ++ (Masking.mask (frameKey b header) (b.drop header) ++ junk), pre.length, b.length⟩,
      { x.toWebSocketState with
        spill := [], wantsHead := false, remainingBytes := header + payload - b.length
        mask := rotateMask (4 - (b.length - header) % 4) (frameKey b header) },
      rfl, rfl, rfl, rfl, fun _ => rotateMask_eq hKey, ?_⟩
    simp only [consumeMessage, getElem_front hb, hStart, head_stack hx.stack_ne, hLe, if_true, if_false,
      Option.bind_eq_bind, Option.bind_some, hKeyAt, hMove, hData, hRemaining,
      handleFragment_part hPart, unmasked, Masking.length_mask, hTip _ hLength]
    rfl
  | false =>
    have hMem : pre ++ (b ++ post) = (pre ++ b.take header) ++ (b.drop header ++ post) := by
      rw [List.append_assoc, ← List.append_assoc (b.take header), List.take_append_drop]
    have hData := readAt_eq (pre ++ b.take header) (b.drop header) post
      (show pre.length + header = _ by simp only [List.length_append, hThere']) hLength.symm
    rw [← hMem] at hData
    refine ⟨⟨pre ++ (b ++ post), pre.length + header, b.length⟩,
      { x.toWebSocketState with
        spill := [], wantsHead := false, remainingBytes := header + payload - b.length },
      rfl, rfl, rfl, rfl, fun h => absurd h (by decide), ?_⟩
    simp only [consumeMessage, getElem_front hb, hStart, head_stack hx.stack_ne, hLe, if_false,
      Bool.false_eq_true, Option.bind_eq_bind, Option.bind_some, hData, hRemaining,
      handleFragment_part hPart, unmasked, hTip _ hLength]
    rfl

/-- The rest of a frame. -/
theorem consumeContinuation_whole (pre post : List UInt8) {opCode : UInt8} {fin : Bool}
    (hStack : w.opStack.head? = some opCode) (hFin : w.lastFin = fin)
    (hMask : isServer = true → w.mask.length = 4) (hLe : w.remainingBytes ≤ c.length) :
    let r := w.handleFragment g (unmasked isServer w.mask (c.take w.remainingBytes)) 0 opCode fin
    (r.1 = false → r.2.lastFin = fin) →
    ∃ p, consumeContinuation g isServer ⟨pre ++ (c ++ post), pre.length, c.length⟩ w =
        some (!r.1, p, if r.1 then r.2 else { popped fin r.2 with wantsHead := true }) ∧
      (r.1 = false → ∃ pre' : List UInt8, p = ⟨pre' ++ (c.drop w.remainingBytes ++ post),
        pre'.length, (c.drop w.remainingBytes).length⟩) := by
  intro r hLast
  have hTake : (c.take w.remainingBytes).length = w.remainingBytes := by
    rw [List.length_take]
    omega
  have hMem : pre ++ (c ++ post) =
      pre ++ (c.take w.remainingBytes ++ (c.drop w.remainingBytes ++ post)) := by
    rw [← List.append_assoc (c.take w.remainingBytes), List.take_append_drop]
  have hEnd : (if isServer then unmaskEnd (pre ++ (c ++ post)) pre.length w.mask w.remainingBytes
      else some (pre ++ (c ++ post))) =
      some (pre ++ (unmasked isServer w.mask (c.take w.remainingBytes) ++
        (c.drop w.remainingBytes ++ post))) := by
    cases isServer with
    | true =>
      rw [hMem, if_pos rfl]
      exact unmaskEnd_eq pre _ _ hTake (hMask rfl) rfl
    | false =>
      rw [hMem]
      rfl
  have hData := readAt_eq pre (unmasked isServer w.mask (c.take w.remainingBytes))
    (c.drop w.remainingBytes ++ post) rfl
    (show w.remainingBytes = _ by rw [length_unmasked, hTake])
  have hr : w.handleFragment g (unmasked isServer w.mask (c.take w.remainingBytes)) 0 opCode fin = r :=
    rfl
  simp only [consumeContinuation, hStack, hLe, if_true, Option.bind_eq_bind, Option.bind_some, hEnd,
    hData, hFin, hr]
  cases hStop : r.1 with
  | true => exact ⟨_, rfl, by simp⟩
  | false =>
    have hPop : (if r.2.lastFin then { r.2 with opStack := r.2.opStack.tail } else r.2) =
        popped fin r.2 := by rw [hLast hStop, popped]
    rw [← hPop]
    refine ⟨_, rfl, fun _ => ⟨pre ++ unmasked isServer w.mask (c.take w.remainingBytes), ?_⟩⟩
    simp only [List.append_assoc, List.length_append, length_unmasked, hTake, List.length_drop]

/-- A part of a frame that does not reach its end. -/
theorem consumeContinuation_part (pre : List UInt8) {post : List UInt8} {opCode : UInt8}
    (hPost : 4 ≤ post.length) (hStack : w.opStack.head? = some opCode)
    (hMask : isServer = true → w.mask.length = 4) (hLess : c.length < w.remainingBytes) :
    ∃ (p : Input) (s : WebSocketState), s.atHead = w.atHead ∧ s.wantsHead = w.wantsHead ∧
      s.spill = w.spill ∧ s.remainingBytes = w.remainingBytes - c.length ∧
      (isServer = true → s.mask = w.mask.rotate c.length) ∧
      consumeContinuation g isServer ⟨pre ++ (c ++ post), pre.length, c.length⟩ w =
        some (false, p, w.keeping s (w.fragmentBuffer ++ unmasked isServer w.mask c)
          (if opCode < 3 then w.controlTipLength else (w.controlTipLength + c.length) % 2 ^ 8)) := by
  have hLe : ¬w.remainingBytes ≤ c.length := by omega
  have hPart : ¬(w.remainingBytes - c.length = 0 ∧ w.lastFin = true) := by omega
  cases isServer with
  | true =>
    obtain ⟨junk, -, hMove⟩ := unmaskInplace_eq pre c post rfl (hMask rfl) rfl hPost
    have hData := readAt_eq pre (Masking.mask w.mask c) junk rfl
      (show c.length = _ by rw [Masking.length_mask])
    have hRotate : (if c.length % 4 ≠ 0 then rotateMask (4 - c.length % 4) w.mask else w.mask) =
        w.mask.rotate c.length := by
      split
      · exact rotateMask_eq (hMask rfl)
      · rename_i hZero
        rw [← Masking.rotate_mod (hMask rfl), not_not.mp hZero, List.rotate_zero]
    refine ⟨⟨pre ++ (Masking.mask w.mask c ++ junk), pre.length, c.length⟩,
      { w.toWebSocketState with
        remainingBytes := w.remainingBytes - c.length, mask := w.mask.rotate c.length },
      rfl, rfl, rfl, rfl, fun _ => rfl, ?_⟩
    rw [← hRotate]
    simp only [consumeContinuation, hStack, hLe, if_true, if_false, Option.bind_eq_bind,
      Option.bind_some, hMove, hData, handleFragment_part hPart, Bool.false_eq_true, true_and, unmasked,
      Masking.length_mask]
    split <;> rfl
  | false =>
    have hData := readAt_eq pre c post rfl rfl
    refine ⟨⟨pre ++ (c ++ post), pre.length, c.length⟩,
      { w.toWebSocketState with remainingBytes := w.remainingBytes - c.length },
      rfl, rfl, rfl, rfl, fun h => absurd h (by decide), ?_⟩
    simp only [consumeContinuation, hStack, hLe, if_false, Option.bind_eq_bind,
      Option.bind_some, hData, handleFragment_part hPart, Bool.false_eq_true, false_and, unmasked]
    rfl

end DemoCode.Uws
