import DemoCode.Uws.WebSocket

/-! What `handleFragment` makes of a frame that is handed on in parts: the first parts are only kept,
and the last one does what the whole payload would have done (`handleFragment_rest`). -/

namespace DemoCode.Uws

variable {σ : Type}

/-- What is left of the state of the protocol between two frames. -/
def WebSocketState.atHead (s : WebSocketState) : WebSocketState :=
  { opStack := s.opStack, lastFin := s.lastFin }

namespace WebSocket

/-- What later frames depend on: nothing but the user and the log of a connection that has ended. -/
def settle (w : WebSocket σ) : WebSocket σ :=
  if w.ended then
    { user := w.user, out := w.out, shuttingDown := w.shuttingDown, closed := w.closed }
  else { w with toWebSocketState := w.atHead, hasOutstandingPong := false }

@[simp] theorem ended_settle (w : WebSocket σ) : w.settle.ended = w.ended := by
  unfold settle
  split <;> rfl

@[simp] theorem user_settle (w : WebSocket σ) : w.settle.user = w.user := by
  unfold settle
  split <;> rfl

@[simp] theorem out_settle (w : WebSocket σ) : w.settle.out = w.out := by
  unfold settle
  split <;> rfl

@[simp] theorem settle_settle (w : WebSocket σ) : w.settle.settle = w.settle := by
  by_cases h : w.ended
  · have hEnded := ended_settle w
    simp only [settle, h, if_true] at hEnded ⊢
    rw [if_pos hEnded]
  · have hEnded := ended_settle w
    simp only [settle, h, if_false, Bool.false_eq_true] at hEnded ⊢
    rw [if_neg (by simpa using hEnded)]
    rfl

theorem settle_of_ended {w : WebSocket σ} (h : w.ended) :
    w.settle = { user := w.user, out := w.out, shuttingDown := w.shuttingDown, closed := w.closed } :=
  if_pos h

theorem settle_of_open {w : WebSocket σ} (h : w.ended = false) :
    w.settle = { w with toWebSocketState := w.atHead, hasOutstandingPong := false } :=
  if_neg (by simp [h])

/-- The connection with what it keeps of an unfinished frame replaced. -/
def keeping (w : WebSocket σ) (s : WebSocketState) (fragmentBuffer : List UInt8) (tip : ℕ) :
    WebSocket σ :=
  { w with toWebSocketState := s, fragmentBuffer := fragmentBuffer, controlTipLength := tip }

variable {g : Group σ} {w : WebSocket σ} {s : WebSocketState} {fb data a b : List UInt8} {tip r : ℕ}
  {opCode : UInt8} {fin : Bool}

theorem keeping_self (w : WebSocket σ) :
    w.keeping w.toWebSocketState w.fragmentBuffer w.controlTipLength = w := rfl

@[simp] theorem ended_keeping : (w.keeping s fb tip).ended = w.ended := rfl

@[simp] theorem keeping_keeping {s' : WebSocketState} {fb' : List UInt8} {tip' : ℕ} :
    (w.keeping s' fb' tip').keeping s fb tip = w.keeping s fb tip := rfl

theorem forceClose_keeping :
    (w.keeping s fb tip).forceClose g = (w.forceClose g).keeping s fb tip := by
  unfold forceClose
  cases h : w.shuttingDown <;> simp [keeping, h, disconnect]

theorem forceClose_ended : (w.forceClose g).ended := by
  simp [forceClose, ended]

theorem close_ended {code : ℕ} {message : List UInt8} : (w.close g code message).ended := by
  simp [close, send, ended]

theorem inflated_keeping :
    (w.keeping s fb tip).inflated g data =
      ((w.inflated g data).1, (w.inflated g data).2.keeping s fb tip) := by
  unfold inflated
  by_cases h : w.compressionStatus = .compressedFrame <;> simp [keeping, h]

theorem deliver_keeping :
    (w.keeping s fb tip).deliver g opCode data =
      ((w.deliver g opCode data).1, (w.deliver g opCode data).2.keeping s fb tip) := by
  unfold deliver
  split
  · rw [forceClose_keeping]
  · rfl

theorem handleControl_keeping :
    (w.keeping s fb tip).handleControl g opCode data =
      ((w.handleControl g opCode data).1, (w.handleControl g opCode data).2.keeping s fb tip) := by
  unfold handleControl
  repeat' split
  all_goals rfl

variable (g w data opCode) in
theorem handleControl_kept :
    (w.handleControl g opCode data).2.keeping w.toWebSocketState w.fragmentBuffer
      w.controlTipLength = (w.handleControl g opCode data).2 := by
  have h : (w.keeping w.toWebSocketState w.fragmentBuffer w.controlTipLength).handleControl g opCode
    data = _ := handleControl_keeping
  rw [keeping_self] at h
  exact (congrArg Prod.snd h).symm

theorem deliver_ended :
    (w.deliver g opCode data).1 = (w.deliver g opCode data).2.ended := by
  unfold deliver
  split
  · exact forceClose_ended.symm
  · rfl

variable (g data opCode) in
theorem handleControl_ended (h : w.ended = false) :
    (w.handleControl g opCode data).1 = (w.handleControl g opCode data).2.ended := by
  unfold handleControl
  split
  · exact close_ended.symm
  · split
    · rfl
    · split
      · rfl
      · exact h.symm

/-- What does not end a message is only kept. -/
theorem handleFragment_part (hPart : ¬(r = 0 ∧ fin = true)) :
    w.handleFragment g data r opCode fin =
      (false, w.keeping w.toWebSocketState (w.fragmentBuffer ++ data)
        (if opCode < 3 then w.controlTipLength else (w.controlTipLength + data.length) % 2 ^ 8)) := by
  have hWhole : ∀ p : Prop, ¬(r = 0 ∧ fin = true ∧ p) := fun p h => hPart ⟨h.1, h.2.1⟩
  simp only [handleFragment, hWhole, hPart, if_false]
  split
  · rfl
  · rfl

theorem settle_keeping {s' : WebSocketState} (h : s.atHead = s'.atHead) :
    (w.keeping s fb tip).settle = (w.keeping s' fb tip).settle := by
  unfold settle
  rw [ended_keeping, ended_keeping]
  split
  · rfl
  · simp only [keeping, h]

theorem handleMessage_keeping :
    (w.keeping s fb tip).handleMessage g opCode data =
      ((w.handleMessage g opCode data).1, (w.handleMessage g opCode data).2.keeping s fb tip) := by
  unfold handleMessage
  rw [inflated_keeping]
  rcases w.inflated g data with ⟨_ | inflated, w'⟩
  · simp only [forceClose_keeping]
  · simp only [deliver_keeping]

variable (g w data opCode) in
theorem handleMessage_kept :
    (w.handleMessage g opCode data).2.keeping w.toWebSocketState w.fragmentBuffer w.controlTipLength =
      (w.handleMessage g opCode data).2 := by
  have h : (w.keeping w.toWebSocketState w.fragmentBuffer w.controlTipLength).handleMessage g opCode
    data = _ := handleMessage_keeping
  rw [keeping_self] at h
  exact (congrArg Prod.snd h).symm

variable (g w data opCode) in
theorem handleMessage_ended :
    (w.handleMessage g opCode data).1 = (w.handleMessage g opCode data).2.ended := by
  unfold handleMessage
  rcases w.inflated g data with ⟨_ | inflated, w'⟩
  · exact forceClose_ended.symm
  · exact deliver_ended

variable (g w data) in
/-- The last part of a message. -/
theorem handleFragment_message (hOp : opCode < 3) :
    (w.handleFragment g data 0 opCode true).1 =
        (w.handleMessage g opCode (w.fragmentBuffer ++ data)).1 ∧
      (w.handleFragment g data 0 opCode true).2.settle =
        ((w.handleMessage g opCode (w.fragmentBuffer ++ data)).2.keeping w.toWebSocketState []
          w.controlTipLength).settle := by
  by_cases hEmpty : w.fragmentBuffer = []
  · have hEq : w.handleFragment g data 0 opCode true = w.handleMessage g opCode data := by
      simp only [handleFragment, hOp, hEmpty, if_true, and_self]
    have hKept := handleMessage_kept g w data opCode
    rw [hEmpty] at hKept
    rw [hEq, hEmpty, List.nil_append, hKept]
    exact ⟨rfl, rfl⟩
  · set all := w.fragmentBuffer ++ data with hAll
    have hEq : w.handleFragment g data 0 opCode true =
        (let r := (w.keeping w.toWebSocketState all w.controlTipLength).handleMessage g opCode all
         if r.1 then (true, r.2) else (false, { r.2 with fragmentBuffer := [] })) := by
      simp only [handleFragment, hOp, hEmpty, if_true, and_false, if_false, and_self, ← hAll]
      rfl
    rw [handleMessage_keeping] at hEq
    have hEnded := handleMessage_ended g w all opCode
    rw [hEq]
    cases hStop : (w.handleMessage g opCode all).1 with
    | true =>
      rw [hStop] at hEnded
      refine ⟨rfl, ?_⟩
      simp only [if_true]
      rw [settle_of_ended (by simpa using hEnded.symm), settle_of_ended (by simpa using hEnded.symm)]
      rfl
    | false => exact ⟨rfl, rfl⟩

variable (g w data) in
/-- The last part of a control frame. -/
theorem handleFragment_control (hOp : ¬opCode < 3) (hOpen : w.ended = false)
    (hTip : w.controlTipLength ≤ w.fragmentBuffer.length)
    (hLength : w.controlTipLength + data.length < 256) :
    let kept := w.fragmentBuffer.length - w.controlTipLength
    let all := w.fragmentBuffer.drop kept ++ data
    (w.handleFragment g data 0 opCode true).1 = (w.handleControl g opCode all).1 ∧
      (w.handleFragment g data 0 opCode true).2.settle =
        ((w.handleControl g opCode all).2.keeping w.toWebSocketState
          (w.fragmentBuffer.take kept) 0).settle := by
  intro kept all
  by_cases hZero : w.controlTipLength = 0
  · have hAll : all = data := by simp [all, kept, hZero]
    have hEq : w.handleFragment g data 0 opCode true = w.handleControl g opCode data := by
      simp only [handleFragment, hOp, hZero, if_true, if_false, and_self]
    have hKept := handleControl_kept g w data opCode
    rw [hZero] at hKept
    have hTake : w.fragmentBuffer.take kept = w.fragmentBuffer := by simp [kept, hZero]
    rw [hEq, hAll, hTake, hKept]
    exact ⟨rfl, rfl⟩
  · have hMod : (w.controlTipLength + data.length) % 2 ^ 8 = w.controlTipLength + data.length :=
      Nat.mod_eq_of_lt hLength
    have hSub : (w.fragmentBuffer ++ data).length - (w.controlTipLength + data.length) = kept := by
      simp only [List.length_append, kept]
      omega
    have hLe : kept ≤ w.fragmentBuffer.length := Nat.sub_le _ _
    have hEq : w.handleFragment g data 0 opCode true =
        (let r := (w.keeping w.toWebSocketState (w.fragmentBuffer ++ data)
            (w.controlTipLength + data.length)).handleControl g opCode all
         if r.1 then (true, r.2)
         else (false, { r.2 with
           fragmentBuffer := r.2.fragmentBuffer.take kept, controlTipLength := 0 })) := by
      simp only [handleFragment, hOp, hZero, if_true, if_false, and_false, and_self, hMod, hSub,
        List.drop_append_of_le_length hLe]
      rfl
    rw [handleControl_keeping] at hEq
    have hEnded := handleControl_ended g all opCode hOpen
    rw [hEq]
    cases hStop : (w.handleControl g opCode all).1 with
    | true =>
      rw [hStop] at hEnded
      refine ⟨rfl, ?_⟩
      simp only [if_true]
      rw [settle_of_ended (by simpa using hEnded.symm), settle_of_ended (by simpa using hEnded.symm)]
      rfl
    | false =>
      refine ⟨rfl, ?_⟩
      simp only [Bool.false_eq_true, if_false, keeping, List.take_append_of_le_length hLe]

/-- The rest of a frame does what the whole payload would have done. -/
theorem handleFragment_rest (hOpen : w.ended = false) (hTip : w.controlTipLength = 0)
    (hs : s.atHead = w.atHead) (hControl : ¬opCode < 3 → fin = true ∧ (a ++ b).length < 256) :
    let v := w.keeping s (w.fragmentBuffer ++ a) (if opCode < 3 then 0 else a.length)
    (v.handleFragment g b 0 opCode fin).1 = (w.handleFragment g (a ++ b) 0 opCode fin).1 ∧
      (v.handleFragment g b 0 opCode fin).2.settle =
        (w.handleFragment g (a ++ b) 0 opCode fin).2.settle := by
  intro v
  by_cases hOp : opCode < 3
  · have hv : v = w.keeping s (w.fragmentBuffer ++ a) 0 := by simp only [v, hOp, if_true]
    cases fin with
    | false =>
      have hPart : ¬((0 : ℕ) = 0 ∧ false = true) := by simp
      rw [handleFragment_part hPart, handleFragment_part hPart, hv]
      refine ⟨rfl, ?_⟩
      simp only [hOp, if_true, hTip]
      simp only [keeping, List.append_assoc]
      exact settle_keeping (w := w) hs
    | true =>
      obtain ⟨hStop, hState⟩ := handleFragment_message g v b hOp
      obtain ⟨hStop', hState'⟩ := handleFragment_message g w (a ++ b) hOp
      have hBuffer : v.fragmentBuffer ++ b = w.fragmentBuffer ++ (a ++ b) := by
        rw [hv]
        exact List.append_assoc ..
      rw [hBuffer, hv, handleMessage_keeping] at hStop hState
      rw [hv, hStop, hState, hStop', hState', hTip]
      exact ⟨rfl, settle_keeping hs⟩
  · obtain ⟨rfl, hLength⟩ := hControl hOp
    have hv : v = w.keeping s (w.fragmentBuffer ++ a) a.length := by simp only [v, hOp, if_false]
    rw [List.length_append] at hLength
    have hControl := handleFragment_control g v b hOp (by rw [hv]; exact hOpen)
      (by simp [hv, keeping]) (by simpa [hv, keeping] using hLength)
    have hControl' := handleFragment_control g w (a ++ b) hOp hOpen
      (by simp [hTip]) (by simpa [hTip] using hLength)
    have hKept : v.fragmentBuffer.length - v.controlTipLength = w.fragmentBuffer.length := by
      simp [hv, keeping]
    have hBuffer : v.fragmentBuffer = w.fragmentBuffer ++ a := by rw [hv]; rfl
    simp only [hKept] at hControl
    rw [hBuffer, List.drop_left, List.take_left] at hControl
    simp only [hTip, Nat.sub_zero, List.drop_length, List.take_length, List.nil_append] at hControl'
    rw [hv, handleControl_keeping] at hControl
    rw [hv, hControl.1, hControl.2, hControl'.1, hControl'.2]
    exact ⟨rfl, settle_keeping hs⟩

/-- A whole payload leaves the state of the protocol alone, and no part of a control frame. -/
theorem handleFragment_whole (hOpen : w.ended = false) (hTip : w.controlTipLength = 0)
    (hControl : ¬opCode < 3 → fin = true ∧ data.length < 256) :
    ∃ (v : WebSocket σ) (fb : List UInt8),
      (w.handleFragment g data 0 opCode fin).1 = v.ended ∧
      (w.handleFragment g data 0 opCode fin).2.settle =
        (v.keeping w.toWebSocketState fb 0).settle := by
  by_cases hOp : opCode < 3
  · cases fin with
    | false =>
      refine ⟨w, w.fragmentBuffer ++ data, ?_⟩
      rw [handleFragment_part (by simp)]
      simp only [hOp, if_true, hTip]
      exact ⟨hOpen.symm, trivial⟩
    | true =>
      obtain ⟨hStop, hState⟩ := handleFragment_message g w data hOp
      exact ⟨_, [], hStop.trans (handleMessage_ended ..), by rw [hState, hTip]⟩
  · obtain ⟨rfl, hLength⟩ := hControl hOp
    have hWhole := handleFragment_control g w data hOp hOpen
      (by simp [hTip]) (by simpa [hTip] using hLength)
    exact ⟨_, _, hWhole.1.trans (handleControl_ended _ _ _ hOpen), hWhole.2⟩

/-! ### What no fragment touches -/

/-- The state of the protocol, and whether a pong is waited for, are the same in both. -/
def SameState (v w : WebSocket σ) : Prop :=
  v.toWebSocketState = w.toWebSocketState ∧ v.hasOutstandingPong = w.hasOutstandingPong

theorem forceClose_same : SameState (w.forceClose g) w := by
  unfold forceClose
  split <;> exact ⟨rfl, rfl⟩

theorem SameState.trans {u v : WebSocket σ} (h : SameState u v) (h' : SameState v w) :
    SameState u w :=
  ⟨h.1.trans h'.1, h.2.trans h'.2⟩

theorem handleMessage_same : SameState (w.handleMessage g opCode data).2 w := by
  have hInflated : SameState (w.inflated g data).2 w := by
    unfold inflated
    split <;> exact ⟨rfl, rfl⟩
  unfold handleMessage
  revert hInflated
  rcases w.inflated g data with ⟨_ | inflated, v⟩ <;> intro hInflated
  · exact forceClose_same.trans hInflated
  · simp only [deliver]
    split
    · exact forceClose_same.trans hInflated
    · exact hInflated

theorem handleControl_same : SameState (w.handleControl g opCode data).2 w := by
  unfold handleControl
  repeat' split
  all_goals exact ⟨rfl, rfl⟩

theorem handleFragment_same : SameState (w.handleFragment g data r opCode fin).2 w := by
  unfold handleFragment
  split
  · split
    · exact handleMessage_same
    · simp only
      split
      · split <;> exact handleMessage_same
      · exact ⟨rfl, rfl⟩
  · split
    · exact handleControl_same
    · simp only
      split
      · split <;> exact handleControl_same
      · exact ⟨rfl, rfl⟩

/-! ### A connection without compression -/

theorem handleMessage_disabled (h : w.compressionStatus = .disabled) :
    (w.handleMessage g opCode data).2.compressionStatus = .disabled := by
  have hInflated : w.inflated g data = (some data, w) := by simp [inflated, h]
  rw [handleMessage, hInflated]
  simp only [deliver]
  split
  · unfold forceClose
    split <;> exact h
  · exact h

theorem handleFragment_disabled (h : w.compressionStatus = .disabled) :
    (w.handleFragment g data r opCode fin).2.compressionStatus = .disabled := by
  have hControl : ∀ (v : WebSocket σ) (d : List UInt8), v.compressionStatus = .disabled →
      (v.handleControl g opCode d).2.compressionStatus = .disabled := by
    intro v d hv
    unfold handleControl
    repeat' split
    all_goals exact hv
  unfold handleFragment
  split
  · split
    · exact handleMessage_disabled h
    · simp only
      split
      · split <;> exact handleMessage_disabled h
      · exact h
  · split
    · exact hControl _ _ h
    · simp only
      split
      · split <;> exact hControl _ _ h
      · exact h

end WebSocket

end DemoCode.Uws
