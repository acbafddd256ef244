import DemoCode.Uws.ReadRuns

/-! `formatMessage`, and what comes of it at the other end: whatever a peer sends with `send` arrives in
order, as if it were handed to the receiver directly. -/

namespace DemoCode.Uws

open WebSocket

variable {σ : Type} {g : Group σ} {isServer : Bool} {w : WebSocket σ} {data random rest : List UInt8}
  {opCode : UInt8} {compressed : Bool}

/-- The second byte of a header and what follows of the length. -/
def formatLength (maskBit : UInt8) (reportedLength : ℕ) : List UInt8 :=
  if reportedLength < 126 then [UInt8.ofNat reportedLength ||| maskBit]
  else if reportedLength ≤ 65535 then (126 ||| maskBit) :: Endian.big 2 reportedLength
  else (127 ||| maskBit) :: Endian.big 8 reportedLength

/-- `formatMessage`; `random` is the key that a client takes from `rand`. -/
def formatMessage (isServer : Bool) (random src : List UInt8) (opCode : UInt8) (reportedLength : ℕ)
    (compressed : Bool) : List UInt8 :=
  let b0 := 128 ||| (if compressed then 64 else 0) ||| opCode
  let header := b0 :: formatLength (if isServer then 0 else 0x80) reportedLength
  if isServer then header ++ src else header ++ random ++ Masking.mask random src

/-! ### The header that is read back -/

/-- The operation codes that are sent. -/
def Sendable (opCode : UInt8) : Prop :=
  opCode = 1 ∨ opCode = 2 ∨ opCode = 8 ∨ opCode = 9 ∨ opCode = 10

theorem firstByte (h : Sendable opCode) (compressed : Bool) :
    let b0 := 128 ||| (if compressed then 64 else 0) ||| opCode
    isFin b0 = true ∧ getOpCode b0 = opCode ∧ rsv1 b0 = compressed ∧ rsv23 b0 = false := by
  rcases h with rfl | rfl | rfl | rfl | rfl <;> cases compressed <;> decide

theorem payloadLength_short : ∀ b : UInt8, b.toNat < 128 → ∀ m ∈ [(0 : UInt8), 0x80],
    (payloadLength (b ||| m)).toNat = b.toNat :=
  forall_byte (by decide +kernel)

/-- The length is read back from the bytes that were written. -/
theorem formatLength_spec (isServer : Bool) {n : ℕ} (hn : n < 2 ^ 64) (b0 : UInt8) (rest : List UInt8) :
    let maskBit : UInt8 := if isServer then 0x80 else 0
    let b := b0 :: (formatLength maskBit n ++ rest)
    headerLength isServer (b.getD 1 0) =
        (formatLength maskBit n).length + 1 + (if isServer then 4 else 0) ∧
      statedLength b (b.getD 1 0) = n ∧ (n < 126 → payloadLength (b.getD 1 0) < 126) := by
  intro maskBit b
  have hBit : maskBit ∈ [(0 : UInt8), 0x80] := by cases isServer <;> decide
  have h126 : payloadLength (126 ||| maskBit) = 126 := by cases isServer <;> decide
  have h127 : payloadLength (127 ||| maskBit) = 127 := by cases isServer <;> decide
  by_cases hShort : n < 126
  · have hb : b = b0 :: (UInt8.ofNat n ||| maskBit) :: rest := by simp [b, formatLength, hShort]
    have hByte : (UInt8.ofNat n).toNat = n := UInt8.toNat_ofNat_of_lt' (Nat.lt_trans hShort (by decide))
    have hLength : (payloadLength (UInt8.ofNat n ||| maskBit)).toNat = n := by
      rw [payloadLength_short _ (by omega) _ hBit, hByte]
    have hLess : payloadLength (UInt8.ofNat n ||| maskBit) < 126 := by
      rw [UInt8.lt_iff_toNat_lt, hLength]
      exact hShort
    rw [show b.getD 1 0 = UInt8.ofNat n ||| maskBit by rw [hb]; rfl]
    refine ⟨?_, ?_, fun _ => hLess⟩
    · rw [headerLength, if_pos hLess, formatLength, if_pos hShort]
      cases isServer <;> rfl
    · rw [statedLength, if_pos hLess, hLength]
  · by_cases hMedium : n ≤ 65535
    · have hb : b = b0 :: (126 ||| maskBit) :: (Endian.big 2 n ++ rest) := by
        simp [b, formatLength, hShort, hMedium]
      rw [show b.getD 1 0 = 126 ||| maskBit by rw [hb]; rfl]
      refine ⟨?_, ?_, fun h => absurd h hShort⟩
      · rw [headerLength, h126, if_neg (by decide), if_pos rfl, formatLength, if_neg hShort, if_pos hMedium,
          List.length_cons, Endian.length_big]
        cases isServer <;> rfl
      · rw [statedLength, h126, if_neg (by decide), if_pos rfl, hb]
        have hTake : (Endian.big 2 n ++ rest).take 2 = Endian.big 2 n :=
          List.take_left' (Endian.length_big 2 n)
        simp only [List.drop_succ_cons, List.drop_zero, hTake]
        exact Endian.ofBig_big (by omega)
    · have hb : b = b0 :: (127 ||| maskBit) :: (Endian.big 8 n ++ rest) := by
        simp [b, formatLength, hShort, hMedium]
      rw [show b.getD 1 0 = 127 ||| maskBit by rw [hb]; rfl]
      refine ⟨?_, ?_, fun h => absurd h hShort⟩
      · rw [headerLength, h127, if_neg (by decide), if_neg (by decide), formatLength, if_neg hShort,
          if_neg hMedium, List.length_cons, Endian.length_big]
        cases isServer <;> rfl
      · rw [statedLength, h127, if_neg (by decide), if_neg (by decide), hb]
        have hTake : (Endian.big 8 n ++ rest).take 8 = Endian.big 8 n :=
          List.take_left' (Endian.length_big 8 n)
        simp only [List.drop_succ_cons, List.drop_zero, hTake]
        exact Endian.ofBig_big (by omega)

/-- A formatted message is read back. -/
theorem formatMessage_spec (isServer : Bool) (hn : data.length < 2 ^ 64) (hRandom : random.length = 4)
    (opCode : UInt8) (compressed : Bool) (rest : List UInt8) :
    let message := formatMessage (!isServer) random data opCode data.length compressed
    let b := message ++ rest
    headerLength isServer (b.getD 1 0) + data.length = message.length ∧
      statedLength b (b.getD 1 0) = data.length ∧
      b.getD 0 0 = 128 ||| (if compressed then 64 else 0) ||| opCode ∧
      (data.length < 126 → payloadLength (b.getD 1 0) < 126) ∧
      content isServer b (headerLength isServer (b.getD 1 0)) data.length = data := by
  intro message b
  set b0 := 128 ||| (if compressed then 64 else 0) ||| opCode with hb0
  cases isServer with
  | true =>
    set stated := formatLength 0x80 data.length with hStated
    obtain ⟨hHeader, hLength, hShort⟩ := formatLength_spec true hn b0
      (random ++ (Masking.mask random data ++ rest))
    have hMessage : message = b0 :: stated ++ random ++ Masking.mask random data := rfl
    have hb : b = b0 :: (stated ++ (random ++ (Masking.mask random data ++ rest))) := by
      simp [b, hMessage]
    simp only [if_true, ← hStated, ← hb] at hHeader hLength hShort
    have hData : b.drop (headerLength true (b.getD 1 0)) = Masking.mask random data ++ rest := by
      have hFront : b = (b0 :: stated ++ random) ++ (Masking.mask random data ++ rest) := by simp [hb]
      rw [hHeader, hFront, List.drop_left' (by simp [hRandom])]
    have hKey : frameKey b (headerLength true (b.getD 1 0)) = random := by
      have hFront : b = (b0 :: stated) ++ (random ++ (Masking.mask random data ++ rest)) := by simp [hb]
      rw [frameKey, hHeader, Nat.add_sub_cancel, hFront, List.drop_left' (by simp),
        List.take_left' hRandom]
    refine ⟨?_, hLength, by rw [hb]; rfl, hShort, ?_⟩
    · rw [hHeader, hMessage]
      simp only [List.length_append, List.length_cons, hRandom, Masking.length_mask]
    · rw [content, hData, hKey, List.take_left' (Masking.length_mask random data)]
      exact Masking.mask_mask random data
  | false =>
    set stated := formatLength 0 data.length with hStated
    obtain ⟨hHeader, hLength, hShort⟩ := formatLength_spec false hn b0 (data ++ rest)
    have hMessage : message = b0 :: stated ++ data := rfl
    have hb : b = b0 :: (stated ++ (data ++ rest)) := by simp [b, hMessage]
    simp only [Bool.false_eq_true, if_false, ← hStated, ← hb, Nat.add_zero] at hHeader hLength hShort
    have hData : b.drop (headerLength false (b.getD 1 0)) = data ++ rest := by
      have hFront : b = (b0 :: stated) ++ (data ++ rest) := by simp [hb]
      rw [hHeader, hFront, List.drop_left' (by simp)]
    refine ⟨?_, hLength, by rw [hb]; rfl, hShort, ?_⟩
    · rw [hHeader, hMessage]
      simp only [List.length_append, List.length_cons]
    · rw [content, hData, List.take_left' rfl]
      rfl

/-! ### A message that arrives -/

/-- A call of `send`, with what `rand` gives in it. -/
structure Message where
  opCode : UInt8
  data : List UInt8
  compress : Bool
  random : List UInt8
  random_length : random.length = 4

/-- A message is deflated when this was asked for and agreed on, and it is not a control message. -/
def Message.deflated (perMessageDeflate : Bool) (m : Message) : Bool :=
  m.compress && perMessageDeflate && m.opCode < 3

def Message.payload (deflate : List UInt8 → List UInt8) (perMessageDeflate : Bool) (m : Message) :
    List UInt8 :=
  if m.deflated perMessageDeflate then deflate m.data else m.data

/-- What `send` writes. -/
def Message.wire (isServer : Bool) (deflate : List UInt8 → List UInt8) (perMessageDeflate : Bool)
    (m : Message) : List UInt8 :=
  let data := m.payload deflate perMessageDeflate
  formatMessage isServer m.random data m.opCode data.length (m.deflated perMessageDeflate)

/-- A message is handed to the receiver as it is. -/
def arrive (g : Group σ) (w : WebSocket σ) (m : Message) : WebSocket σ :=
  if w.ended then w
  else if m.opCode < 3 then (w.deliver g m.opCode m.data).2
  else (w.handleControl g m.opCode m.data).2

/-- What a receiver takes: a payload that it does not find too long, and that it can inflate. -/
structure Fits (g : Group σ) (deflate : List UInt8 → List UInt8) (perMessageDeflate : Bool)
    (m : Message) : Prop where
  sendable : Sendable m.opCode
  small : (m.payload deflate perMessageDeflate).length ≤ g.maxPayload.toNat
  control : ¬m.opCode < 3 → m.data.length < 126
  inflates : m.deflated perMessageDeflate = true → g.inflate (deflate m.data) = some m.data

/-- A connection that is in the middle of nothing. -/
structure Idle (perMessageDeflate : Bool) (w : WebSocket σ) : Prop where
  isOpen : w.ended = false
  state : w.toWebSocketState = {}
  buffer : w.fragmentBuffer = []
  tip : w.controlTipLength = 0
  pong : w.hasOutstandingPong = false
  status : w.compressionStatus = if perMessageDeflate then .enabled else .disabled

theorem idle_connected (user : σ) {perMessageDeflate : Bool} :
    Idle perMessageDeflate (connected user perMessageDeflate) := ⟨rfl, rfl, rfl, rfl, rfl, rfl⟩

variable {deflate : List UInt8 → List UInt8} {perMessageDeflate : Bool} {m : Message}

theorem Idle.ready (h : Idle perMessageDeflate w) : Ready w :=
  ⟨h.isOpen, h.tip, h.pong, by simp [h.state]⟩

theorem Idle.keeping (h : Idle perMessageDeflate w) : w.keeping {} [] 0 = w := by
  rw [← h.state, ← h.buffer, ← h.tip]
  exact keeping_self w

theorem Idle.settle (h : Idle perMessageDeflate w) : w.settle = w := by
  rw [h.ready.settle_eq, h.state, h.buffer]
  exact h.keeping

theorem Idle.arrive (h : Idle perMessageDeflate w) (hOpen : (arrive g w m).ended = false) :
    Idle perMessageDeflate (arrive g w m) := by
  unfold Uws.arrive at hOpen ⊢
  rw [if_neg (Bool.eq_false_iff.mp h.isOpen)] at hOpen ⊢
  split at hOpen
  · rename_i hOp
    rw [if_pos hOp]
    unfold deliver at hOpen ⊢
    split at hOpen
    · rw [forceClose_ended] at hOpen
      cases hOpen
    · rename_i hValid
      rw [if_neg hValid]
      exact ⟨hOpen, h.state, h.buffer, h.tip, h.pong, h.status⟩
  · rename_i hOp
    rw [if_neg hOp]
    unfold handleControl at hOpen ⊢
    split at hOpen
    · rw [close_ended] at hOpen
      cases hOpen
    · rename_i hClose
      rw [if_neg hClose]
      split at hOpen
      · rename_i hPing
        rw [if_pos hPing]
        exact ⟨hOpen, h.state, h.buffer, h.tip, h.pong, h.status⟩
      · rename_i hPing
        rw [if_neg hPing]
        split at hOpen
        · rename_i hPong
          rw [if_pos hPong]
          exact ⟨hOpen, h.state, h.buffer, h.tip, h.pong, h.status⟩
        · rename_i hPong
          rw [if_neg hPong]
          exact h

/-- The frame is taken off the stack again. -/
theorem popped_keeping (opCode : UInt8) {v : WebSocket σ} (h : v.ended = false → Idle perMessageDeflate v) :
    (popped true (v.keeping { opStack := [opCode] } [] 0)).settle = v.settle := by
  cases hEnded : v.ended with
  | true =>
    rw [popped_of_ended (by simpa using hEnded), settle_of_ended hEnded]
    exact settle_of_ended hEnded
  | false =>
    have hIdle := h hEnded
    have hPop : popped true (v.keeping { opStack := [opCode] } [] 0) = v.keeping {} [] 0 := rfl
    rw [hPop, hIdle.keeping]

theorem Message.deflated_eq_true (h : m.deflated perMessageDeflate = true) :
    perMessageDeflate = true ∧ m.opCode < 3 := by
  simp only [Message.deflated, Bool.and_eq_true, decide_eq_true_eq] at h
  exact ⟨h.1.2, h.2⟩

/-- The connection with the frame of a message begun. -/
def begun (perMessageDeflate : Bool) (m : Message) (w : WebSocket σ) : WebSocket σ :=
  { w.keeping { opStack := [m.opCode] } [] 0 with
    compressionStatus :=
      if m.deflated perMessageDeflate then .compressedFrame else w.compressionStatus }

theorem handleMessage_begun (h : Idle perMessageDeflate w) (hm : Fits g deflate perMessageDeflate m) :
    (begun perMessageDeflate m w).handleMessage g m.opCode (m.payload deflate perMessageDeflate) =
      (w.keeping { opStack := [m.opCode] } [] 0).deliver g m.opCode m.data := by
  cases hDeflated : m.deflated perMessageDeflate with
  | true =>
    have hStatus : w.compressionStatus = .enabled := by
      rw [h.status, (Message.deflated_eq_true hDeflated).1]
      rfl
    have hInflated : (begun perMessageDeflate m w).inflated g (deflate m.data) =
        (some m.data, w.keeping { opStack := [m.opCode] } [] 0) := by
      simp only [inflated, begun, hDeflated, if_true, hm.inflates hDeflated, ← hStatus]
      rfl
    simp only [Message.payload, hDeflated, if_true, handleMessage, hInflated]
  | false =>
    have hBegun : begun perMessageDeflate m w = w.keeping { opStack := [m.opCode] } [] 0 := by
      simp only [begun, hDeflated, Bool.false_eq_true, if_false]
      rfl
    have hStatus : w.compressionStatus ≠ .compressedFrame := by
      rw [h.status]
      split <;> decide
    have hInflated : (w.keeping { opStack := [m.opCode] } [] 0).inflated g m.data =
        (some m.data, w.keeping { opStack := [m.opCode] } [] 0) := if_neg hStatus
    simp only [Message.payload, hDeflated, Bool.false_eq_true, if_false, hBegun, handleMessage,
      hInflated]

/-- The frame of a message does what the message does. -/
theorem complete_begun (h : Idle perMessageDeflate w) (hm : Fits g deflate perMessageDeflate m) :
    (complete g (begun perMessageDeflate m w) (m.payload deflate perMessageDeflate) true).settle =
      (arrive g w m).settle := by
  have hArrive : (arrive g w m).ended = false → Idle perMessageDeflate (arrive g w m) := h.arrive
  by_cases hOp : m.opCode < 3
  · have hFragment : (begun perMessageDeflate m w).handleFragment g
        (m.payload deflate perMessageDeflate) 0 m.opCode true =
        (begun perMessageDeflate m w).handleMessage g m.opCode (m.payload deflate perMessageDeflate) := by
      unfold handleFragment
      rw [if_pos hOp]
      exact if_pos ⟨rfl, rfl, rfl⟩
    have hEq : arrive g w m = (w.deliver g m.opCode m.data).2 := by
      rw [arrive, if_neg (Bool.eq_false_iff.mp h.isOpen), if_pos hOp]
    rw [handleMessage_begun h hm, deliver_keeping] at hFragment
    rw [hEq] at hArrive ⊢
    rw [← popped_keeping m.opCode hArrive]
    exact congrArg (fun r => (popped true r.2).settle) hFragment
  · have hNot : m.deflated perMessageDeflate = false :=
      Bool.eq_false_iff.mpr fun hd => hOp (Message.deflated_eq_true hd).2
    have hBegun : begun perMessageDeflate m w = w.keeping { opStack := [m.opCode] } [] 0 := by
      simp only [begun, hNot, Bool.false_eq_true, if_false]
      rfl
    have hFragment : (begun perMessageDeflate m w).handleFragment g
        (m.payload deflate perMessageDeflate) 0 m.opCode true =
        (begun perMessageDeflate m w).handleControl g m.opCode (m.payload deflate perMessageDeflate) := by
      unfold handleFragment
      rw [if_neg hOp]
      exact if_pos ⟨rfl, rfl, rfl⟩
    have hPayload : m.payload deflate perMessageDeflate = m.data := by
      simp only [Message.payload, hNot, Bool.false_eq_true, if_false]
    have hEq : arrive g w m = (w.handleControl g m.opCode m.data).2 := by
      rw [arrive, if_neg (Bool.eq_false_iff.mp h.isOpen), if_neg hOp]
    rw [hPayload, hBegun, handleControl_keeping] at hFragment
    rw [hEq] at hArrive ⊢
    rw [← popped_keeping m.opCode hArrive, hPayload, hBegun]
    exact congrArg (fun r => (popped true r.2).settle) hFragment

theorem startMessage_begun {b0 : UInt8} (h : Idle perMessageDeflate w) (hCode : getOpCode b0 = m.opCode)
    (hFin : isFin b0 = true) (hm : Fits g deflate perMessageDeflate m) :
    startMessage g b0 (m.payload deflate perMessageDeflate).length
      { w with compressionStatus :=
          if m.deflated perMessageDeflate then .compressedFrame else w.compressionStatus } =
      some (begun perMessageDeflate m w) := by
  have hOp : m.opCode ≠ 0 := by
    rcases hm.sendable with h | h | h | h | h <;> rw [h] <;> decide
  rw [← h.keeping]
  simp [startMessage, begun, keeping, hCode, hOp, hFin, not_lt.mpr hm.small]

/-- The decoder takes a message as it is handed over. -/
theorem nextFrame_wire (isServer : Bool) (h : Idle perMessageDeflate w) (hm : Fits g deflate perMessageDeflate m)
    (rest : List UInt8) :
    nextFrame g isServer w (m.wire (!isServer) deflate perMessageDeflate ++ rest) =
      .item (m.wire (!isServer) deflate perMessageDeflate).length (arrive g w m).settle [] := by
  have hSmall : (m.payload deflate perMessageDeflate).length < 2 ^ 32 :=
    lt_of_le_of_lt hm.small g.maxPayload.toNat_lt
  obtain ⟨hLength, hStated, hFirst, hShort, hContent⟩ := formatMessage_spec isServer
    (show (m.payload deflate perMessageDeflate).length < 2 ^ 64 by omega) m.random_length m.opCode
    (m.deflated perMessageDeflate) rest
  obtain ⟨hFin, hCode, hRsv1, hRsv23⟩ := firstByte hm.sendable (m.deflated perMessageDeflate)
  have hWire : m.wire (!isServer) deflate perMessageDeflate = formatMessage (!isServer) m.random
    (m.payload deflate perMessageDeflate) m.opCode (m.payload deflate perMessageDeflate).length
    (m.deflated perMessageDeflate) := rfl
  rw [← hWire] at hLength hStated hFirst hShort hContent
  set b := m.wire (!isServer) deflate perMessageDeflate ++ rest with hb
  rw [← hFirst] at hFin hCode hRsv1 hRsv23
  have hThere : headerLength isServer (b.getD 1 0) + (m.payload deflate perMessageDeflate).length ≤
      b.length := by
    rw [hb, List.length_append, hLength]
    exact Nat.le_add_right ..
  have hLe := short_le_headerLength isServer (b.getD 1 0)
  have hNotControl : (2 < m.opCode && (!isFin (b.getD 0 0) || 125 < payloadLength (b.getD 1 0))) =
      false := by
    rw [hFin]
    by_cases hOp : m.opCode < 3
    · have : ¬2 < m.opCode := by grind
      simp [this]
    · have hNot : m.deflated perMessageDeflate = false :=
        Bool.eq_false_iff.mpr fun hd => hOp (Message.deflated_eq_true hd).2
      have hPayload : m.payload deflate perMessageDeflate = m.data := by
        simp only [Message.payload, hNot, Bool.false_eq_true, if_false]
      rw [hPayload] at hShort
      have hLess := hShort (hm.control hOp)
      have : ¬125 < payloadLength (b.getD 1 0) := by grind
      rw [decide_eq_false this, Bool.not_true, Bool.false_or, Bool.and_false]
  have hCheck : checkHead (b.getD 0 0) (b.getD 1 0) w = some { w with
      compressionStatus :=
        if m.deflated perMessageDeflate then .compressedFrame else w.compressionStatus } := by
    have hKnown : (2 < m.opCode && m.opCode < 8) = false ∧ ¬10 < m.opCode := by
      rcases hm.sendable with h | h | h | h | h <;> rw [h] <;> decide
    unfold checkHead
    simp only [hRsv1, hRsv23, hCode, hKnown.1, hNotControl, decide_eq_false hKnown.2, Bool.or_self,
      Bool.false_eq_true, if_false]
    cases hDeflated : m.deflated perMessageDeflate with
    | true =>
      have hStatus : w.compressionStatus = .enabled := by
        rw [h.status, (Message.deflated_eq_true hDeflated).1]
        rfl
      simp only [setCompressed, hStatus, if_true, Option.bind_eq_bind, Option.bind_some]
    | false => rfl
  have hStart : startMessage g (b.getD 0 0) (m.payload deflate perMessageDeflate).length
      { w with compressionStatus :=
          if m.deflated perMessageDeflate then .compressedFrame else w.compressionStatus } =
      some (begun perMessageDeflate m w) :=
    startMessage_begun h hCode hFin hm
  have hFront : front g isServer w b = .frame (begun perMessageDeflate m w)
      (headerLength isServer (b.getD 1 0)) (m.payload deflate perMessageDeflate).length := by
    rw [front, if_neg (by omega), hCheck]
    simp only
    rw [if_neg (by omega), hStated, hStart]
  rw [nextFrame, if_neg (Bool.eq_false_iff.mp h.isOpen), hFront]
  simp only
  rw [if_pos hThere, hContent, hFin, hLength, complete_begun h hm]

/-! ### What arrives of a stream -/

theorem foldl_arrive_ended (h : w.ended = true) (ms : List Message) : ms.foldl (arrive g) w = w := by
  induction ms with
  | nil => rfl
  | cons m ms ih => rw [List.foldl_cons, arrive, if_pos h, ih]

theorem nextFrame_nil (g : Group σ) (isServer : Bool) (w : WebSocket σ) : nextFrame g isServer w [] = .more := by
  have hShort : ([] : List UInt8).length < shortMessageHeader isServer :=
    Nat.lt_of_lt_of_le (by decide) (two_le_short isServer)
  rw [nextFrame, front, if_pos hShort]
  split <;> rfl

theorem drain_stream (isServer : Bool) {ms : List Message} (h : Idle perMessageDeflate w)
    (hms : ∀ m ∈ ms, Fits g deflate perMessageDeflate m) :
    ∃ F raw, (frames g isServer).drain w
        (ms.flatMap (Message.wire (!isServer) deflate perMessageDeflate)) = ([], some (F, raw)) ∧
      F.seen = (ms.foldl (arrive g) w).seen := by
  induction ms generalizing w with
  | nil =>
    exact ⟨w, [], Decoder.drain_more (nextFrame_nil g isServer w), rfl⟩
  | cons m ms ih =>
    obtain ⟨hm, hms⟩ := List.forall_mem_cons.mp hms
    have hItem := nextFrame_wire isServer h hm
      (ms.flatMap (Message.wire (!isServer) deflate perMessageDeflate))
    rw [List.flatMap_cons, List.foldl_cons, Decoder.drain_item (D := frames g isServer) hItem,
      List.drop_left]
    cases hEnded : (arrive g w m).ended with
    | true =>
      have hMore : (frames g isServer).next (arrive g w m).settle
          (ms.flatMap (Message.wire (!isServer) deflate perMessageDeflate)) = .more :=
        if_pos (by simpa using hEnded)
      rw [Decoder.drain_more hMore, foldl_arrive_ended hEnded]
      exact ⟨_, _, rfl, seen_settle _⟩
    | false =>
      have hIdle := h.arrive hEnded
      obtain ⟨F, raw, hDrain, hSeen⟩ := ih hIdle hms
      rw [hIdle.settle, hDrain]
      exact ⟨F, raw, rfl, hSeen⟩

/-- A message that is not deflated does not begin like a compressed frame. -/
theorem not_cutLength_wire (isServer : Bool) {m : Message} (hm : Fits g deflate perMessageDeflate m)
    (hThis : m.deflated perMessageDeflate = false) {p q rest : List UInt8}
    (hBytes : p ++ q = m.wire (!isServer) deflate perMessageDeflate ++ rest) : ¬CutLength isServer p := by
  rintro ⟨hThere, -, hRsv⟩
  have hTwo := two_le_short isServer
  -- the first byte of the message says that it is not compressed
  have hSmall : (m.payload deflate perMessageDeflate).length < 2 ^ 32 :=
    lt_of_le_of_lt hm.small g.maxPayload.toNat_lt
  obtain ⟨-, -, hFirst, -, -⟩ := formatMessage_spec isServer
    (show (m.payload deflate perMessageDeflate).length < 2 ^ 64 by omega) m.random_length m.opCode
    (m.deflated perMessageDeflate) rest
  have hSame : p.getD 0 0 = 128 ||| (if m.deflated perMessageDeflate then 64 else 0) ||| m.opCode := by
    rw [← hFirst, ← List.getD_append p q 0 0 (by omega), hBytes]
    rfl
  have hPlainByte := (firstByte hm.sendable (m.deflated perMessageDeflate)).2.2.1
  rw [← hSame, hRsv, hThis] at hPlainByte
  exact Bool.false_ne_true hPlainByte.symm

/-- A stream of messages that are not deflated is never cut where the next read is refused. -/
theorem not_cut_of_plain (isServer : Bool) {ms : List Message} (h : Idle perMessageDeflate w)
    (hms : ∀ m ∈ ms, Fits g deflate perMessageDeflate m)
    (hPlain : ∀ m ∈ ms, m.deflated perMessageDeflate = false) {p q raw : List UInt8} {F : WebSocket σ}
    (hBytes : p ++ q = ms.flatMap (Message.wire (!isServer) deflate perMessageDeflate))
    (hDrain : (frames g isServer).drain w p = ([], some (F, raw))) :
    ¬(F.ended = false ∧ CutLength isServer raw) := by
  have hTwo := two_le_short isServer
  have hMoreCase : (frames g isServer).next w p = .more → F = w ∧ raw = p := by
    intro hMore
    rw [Decoder.drain_more hMore] at hDrain
    cases hDrain
    exact ⟨rfl, rfl⟩
  induction ms generalizing w p with
  | nil =>
    obtain ⟨rfl, rfl⟩ := List.append_eq_nil_iff.mp hBytes
    obtain ⟨rfl, rfl⟩ := hMoreCase (nextFrame_nil g isServer w)
    rintro ⟨-, hThere, -, -⟩
    rw [List.length_nil] at hThere
    omega
  | cons m ms ih =>
    obtain ⟨hm, hms⟩ := List.forall_mem_cons.mp hms
    obtain ⟨hThis, hPlain⟩ := List.forall_mem_cons.mp hPlain
    rw [List.flatMap_cons] at hBytes
    have hItem : (frames g isServer).next w (p ++ q) = _ := hBytes ▸ nextFrame_wire isServer h hm
      (ms.flatMap (Message.wire (!isServer) deflate perMessageDeflate))
    by_cases hMore : (frames g isServer).next w p = .more
    · obtain ⟨rfl, rfl⟩ := hMoreCase hMore
      exact fun hCut => not_cutLength_wire isServer hm hThis hBytes hCut.2
    · rw [Decoder.stable _ q hMore] at hItem
      have hLe := (frames g isServer).size_le hItem
      have hRest : p.drop (m.wire (!isServer) deflate perMessageDeflate).length ++ q =
          ms.flatMap (Message.wire (!isServer) deflate perMessageDeflate) := by
        rw [← List.drop_append_of_le_length hLe, hBytes, List.drop_left]
      rw [Decoder.drain_item hItem, List.nil_append] at hDrain
      have hTail : (frames g isServer).drain (arrive g w m).settle
          (p.drop (m.wire (!isServer) deflate perMessageDeflate).length) = ([], some (F, raw)) := hDrain
      cases hEnded : (arrive g w m).ended with
      | true =>
        have hStop : (frames g isServer).next (arrive g w m).settle
            (p.drop (m.wire (!isServer) deflate perMessageDeflate).length) = .more :=
          if_pos (by simpa using hEnded)
        rw [Decoder.drain_more hStop] at hTail
        cases hTail
        simp [hEnded]
      | false =>
        have hIdle := h.arrive hEnded
        rw [hIdle.settle] at hTail
        refine ih hIdle hms hPlain hRest hTail fun hStop => ?_
        rw [Decoder.drain_more hStop] at hTail
        cases hTail
        exact ⟨rfl, rfl⟩

/-- So all of its reads are taken. -/
theorem plain_receive {user : σ} {ms : List Message} {reads : List (Read isServer)}
    (hms : ∀ m ∈ ms, Fits g deflate perMessageDeflate m)
    (hPlain : ∀ m ∈ ms, m.deflated perMessageDeflate = false)
    (hBytes : bytes reads = ms.flatMap (Message.wire (!isServer) deflate perMessageDeflate)) :
    ∃ w, receive g reads (connected user perMessageDeflate) = some w ∧
      Reached g isServer (connected user perMessageDeflate) (bytes reads) w := by
  refine Holds.connected.receive fun front back hReads _ F' raw' hCut => ?_
  have hSplit : bytes front ++ bytes back =
      ms.flatMap (Message.wire (!isServer) deflate perMessageDeflate) := by
    rw [← hBytes, hReads]
    exact List.flatMap_append.symm
  exact not_cut_of_plain isServer (idle_connected user) hms hPlain hSplit hCut

/-- `Hello`, and what zlib makes of it with a synchronizing flush, without the four bytes at its end. -/
def hello : List UInt8 := [0x48, 0x65, 0x6c, 0x6c, 0x6f]

def helloDeflated : List UInt8 := [0xf2, 0x48, 0xcd, 0xc9, 0xc9, 0x07, 0x00]

/-- A group that inflates it. -/
def inflater : Group (List Event) :=
  { keeper with inflate := fun data => if data = helloDeflated then some hello else none }

/-- A close payload is read back when its code may be sent and its text is text; else nothing is. -/
theorem parse_formatClosePayload {code : ℕ} (hCode : code < 2 ^ 16) (message : List UInt8) :
    parseClosePayload (formatClosePayload code message) =
      if badCode code || !isValidUtf8 message then {} else ⟨code, message⟩ := by
  by_cases hZero : code % 2 ^ 16 ≠ 0
  · obtain ⟨b0, b1, hBig⟩ := List.length_eq_two.mp (Endian.length_big 2 code)
    have hBack : Endian.ofBig [b0, b1] = code := by rw [← hBig, Endian.ofBig_big (by omega)]
    rw [formatClosePayload, if_pos hZero, hBig]
    simp only [List.cons_append, List.nil_append, parseClosePayload, hBack]
  · obtain rfl : code = 0 := by omega
    rfl

/-- The call of `send` in `close`. -/
def closing (code : ℕ) (message random : List UInt8) (h : random.length = 4) : Message where
  opCode := OpCode.close
  data := formatClosePayload code (message.take maxClosePayload)
  compress := false
  random := random
  random_length := h

theorem length_formatClosePayload (code : ℕ) (message : List UInt8) :
    (formatClosePayload code (message.take maxClosePayload)).length ≤ 125 := by
  unfold formatClosePayload
  split
  · rw [List.length_append, Endian.length_big, List.length_take, maxClosePayload]
    omega
  · exact Nat.zero_le _

theorem fits_closing {code : ℕ} {message : List UInt8} (hRandom : random.length = 4)
    (hMax : 125 ≤ g.maxPayload.toNat) :
    Fits g deflate perMessageDeflate (closing code message random hRandom) := by
  have hLength := length_formatClosePayload code message
  exact ⟨Or.inr (Or.inr (Or.inl rfl)), le_trans hLength hMax,
    fun _ => Nat.lt_succ_of_le hLength, fun h => absurd h Bool.false_ne_true⟩

/-- **The closing handshake**: the other end is told the code and the text that `close` was called with,
cut to 123 bytes, and sends them back; it is told nothing when the code is not one that may be sent or
the text is not UTF-8, or no longer is after the cut. -/
theorem close_arrives {user : σ} {code : ℕ} {message : List UInt8} {reads : List (Read isServer)}
    (hRandom : random.length = 4) (hCode : code < 2 ^ 16) (hMax : 125 ≤ g.maxPayload.toNat)
    (hBytes : bytes reads =
      (closing code message random hRandom).wire (!isServer) deflate perMessageDeflate) :
    ∃ w, receive g reads (connected user perMessageDeflate) = some w ∧
      w.out =
        (let text := message.take maxClosePayload
         if badCode code || !isValidUtf8 text then [.disconnection 0 [], .send OpCode.close []]
         else [.disconnection code text, .send OpCode.close (formatClosePayload code text)]) := by
  have hFits : ∀ m ∈ [closing code message random hRandom], Fits g deflate perMessageDeflate m := by
    simpa using fits_closing hRandom hMax
  have hPlain : ∀ m ∈ [closing code message random hRandom], m.deflated perMessageDeflate = false :=
    List.forall_mem_singleton.mpr rfl
  have hStream : bytes reads = [closing code message random hRandom].flatMap
      (Message.wire (!isServer) deflate perMessageDeflate) := by
    rw [List.flatMap_singleton, hBytes]
  obtain ⟨w, hEq, F, raw, hDrain, hHolds⟩ : ∃ w,
      receive g reads (connected user perMessageDeflate) = some w ∧ _ := plain_receive hFits hPlain hStream
  obtain ⟨F', raw', hDrain', hSeen⟩ := drain_stream isServer (idle_connected user) hFits
  rw [← hStream, hDrain] at hDrain'
  cases hDrain'
  refine ⟨w, hEq, ?_⟩
  have hOut : w.out = (arrive g (connected user perMessageDeflate)
      (closing code message random hRandom)).out :=
    congrArg (fun t => t.2.1) ((hHolds.elim Holds.seen Cut.seen).trans hSeen)
  rw [hOut]
  change (WebSocket.close g (parseClosePayload (formatClosePayload code (message.take maxClosePayload))).code
    (parseClosePayload (formatClosePayload code (message.take maxClosePayload))).message
    (connected user perMessageDeflate)).out = _
  rw [parse_formatClosePayload hCode]
  simp only
  split
  · rfl
  · simp only [WebSocket.close, List.take_take, min_self]
    rfl

theorem close_arrives_ok : ∃ w,
    receive keeper [fresh true [0x88, 0x84, 1, 2], fresh true [3, 4, 2, 0xea, 0x6c, 0x6f]]
        (connected [] true) = some w ∧
      w.out =
        (let text := [0x6f, 0x6b].take maxClosePayload
         if badCode 1000 || !isValidUtf8 text then [.disconnection 0 [], .send OpCode.close []]
         else [.disconnection 1000 text, .send OpCode.close (formatClosePayload 1000 text)]) :=
  @close_arrives _ keeper true [1, 2, 3, 4] id true [] 1000 [0x6f, 0x6b] _ rfl (by decide) (by decide)
    (by decide)

end DemoCode.Uws
