import DemoCode.Lib.Decoder
import DemoCode.WebSocket.Proto

/-! The parser of `CWebSocketProto` as an incremental decoder of frames.  `front` is what the head
and the length at the front of a buffer say; the decoder that waits whenever `front` does, and for
ever at the end of an empty message, is a codec of the frames that the parser accepts; and
`parseMsg_eq` says that `ParseMsg` is this decoder, except that it gives up on a buffer that holds
one byte, and throws where the decoder is stuck. -/

namespace DemoCode.WebSocket

inductive Front where
  | wait
  | bad
  | whole (pHead : Head) (keyLen dataLen : Nat)

/-- The front of a buffer: too short to tell, a frame to refuse, or a whole frame. -/
def front (defaultDataMaxSize : UInt32) : List UInt8 → Front
  | b0 :: b1 :: tail =>
    let pHead := Head.ofBytes b0 b1
    if checkOpCode (.ofCode pHead.opCode) = false then
      .bad
    else
      match keyAndDataLen pHead (b0 :: b1 :: tail) with
      | none => .wait
      | some (keyLen, dataLen) =>
        if defaultDataMaxSize.toNat < dataLen then
          .bad
        else if (b0 :: b1 :: tail).length < 2 + keyLen + pHead.maskLen + dataLen then
          .wait
        else
          .whole pHead keyLen dataLen
  | _ => .wait

theorem front_eq_whole {limit : UInt32} {b : List UInt8} {pHead : Head} {keyLen dataLen : Nat} :
    front limit b = .whole pHead keyLen dataLen ↔
      checkOpCode (.ofCode pHead.opCode) = true ∧ b.take 2 = [pHead.byte0, pHead.byte1] ∧
      keyAndDataLen pHead b = some (keyLen, dataLen) ∧ dataLen ≤ limit.toNat ∧
      2 + keyLen + pHead.maskLen + dataLen ≤ b.length := by
  match b with
  | [] => simp [front]
  | [_] => simp [front]
  | b0 :: b1 :: tail =>
    simp only [front]
    constructor
    · intro h
      split at h
      · cases h
      rename_i hOp
      split at h
      · cases h
      rename_i hKey
      split at h
      · cases h
      split at h
      · cases h
      cases h
      exact ⟨by simpa using hOp, by simp, hKey, by omega, by omega⟩
    · rintro ⟨hOp, hTake, hKey, hLimit, hLength⟩
      obtain ⟨rfl, rfl⟩ : b0 = pHead.byte0 ∧ b1 = pHead.byte1 := by simpa using hTake
      rw [Head.ofBytes_bytes, if_neg (by simp [hOp]), hKey]
      simp only
      rw [if_neg (by omega), if_neg (by omega)]

theorem take_drop_append {b : List UInt8} {i n : Nat} (c : List UInt8) (h : i + n ≤ b.length) :
    ((b ++ c).drop i).take n = (b.drop i).take n := by
  rw [List.drop_append_of_le_length (by omega), List.take_append_of_le_length (by simp; omega)]

theorem keyAndDataLen_append {pHead : Head} {b : List UInt8} {x : Nat × Nat} (c : List UInt8)
    (h : keyAndDataLen pHead b = some x) : keyAndDataLen pHead (b ++ c) = some x := by
  unfold keyAndDataLen at h ⊢
  split
  · rw [if_pos ‹_›] at h
    exact h
  rw [if_neg ‹_›] at h
  split
  · rw [if_pos ‹_›] at h
    split at h
    · cases h
    · rw [if_neg (by simp; omega), take_drop_append c (by omega)]
      exact h
  · rw [if_neg ‹_›] at h
    split at h
    · cases h
    · rw [if_neg (by simp; omega), take_drop_append c (by omega)]
      exact h

/-- More bytes at the end do not change what the front says. -/
theorem front_append {limit : UInt32} {b : List UInt8} (c : List UInt8)
    (h : front limit b ≠ .wait) : front limit (b ++ c) = front limit b := by
  match b with
  | [] => simp [front] at h
  | [_] => simp [front] at h
  | b0 :: b1 :: tail =>
    simp only [front, List.cons_append] at h ⊢
    split
    · rfl
    rw [if_neg ‹_›] at h
    cases hKey : keyAndDataLen (Head.ofBytes b0 b1) (b0 :: b1 :: tail) with
    | none => simp [hKey] at h
    | some x =>
      have hLong := keyAndDataLen_append c hKey
      rw [List.cons_append, List.cons_append] at hLong
      rw [hLong]
      simp only [hKey] at h ⊢
      split
      · rfl
      rw [if_neg ‹_›] at h
      split at h
      · exact absurd rfl h
      · rename_i hLength
        simp only [List.length_cons] at hLength
        rw [if_neg (by simp; omega), if_neg (by simp; omega)]

/-- The data of the frame at the front of a buffer. -/
def framePayload (pHead : Head) (keyLen dataLen : Nat) (b : List UInt8) : List UInt8 :=
  let dataStart := (b.drop (2 + keyLen + pHead.maskLen)).take dataLen
  if pHead.mask then xorMask ((b.drop (2 + keyLen)).take 4) dataStart else dataStart

/-- What a frame does to the data cache, and the callback it gives. -/
def deliver (dataCache : List UInt8) (fin : Bool) (opCode : OpCode) (payload : List UInt8) :
    List UInt8 × List Callback :=
  if fin then ([], [Callback.ofData (dataCache ++ payload) opCode]) else (dataCache ++ payload, [])

theorem Callback.ofData_eq {data : List UInt8} (opCode : OpCode) (h : data.length < 2 ^ 32) :
    Callback.ofData data opCode = ⟨data, opCode⟩ := by
  have hLen : (UInt32.ofNat data.length).toNat = data.length := UInt32.toNat_ofNat_of_lt' h
  rw [Callback.ofData, hLen, List.take_length]

/-- A final frame that leaves the callback without data. -/
def emptyFinal (dataCache : List UInt8) (fin : Bool) (payload : List UInt8) : Bool :=
  fin && (dataCache ++ payload).isEmpty

theorem emptyFinal_iff {dataCache payload : List UInt8} {fin : Bool} :
    emptyFinal dataCache fin payload = true ↔ fin = true ∧ dataCache ++ payload = [] := by
  rw [emptyFinal, Bool.and_eq_true, List.isEmpty_iff]

theorem takeFrame_eq (p : Proto) (pHead : Head) (keyLen dataLen : Nat) :
    takeFrame p pHead keyLen dataLen =
      if emptyFinal p.dataCache pHead.fin (framePayload pHead keyLen dataLen p.pkgCache) then
        .leave [] (.threw, p)
      else
        let x := deliver p.dataCache pHead.fin (.ofCode pHead.opCode)
          (framePayload pHead keyLen dataLen p.pkgCache)
        endPass x.2 ⟨p.pkgCache.drop (2 + keyLen + pHead.maskLen + dataLen), x.1⟩ := by
  show finishFrame pHead ⟨p.pkgCache, p.dataCache ++ framePayload pHead keyLen dataLen p.pkgCache⟩ _ = _
  generalize framePayload pHead keyLen dataLen p.pkgCache = payload
  unfold finishFrame deliver emptyFinal
  cases pHead.fin with
  | false => rfl
  | true =>
    by_cases hNone : p.dataCache ++ payload = []
    · have hCache := (List.append_eq_nil_iff.mp hNone).1
      simp only [hNone, List.isEmpty_nil, if_true, Bool.and_self]
      rw [← hCache]
    · simp only [List.isEmpty_iff, hNone, if_true, if_false, Bool.true_and]

theorem parsePass_eq {limit : UInt32} {p : Proto} (h : 2 ≤ p.pkgCache.length) :
    parsePass limit p =
      match front limit p.pkgCache with
      | .wait => .leave [] (.returned (-1), p)
      | .bad => .leave [] closeClear
      | .whole pHead keyLen dataLen => takeFrame p pHead keyLen dataLen := by
  obtain ⟨b, d⟩ := p
  match b with
  | [] => simp at h
  | [_] => simp at h
  | b0 :: b1 :: tail =>
    simp only [parsePass, front]
    cases checkOpCode (.ofCode (Head.ofBytes b0 b1).opCode) with
    | false => simp
    | true =>
      simp only [Bool.not_true, Bool.false_eq_true, if_false, reduceCtorEq]
      cases keyAndDataLen (Head.ofBytes b0 b1) (b0 :: b1 :: tail) with
      | none => rfl
      | some x =>
        by_cases hLimit : limit.toNat < x.2
        · simp [hLimit]
        · by_cases hLength : (b0 :: b1 :: tail).length <
            2 + x.1 + (Head.ofBytes b0 b1).maskLen + x.2
          · simp only [hLimit, hLength, if_false, if_true]
          · simp only [hLimit, hLength, if_false]

/-! ### The decoder -/

/-- The front of a buffer is a whole frame that leaves the callback without data. -/
def stuck (limit : UInt32) (dataCache b : List UInt8) : Bool :=
  match front limit b with
  | .whole pHead keyLen dataLen =>
    emptyFinal dataCache pHead.fin (framePayload pHead keyLen dataLen b)
  | _ => false

def frameVerdict (limit : UInt32) (dataCache b : List UInt8) :
    Verdict (List UInt8) Callback :=
  if stuck limit dataCache b then
    .more
  else
    match front limit b with
    | .wait => .more
    | .bad => .fail
    | .whole pHead keyLen dataLen =>
      let x := deliver dataCache pHead.fin (.ofCode pHead.opCode)
        (framePayload pHead keyLen dataLen b)
      .item (2 + keyLen + pHead.maskLen + dataLen) x.1 x.2

theorem stuck_whole {limit : UInt32} {d b : List UInt8} {pHead : Head} {keyLen dataLen : Nat}
    (h : front limit b = .whole pHead keyLen dataLen) :
    stuck limit d b = emptyFinal d pHead.fin (framePayload pHead keyLen dataLen b) := by
  rw [stuck, h]

/-- A buffer that is stuck has a whole frame in front. -/
theorem front_of_stuck {limit : UInt32} {d b : List UInt8} (h : stuck limit d b = true) :
    ∃ pHead keyLen dataLen, front limit b = .whole pHead keyLen dataLen := by
  unfold stuck at h
  split at h
  · rename_i pHead keyLen dataLen hFront
    exact ⟨pHead, keyLen, dataLen, hFront⟩
  · cases h

theorem frameVerdict_stuck {limit : UInt32} {d b : List UInt8} (h : stuck limit d b = true) :
    frameVerdict limit d b = .more := if_pos h

theorem frameVerdict_more {limit : UInt32} {d b : List UInt8} (h : frameVerdict limit d b = .more) :
    stuck limit d b = true ∨ front limit b = .wait := by
  by_cases hStuck : stuck limit d b = true
  · exact .inl hStuck
  · right
    rw [frameVerdict, if_neg hStuck] at h
    cases hFront : front limit b <;> simp [hFront] at h ⊢

theorem frameVerdict_fail {limit : UInt32} {d b : List UInt8} (h : frameVerdict limit d b = .fail) :
    front limit b = .bad := by
  rcases ite_eq_iff.mp h with ⟨-, hMore⟩ | ⟨-, hFail⟩
  · cases hMore
  · cases hFront : front limit b <;> simp [hFront] at hFail ⊢

theorem frameVerdict_item {limit : UInt32} {d d' b : List UInt8} {n : Nat} {o : List Callback}
    (h : frameVerdict limit d b = .item n d' o) :
    ∃ pHead keyLen dataLen, front limit b = .whole pHead keyLen dataLen ∧
      n = 2 + keyLen + pHead.maskLen + dataLen ∧
      emptyFinal d pHead.fin (framePayload pHead keyLen dataLen b) = false ∧
      (d', o) = deliver d pHead.fin (.ofCode pHead.opCode)
        (framePayload pHead keyLen dataLen b) := by
  rcases ite_eq_iff.mp h with ⟨-, hMore⟩ | ⟨hFree, hItem⟩
  · cases hMore
  split at hItem
  · cases hItem
  · cases hItem
  · rename_i pHead keyLen dataLen hFront
    rw [stuck_whole hFront, Bool.not_eq_true] at hFree
    cases hItem
    exact ⟨pHead, keyLen, dataLen, hFront, rfl, hFree, rfl⟩

theorem framePayload_append {pHead : Head} {keyLen dataLen : Nat} {b : List UInt8}
    (c : List UInt8) (h : 2 + keyLen + pHead.maskLen + dataLen ≤ b.length) :
    framePayload pHead keyLen dataLen (b ++ c) = framePayload pHead keyLen dataLen b := by
  unfold framePayload
  rw [take_drop_append c h]
  by_cases hMask : pHead.mask = true
  · rw [if_pos hMask, if_pos hMask, take_drop_append c (by simp [Head.maskLen, hMask] at h; omega)]
  · rw [if_neg hMask, if_neg hMask]

/-- More bytes at the end do not change whether the front leaves the callback without data. -/
theorem stuck_append {limit : UInt32} {d b : List UInt8} (c : List UInt8)
    (h : front limit b ≠ .wait) : stuck limit d (b ++ c) = stuck limit d b := by
  unfold stuck
  rw [front_append c h]
  cases hFront : front limit b with
  | wait => rfl
  | bad => rfl
  | whole pHead keyLen dataLen =>
    simp only [framePayload_append c (front_eq_whole.mp hFront).2.2.2.2]

def frameDecoder (limit : UInt32) : Decoder (List UInt8) UInt8 Callback where
  next := frameVerdict limit
  size_pos h := by
    obtain ⟨_, _, _, _, rfl, _⟩ := frameVerdict_item h
    omega
  size_le h := by
    obtain ⟨_, _, _, hFront, rfl, _⟩ := frameVerdict_item h
    exact (front_eq_whole.mp hFront).2.2.2.2
  stable {d b} c h := by
    by_cases hStuck : stuck limit d b = true
    · exact absurd (frameVerdict_stuck hStuck) h
    have hWait : front limit b ≠ .wait := by
      intro hWait
      rw [frameVerdict, if_neg hStuck, hWait] at h
      exact h rfl
    unfold frameVerdict
    rw [stuck_append c hWait, front_append c hWait]
    cases hFront : front limit b with
    | wait => rfl
    | bad => rfl
    | whole pHead keyLen dataLen =>
      simp only [framePayload_append c (front_eq_whole.mp hFront).2.2.2.2]

/-! ### The codec of accepted frames -/

/-- A frame that a parser with the given limit lets through. -/
abbrev AcceptedFrame (limit : UInt32) := {f : Frame // f.Accepted limit}

theorem Frame.length_encode (f : Frame) :
    f.encode.length =
      2 + (f.form.bytes f.payload.length).length + f.head.maskLen + f.payload.length := by
  have hMask : (maskBytes f.mask).length = f.head.maskLen := length_maskBytes f.mask
  simp only [Frame.encode, List.length_cons, List.length_append, length_applyMask, hMask]
  omega

theorem keyAndDataLen_two {pHead : Head} {b : List UInt8} (h : pHead.payloadLen = 126)
    (hb : 4 ≤ b.length) :
    keyAndDataLen pHead b = some (2, Endian.ofBig ((b.drop 2).take 2)) := by
  unfold keyAndDataLen
  rw [h, if_neg (by decide), if_pos (by decide), if_neg (by omega)]

theorem keyAndDataLen_eight {pHead : Head} {b : List UInt8} (h : pHead.payloadLen = 127)
    (hb : 10 ≤ b.length) :
    keyAndDataLen pHead b = some (8, Endian.ofBig ((b.drop 2).take 8)) := by
  unfold keyAndDataLen
  rw [h, if_neg (by decide), if_neg (by decide), if_neg (by omega)]

theorem keyAndDataLen_encode (f : Frame) (rest : List UInt8) :
    keyAndDataLen f.head (f.encode ++ rest) =
      some ((f.form.bytes f.payload.length).length, f.payload.length) := by
  have hLength := f.length_encode
  obtain ⟨fin, rsv, op, form, mask, payload, fits⟩ := f
  cases form with
  | head =>
    have hLen : payload.length < 126 := fits
    simp [keyAndDataLen, Frame.head, LenForm.payloadLen, LenForm.bytes, hLen]
  | two =>
    simp only [LenForm.bytes, Endian.length_big] at hLength ⊢
    rw [keyAndDataLen_two rfl (by rw [List.length_append]; omega)]
    have hTake : ((Endian.big 2 payload.length ++ (maskBytes mask ++ applyMask mask payload) ++
        rest).take 2) = Endian.big 2 payload.length := by
      rw [List.append_assoc]
      exact List.take_left' (Endian.length_big _ _)
    simp only [Frame.encode, LenForm.bytes, List.cons_append, List.drop_succ_cons, List.drop_zero,
      hTake, Endian.ofBig_big (show payload.length < 256 ^ 2 from fits)]
  | eight =>
    simp only [LenForm.bytes, Endian.length_big] at hLength ⊢
    rw [keyAndDataLen_eight rfl (by rw [List.length_append]; omega)]
    have hTake : ((Endian.big 8 payload.length ++ (maskBytes mask ++ applyMask mask payload) ++
        rest).take 8) = Endian.big 8 payload.length := by
      rw [List.append_assoc]
      exact List.take_left' (Endian.length_big _ _)
    simp only [Frame.encode, LenForm.bytes, List.cons_append, List.drop_succ_cons, List.drop_zero,
      hTake, Endian.ofBig_big (show payload.length < 256 ^ 8 from fits)]

theorem front_encode {limit : UInt32} {f : Frame} (hf : f.Accepted limit) (rest : List UInt8) :
    front limit (f.encode ++ rest) =
      .whole f.head (f.form.bytes f.payload.length).length f.payload.length := by
  refine front_eq_whole.mpr ⟨?_, rfl, keyAndDataLen_encode f rest, hf.2, ?_⟩
  · rw [show f.head.opCode = f.opCode.code from rfl, OpCode.ofCode_code hf.1]
    exact hf.1
  · rw [List.length_append, f.length_encode]
    omega

/-- The bytes of a frame behind its head and length. -/
theorem Frame.drop_encode (f : Frame) (rest : List UInt8) :
    (f.encode ++ rest).drop (2 + (f.form.bytes f.payload.length).length) =
      maskBytes f.mask ++ (applyMask f.mask f.payload ++ rest) := by
  have hSplit : f.encode ++ rest = [f.head.byte0, f.head.byte1] ++ f.form.bytes f.payload.length ++
      (maskBytes f.mask ++ (applyMask f.mask f.payload ++ rest)) := by simp [Frame.encode]
  rw [hSplit]
  exact List.drop_left' (by simp; omega)

theorem framePayload_encode (f : Frame) (rest : List UInt8) :
    framePayload f.head (f.form.bytes f.payload.length).length f.payload.length
      (f.encode ++ rest) = f.payload := by
  unfold framePayload
  rw [← List.drop_drop, f.drop_encode]
  cases hMask : f.mask with
  | none => simp [Frame.head, Head.maskLen, hMask, maskBytes, applyMask]
  | some key =>
    have hKey : (key.val ++ (xorMask key.val f.payload ++ rest)).take 4 = key.val :=
      List.take_left' key.property
    have hData : (key.val ++ (xorMask key.val f.payload ++ rest)).drop 4 =
        xorMask key.val f.payload ++ rest := List.drop_left' key.property
    simp [Frame.head, Head.maskLen, hMask, maskBytes, applyMask, hKey, hData]

/-- A length that the buffer states is stated in one of the three forms. -/
theorem keyAndDataLen_form {pHead : Head} {b : List UInt8} {keyLen dataLen : Nat}
    (h : keyAndDataLen pHead b = some (keyLen, dataLen)) :
    ∃ (form : LenForm) (fits : form.Fits dataLen), form.payloadLen dataLen fits = pHead.payloadLen ∧
      form.bytes dataLen = (b.drop 2).take keyLen ∧ (form.bytes dataLen).length = keyLen := by
  unfold keyAndDataLen at h
  split at h
  · rename_i hLen
    cases h
    exact ⟨.head, hLen, rfl, by simp [LenForm.bytes], rfl⟩
  rename_i hLow
  split at h
  · rename_i hLen
    split at h
    · cases h
    cases h
    have hBytes : ((b.drop 2).take 2).length = 2 := by simp; omega
    have hLt := Endian.ofBig_lt ((b.drop 2).take 2)
    have hBig := Endian.big_ofBig ((b.drop 2).take 2)
    rw [hBytes] at hLt hBig
    exact ⟨.two, hLt, Fin.ext hLen.symm, hBig, by simp [LenForm.bytes]⟩
  · rename_i hLen
    split at h
    · cases h
    cases h
    have hBytes : ((b.drop 2).take 8).length = 8 := by simp; omega
    have hLt := Endian.ofBig_lt ((b.drop 2).take 8)
    have hBig := Endian.big_ofBig ((b.drop 2).take 8)
    rw [hBytes] at hLt hBig
    have hTop : pHead.payloadLen.val = 127 := by have := pHead.payloadLen.isLt; omega
    exact ⟨.eight, hLt, Fin.ext hTop.symm, hBig, by simp [LenForm.bytes]⟩

/-- The mask of a whole frame, and its data without the mask. -/
theorem exists_mask {pHead : Head} {b : List UInt8} {keyLen dataLen : Nat}
    (h : 2 + keyLen + pHead.maskLen + dataLen ≤ b.length) :
    ∃ mask : Option Mask, mask.isSome = pHead.mask ∧
      maskBytes mask = (b.drop (2 + keyLen)).take pHead.maskLen ∧
      framePayload pHead keyLen dataLen b =
        applyMask mask ((b.drop (2 + keyLen + pHead.maskLen)).take dataLen) := by
  by_cases hMask : pHead.mask = true
  · have hKey : ((b.drop (2 + keyLen)).take 4).length = 4 := by
      simp only [Head.maskLen, hMask, if_true] at h
      simp only [List.length_take, List.length_drop]
      omega
    exact ⟨some ⟨_, hKey⟩, by simp [hMask], by simp [Head.maskLen, hMask, maskBytes],
      by simp [framePayload, hMask, applyMask]⟩
  · exact ⟨none, by simpa using hMask, by simp [Head.maskLen, hMask, maskBytes],
      by simp [framePayload, hMask, applyMask]⟩

/-- The frame whose head and length are at the front of a buffer. -/
theorem exists_frame_take {b : List UInt8} {pHead : Head} {keyLen dataLen : Nat}
    (hHead : b.take 2 = [pHead.byte0, pHead.byte1]) (hKey : keyAndDataLen pHead b = some (keyLen, dataLen))
    (hLength : 2 + keyLen + pHead.maskLen + dataLen ≤ b.length) :
    ∃ f : Frame, b.take (2 + keyLen + pHead.maskLen + dataLen) = f.encode ∧ f.payload.length = dataLen ∧
      f.fin = pHead.fin ∧ f.opCode = .ofCode pHead.opCode ∧ f.payload = framePayload pHead keyLen dataLen b := by
  obtain ⟨form, fits, hPayloadLen, hBytes, -⟩ := keyAndDataLen_form hKey
  obtain ⟨mask, hSome, hMask, hPayload⟩ := exists_mask hLength
  have hData : applyMask mask (framePayload pHead keyLen dataLen b) =
      (b.drop (2 + keyLen + pHead.maskLen)).take dataLen := by rw [hPayload, applyMask_applyMask]
  have hDataLen : dataLen = (framePayload pHead keyLen dataLen b).length := by
    rw [hPayload, length_applyMask, List.length_take, List.length_drop]
    omega
  have hSplit : b.take (2 + keyLen + pHead.maskLen + dataLen) = b.take 2 ++ (b.drop 2).take keyLen ++
      (b.drop (2 + keyLen)).take pHead.maskLen ++
      (b.drop (2 + keyLen + pHead.maskLen)).take dataLen := by
    rw [List.take_add, List.take_add, List.take_add]
  rw [hSplit, hHead, ← hBytes, ← hMask, ← hData]
  generalize framePayload pHead keyLen dataLen b = payload at hDataLen
  subst hDataLen
  let f : Frame := ⟨pHead.fin, pHead.rsv, .ofCode pHead.opCode, form, mask, payload, fits⟩
  have hFrame : f.head = pHead := by
    simp only [f, Frame.head, OpCode.code_ofCode, hPayloadLen, hSome]
  refine ⟨f, ?_, rfl, rfl, rfl, rfl⟩
  simp [Frame.encode, hFrame, f]

/-- The whole frame that a front announces. -/
theorem exists_frame {limit : UInt32} {b : List UInt8} {pHead : Head} {keyLen dataLen : Nat}
    (h : front limit b = .whole pHead keyLen dataLen) :
    ∃ f : Frame, f.Accepted limit ∧
      b.take (2 + keyLen + pHead.maskLen + dataLen) = f.encode ∧ f.fin = pHead.fin ∧
      f.opCode = .ofCode pHead.opCode ∧ f.payload = framePayload pHead keyLen dataLen b := by
  obtain ⟨hOp, hHead, hKey, hLimit, hLength⟩ := front_eq_whole.mp h
  obtain ⟨f, hTake, hDataLen, hFin, hOpCode, hPayload⟩ := exists_frame_take hHead hKey hLength
  exact ⟨f, ⟨hOpCode ▸ hOp, hDataLen ▸ hLimit⟩, hTake, hFin, hOpCode, hPayload⟩

theorem stuck_encode {limit : UInt32} {f : Frame} (hf : f.Accepted limit) (d rest : List UInt8) :
    stuck limit d (f.encode ++ rest) = emptyFinal d f.fin f.payload := by
  rw [stuck_whole (front_encode hf rest), framePayload_encode]
  rfl

/-- The decoder of frames, with the frames it takes: all but a final one that leaves the callback
without data. -/
def frameCodec (limit : UInt32) : Codec (List UInt8) UInt8 Callback (AcceptedFrame limit) where
  toDecoder := frameDecoder limit
  encode f := f.val.encode
  Fits dataCache f := emptyFinal dataCache f.val.fin f.val.payload = false
  effect dataCache f := deliver dataCache f.val.fin f.val.opCode f.val.payload
  reads {d f} rest h := by
    have hOp : OpCode.ofCode f.val.head.opCode = f.val.opCode := OpCode.ofCode_code f.property.1
    have hFront := front_encode f.property rest
    show frameVerdict limit d _ = _
    unfold frameVerdict
    rw [stuck_encode f.property d rest, h, if_neg Bool.false_ne_true, hFront, f.val.length_encode]
    simp only [framePayload_encode, hOp]
    rfl
  takes {d b n d' o} h := by
    obtain ⟨pHead, keyLen, dataLen, hFront, rfl, hFree, hDeliver⟩ := frameVerdict_item h
    obtain ⟨f, hf, hTake, hFin, hOp, hPayload⟩ := exists_frame hFront
    refine ⟨⟨f, hf⟩, hTake, ?_, ?_⟩
    · rw [hFin, hPayload]
      exact hFree
    · simp only [hFin, hOp, hPayload, hDeliver]

/-- Behind data, every frame is taken. -/
theorem frameCodec_fits {limit : UInt32} (x : UInt8) (f : AcceptedFrame limit) :
    (frameCodec limit).Fits [x] f := by
  show (f.val.fin && false) = false
  exact Bool.and_false _

/-! ### `ParseMsg` as the decoder -/

/-- What `ParseMsg` makes of the rest that the decoder leaves. -/
def finish (limit : UInt32) : Option (List UInt8 × List UInt8) → Ending × Proto
  | none => closeClear
  | some (dataCache, pkgCache) =>
    if stuck limit dataCache pkgCache then (.threw, ⟨pkgCache, dataCache⟩)
    else if pkgCache.length = 1 then closeClear
    else if pkgCache = [] then (.returned 0, ⟨pkgCache, dataCache⟩)
    else (.returned (-1), ⟨pkgCache, dataCache⟩)

theorem frameCodec_nil (limit : UInt32) (d : List UInt8) :
    (frameCodec limit).drain d [] = ([], some (d, [])) := Decoder.drain_more rfl

theorem front_ne_wait {limit : UInt32} {b : List UInt8} (h : front limit b ≠ .wait) :
    2 ≤ b.length := by
  match b with
  | [] => exact absurd rfl h
  | [_] => exact absurd rfl h
  | _ :: _ :: _ => simp

theorem parsePass_bad {limit : UInt32} {d b : List UInt8} (h : front limit b = .bad) :
    parsePass limit ⟨b, d⟩ = .leave [] closeClear := by
  have hLength := front_ne_wait (h ▸ Front.noConfusion : front limit b ≠ .wait)
  rw [parsePass_eq hLength, h]

theorem parsePass_whole {limit : UInt32} {d b : List UInt8} {pHead : Head} {keyLen dataLen : Nat}
    (h : front limit b = .whole pHead keyLen dataLen) :
    parsePass limit ⟨b, d⟩ = takeFrame ⟨b, d⟩ pHead keyLen dataLen := by
  have hLength := front_ne_wait (h ▸ Front.noConfusion : front limit b ≠ .wait)
  rw [parsePass_eq hLength, h]

theorem parsePass_stuck {limit : UInt32} {d b : List UInt8} (h : stuck limit d b = true) :
    parsePass limit ⟨b, d⟩ = .leave [] (.threw, ⟨b, d⟩) := by
  obtain ⟨pHead, keyLen, dataLen, hFront⟩ := front_of_stuck h
  rw [stuck_whole hFront] at h
  rw [parsePass_whole hFront, takeFrame_eq, if_pos h]

theorem parseLoop_eq (limit : UInt32) (d b : List UInt8) (hb : b ≠ []) :
    (parseLoop limit).exec ⟨b, d⟩ =
      (((frameCodec limit).drain d b).1, finish limit ((frameCodec limit).drain d b).2) := by
  induction d, b using Decoder.drain_induct (D := (frameCodec limit).toDecoder) with
  | more d b hv =>
    rw [Decoder.drain_more hv]
    by_cases hStuck : stuck limit d b = true
    · rw [(parseLoop limit).exec_leave (parsePass_stuck hStuck), finish, if_pos hStuck]
    have hWait := (frameVerdict_more hv).resolve_left hStuck
    by_cases hOne : b.length = 1
    · obtain ⟨x, rfl⟩ := List.length_eq_one_iff.mp hOne
      exact (parseLoop limit).exec_leave rfl
    · have hLength : 2 ≤ b.length := by
        have := List.length_pos_iff.mpr hb
        omega
      have hPass : (parseLoop limit).pass ⟨b, d⟩ = .leave [] (.returned (-1), ⟨b, d⟩) := by
        show parsePass limit _ = _
        rw [parsePass_eq hLength, hWait]
      rw [(parseLoop limit).exec_leave hPass, finish, if_neg hStuck, if_neg hOne, if_neg hb]
  | fail d b hv =>
    have hPass : (parseLoop limit).pass ⟨b, d⟩ = .leave [] closeClear :=
      parsePass_bad (frameVerdict_fail hv)
    rw [Decoder.drain_fail hv, (parseLoop limit).exec_leave hPass]
    rfl
  | item d b n d' o hv ih =>
    obtain ⟨pHead, keyLen, dataLen, hFront, rfl, hFree, hDeliver⟩ := frameVerdict_item hv
    have hPass : (parseLoop limit).pass ⟨b, d⟩ =
        endPass o ⟨b.drop (2 + keyLen + pHead.maskLen + dataLen), d'⟩ := by
      show parsePass limit _ = _
      rw [parsePass_whole hFront, takeFrame_eq, hFree, if_neg Bool.false_ne_true, ← hDeliver]
    rw [Decoder.drain_item hv]
    by_cases hNil : b.drop (2 + keyLen + pHead.maskLen + dataLen) = []
    · rw [hNil] at hPass
      rw [(parseLoop limit).exec_leave hPass, hNil, frameCodec_nil, List.append_nil]
      rfl
    · have hAgain : (parseLoop limit).pass ⟨b, d⟩ =
          .again o ⟨b.drop (2 + keyLen + pHead.maskLen + dataLen), d'⟩ := by
        rw [hPass, endPass, if_neg (by simpa using hNil)]
      rw [(parseLoop limit).exec_again hAgain, ih hNil]

theorem parseMsg_eq (limit : UInt32) (p : Proto) {rawMsg : List UInt8} (h : rawMsg ≠ []) :
    parseMsg limit p rawMsg =
      (((frameCodec limit).drain p.dataCache (p.pkgCache ++ rawMsg)).1,
        finish limit ((frameCodec limit).drain p.dataCache (p.pkgCache ++ rawMsg)).2) :=
  parseLoop_eq limit p.dataCache (p.pkgCache ++ rawMsg) (by simp [h])

/-! ### Empty messages -/

/-- Of frames that do not all fit, the decoder takes those before the first that does not, and is
stuck there. -/
theorem drain_not_fits {limit : UInt32} {d : List UInt8} {fs : List (AcceptedFrame limit)}
    (h : ¬(frameCodec limit).FitAll d fs) (rest : List UInt8) :
    ∃ front f back, fs = front ++ f :: back ∧ (frameCodec limit).FitAll d front ∧
      ¬(frameCodec limit).Fits ((frameCodec limit).effects d front).1 f ∧
      ∃ r, (frameCodec limit).drain d ((frameCodec limit).encodeAll fs ++ rest) =
          (((frameCodec limit).effects d front).2,
            some (((frameCodec limit).effects d front).1, r)) ∧
        stuck limit ((frameCodec limit).effects d front).1 r = true := by
  obtain ⟨front, f, back, rfl, hFront, hNot⟩ := Codec.exists_not_fits h
  refine ⟨front, f, back, rfl, hFront, hNot,
    f.val.encode ++ ((frameCodec limit).encodeAll back ++ rest), ?_⟩
  have hStuck : stuck limit ((frameCodec limit).effects d front).1
      (f.val.encode ++ ((frameCodec limit).encodeAll back ++ rest)) = true := by
    rw [stuck_encode f.property]
    exact Bool.of_not_eq_false hNot
  have hSplit : (frameCodec limit).encodeAll (front ++ f :: back) ++ rest =
      (frameCodec limit).encodeAll front ++
        (f.val.encode ++ ((frameCodec limit).encodeAll back ++ rest)) := by
    have hEncode : (frameCodec limit).encode f = f.val.encode := rfl
    rw [Codec.encodeAll, List.flatMap_append, List.flatMap_cons, hEncode, List.append_assoc,
      List.append_assoc]
    rfl
  have hMore := frameVerdict_stuck hStuck
  rw [hSplit, Codec.drain_encodeAll hFront, Decoder.drain_more hMore, List.append_nil]
  exact ⟨rfl, hStuck⟩

/-- With these bytes the buffer has a message without data at its front, behind other frames. -/
def EmptyNext (limit : UInt32) (p : Proto) (rawMsg : List UInt8) : Prop :=
  ∃ (fs : List (AcceptedFrame limit)) (f : AcceptedFrame limit) (rest : List UInt8),
    p.pkgCache ++ rawMsg = (frameCodec limit).encodeAll fs ++ (f.val.encode ++ rest) ∧
      f.val.fin = true ∧ ((frameCodec limit).effects p.dataCache fs).1 ++ f.val.payload = []

/-- **`ParseMsg` throws** on a message without data, and on nothing else. -/
theorem parseMsg_threw {limit : UInt32} {p : Proto} {rawMsg : List UInt8} :
    (parseMsg limit p rawMsg).2.1 = .threw ↔ EmptyNext limit p rawMsg := by
  unfold EmptyNext parseMsg
  generalize hb : p.pkgCache ++ rawMsg = b
  by_cases hNil : b = []
  · rw [hNil, (parseLoop limit).exec_leave (show (parseLoop limit).pass ⟨[], p.dataCache⟩ = _ from rfl)]
    constructor
    · intro h
      cases h
    · rintro ⟨fs, f, rest, hb, -⟩
      obtain ⟨-, hTail⟩ := List.append_eq_nil_iff.mp hb.symm
      exact absurd (List.append_eq_nil_iff.mp hTail).1 (Codec.encode_ne (frameCodec_fits 0 f))
  rw [parseLoop_eq limit p.dataCache b hNil]
  constructor
  · intro h
    rcases hd : (frameCodec limit).drain p.dataCache b with ⟨o, _ | ⟨d', r⟩⟩
    · rw [hd] at h
      cases h
    rw [hd] at h
    have hStuck : stuck limit d' r = true := by
      by_contra hFree
      simp only [finish, if_neg hFree] at h
      split at h
      · cases h
      · split at h <;> cases h
    obtain ⟨fs, rfl, -, hEffects, -⟩ := Codec.drain_split.mp hd
    obtain ⟨pHead, keyLen, dataLen, hFront⟩ := front_of_stuck hStuck
    obtain ⟨f, hf, hTake, -⟩ := exists_frame hFront
    have hSplit := List.take_append_drop (2 + keyLen + pHead.maskLen + dataLen) r
    rw [hTake] at hSplit
    rw [← hSplit, stuck_encode hf] at hStuck
    obtain ⟨hFin, hData⟩ := emptyFinal_iff.mp hStuck
    exact ⟨fs, ⟨f, hf⟩, _, by rw [hSplit], hFin, by rw [hEffects]; exact hData⟩
  · rintro ⟨fs, f, rest, rfl, hFin, hData⟩
    have hNot : ¬(frameCodec limit).FitAll p.dataCache (fs ++ [f]) := by
      intro hFit
      have hLast : emptyFinal _ f.val.fin f.val.payload = false := (Codec.fitAll_append.mp hFit).2.1
      rw [emptyFinal_iff.mpr ⟨hFin, hData⟩] at hLast
      cases hLast
    obtain ⟨front, g, back, -, -, -, r, hDrain, hStuck⟩ := drain_not_fits hNot rest
    have hSame : (frameCodec limit).encodeAll (fs ++ [f]) ++ rest =
        (frameCodec limit).encodeAll fs ++ (f.val.encode ++ rest) := by
      rw [Codec.encodeAll, List.flatMap_append, List.flatMap_cons, List.flatMap_nil,
        List.append_nil, List.append_assoc]
      rfl
    rw [← hSame, hDrain, finish, if_pos hStuck]

instance (limit : UInt32) (p : Proto) (rawMsg : List UInt8) : Decidable (EmptyNext limit p rawMsg) :=
  decidable_of_iff _ parseMsg_threw

end DemoCode.WebSocket
