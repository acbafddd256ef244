import DemoCode.Lib.Decoder
import DemoCode.FeedProxy.ConvertService

/-! `OnLevReadDone` as an incremental decoder.  Whether `ProcessReq` takes a payload depends on the
payload alone, so the frames with accepted payloads are the items of a codec; one pass of the loop
does what the decoder of this codec says. -/

namespace DemoCode.FeedProxy

/-! ### The verdict on a payload -/

/-- Whether a payload is taken, as the conversion says with empty tables; nothing when it does not
return. -/
def reqVerdict (env : Env) (reqStr : List UInt8) : Option Bool :=
  (protoReq2JsonReq env {} 0 reqStr).map fun req => req.any fun x => decide (0 ≤ x.1)

theorem reqData_isSome (env : Env) (u u' : ConvertUtils) (mc : MsgCarrier (List UInt8)) :
    (reqData env u mc).map Option.isSome = (reqData env u' mc).map Option.isSome := by
  unfold reqData
  cases mc.reqType with
  | kLine =>
    dsimp only
    cases env.parseQueryKLine mc.data with
    | none => rfl
    | some q =>
      dsimp only
      cases timeAdd env q.startTime (-8) 0 0 <;> cases timeAdd env q.endTime (-8) 0 0 <;> rfl
  | subQuotes => simp
  | unsubQuotes => simp
  | brokerInfo => simp
  | _ => rfl

/-- The tables play no part in the verdict. -/
theorem reqVerdict_eq (env : Env) (u : ConvertUtils) (reqid : Int) (reqStr : List UInt8) :
    (protoReq2JsonReq env u reqid reqStr).map (fun req => req.any fun x => decide (0 ≤ x.1)) =
      reqVerdict env reqStr := by
  unfold reqVerdict protoReq2JsonReq
  cases env.parseCarrier reqStr with
  | none => rfl
  | some mc =>
    dsimp only
    split
    · rfl
    · have hSome := reqData_isSome env u {} mc
      generalize reqData env u mc = x at hSome ⊢
      generalize reqData env {} mc = y at hSome ⊢
      rcases x with _ | _ | x <;> rcases y with _ | _ | y <;> first | rfl | simp at hSome

theorem processReq_fault {env : Env} {reqStr : List UInt8} (h : reqVerdict env reqStr = none)
    (s : ConvertService) (conn : CContext) : processReq env s conn reqStr = none := by
  rw [← reqVerdict_eq env s.utils (nextReqId s.reqId), Option.map_eq_none_iff] at h
  simp only [processReq, h]

theorem processReq_reject {env : Env} {reqStr : List UInt8} (h : reqVerdict env reqStr = some false)
    (s : ConvertService) (conn : CContext) :
    processReq env s conn reqStr = some ({ s with reqId := nextReqId s.reqId }, [], -1) := by
  rw [← reqVerdict_eq env s.utils (nextReqId s.reqId), Option.map_eq_some_iff] at h
  obtain ⟨req, hReq, hAny⟩ := h
  simp only [processReq, hReq]
  rcases req with _ | ⟨ret, reqJson⟩
  · rfl
  · have hNeg : ret < 0 := by simpa using hAny
    simp only [if_pos hNeg]

theorem processReq_accept {env : Env} {reqStr : List UInt8} (h : reqVerdict env reqStr = some true)
    (s : ConvertService) (conn : CContext) :
    ∃ s' out, processReq env s conn reqStr = some (s', out, 0) := by
  rw [← reqVerdict_eq env s.utils (nextReqId s.reqId), Option.map_eq_some_iff] at h
  obtain ⟨req, hReq, hAny⟩ := h
  simp only [processReq, hReq]
  rcases req with _ | ⟨ret, reqJson⟩
  · cases hAny
  · have hPos : ¬ret < 0 := by simpa using hAny
    exact ⟨_, _, if_neg hPos⟩

/-- A payload that `ProcessReq` accepts. -/
def Accepted (env : Env) (reqStr : List UInt8) : Prop :=
  ∀ (s : ConvertService) (conn : CContext),
    ∃ s' out ret, processReq env s conn reqStr = some (s', out, ret) ∧ 0 ≤ ret

theorem accepted_iff {env : Env} {reqStr : List UInt8} :
    Accepted env reqStr ↔ reqVerdict env reqStr = some true := by
  constructor
  · intro h
    obtain ⟨s', out, ret, hReq, hRet⟩ := h {} 0
    rcases hv : reqVerdict env reqStr with _ | _ | _
    · rw [processReq_fault hv] at hReq
      cases hReq
    · rw [processReq_reject hv] at hReq
      cases hReq
      exact absurd hRet (by decide)
    · rfl
  · intro h s conn
    obtain ⟨s', out, hReq⟩ := processReq_accept h s conn
    exact ⟨s', out, 0, hReq, Int.le_refl 0⟩

instance (env : Env) (reqStr : List UInt8) : Decidable (Accepted env reqStr) :=
  decidable_of_iff _ accepted_iff.symm

/-! ### The decoder -/

/-- A frame whose payload is accepted. -/
structure ReqFrame (env : Env) where
  hdr : CommonHdr
  payload : List UInt8
  length : hdr.dataLen.toNat = payload.length
  fits : payload.length + commonHdrLen < 2 ^ 31
  accepted : reqVerdict env payload = some true

def ReqFrame.encode {env : Env} (f : ReqFrame env) : List UInt8 := f.hdr.encode ++ f.payload

/-- The body of a frame whose header states a length that can be waited for. -/
def bodyVerdict (env : Env) (dataLen : Nat) (b : List UInt8) : Verdict Unit (List UInt8) :=
  let reqStr := (b.drop commonHdrLen).take dataLen
  if b.length < commonHdrLen + dataLen then .more
  else if reqVerdict env reqStr = some true then .item (commonHdrLen + dataLen) () [reqStr]
  else .fail

def reqFrameVerdict (env : Env) (b : List UInt8) : Verdict Unit (List UInt8) :=
  let dataLen := (CommonHdr.read b).intLen
  if b.length < commonHdrLen then .more
  else if dataLen < -commonHdrLen ∨ 2 ^ 31 ≤ dataLen + commonHdrLen then .more
  else if dataLen < 0 then .fail
  else bodyVerdict env dataLen.toNat b

theorem CommonHdr.read_append {b : List UInt8} (c : List UInt8) (h : commonHdrLen ≤ b.length) :
    CommonHdr.read (b ++ c) = CommonHdr.read b := by
  have hEncode := CommonHdr.encode_read h
  conv_lhs => rw [← List.take_append_drop commonHdrLen b, ← hEncode, List.append_assoc]
  exact CommonHdr.read_encode _ _

theorem ReqFrame.intLen {env : Env} (f : ReqFrame env) : f.hdr.intLen = f.payload.length := by
  have hFits := f.fits
  unfold commonHdrLen at hFits
  rw [CommonHdr.intLen_small (by rw [f.length]; omega), f.length]

@[simp] theorem ReqFrame.length_encode {env : Env} (f : ReqFrame env) :
    f.encode.length = commonHdrLen + f.payload.length := by
  rw [ReqFrame.encode, List.length_append, CommonHdr.length_encode]

/-- What an item of the decoder says of the buffer. -/
theorem reqFrameVerdict_item {env : Env} {b : List UInt8} {n : Nat} {u : Unit}
    {o : List (List UInt8)} (h : reqFrameVerdict env b = .item n u o) :
    ∃ f : ReqFrame env, b.take n = f.encode ∧ n = f.encode.length ∧ o = [f.payload] ∧
      f.hdr = CommonHdr.read b ∧ n ≤ b.length := by
  unfold reqFrameVerdict at h
  dsimp only at h
  split at h
  · cases h
  rename_i hHead
  split at h
  · cases h
  rename_i hRange
  split at h
  · cases h
  rename_i hPos
  unfold bodyVerdict at h
  dsimp only at h
  split at h
  · cases h
  rename_i hBody
  split at h
  · rename_i hVerdict
    simp only [Verdict.item.injEq] at h
    obtain ⟨rfl, -, rfl⟩ := h
    have hInt : (CommonHdr.read b).intLen = ((CommonHdr.read b).intLen.toNat : Int) := by omega
    generalize (CommonHdr.read b).intLen.toNat = dataLen at hInt hBody hVerdict ⊢
    have hLength : ((b.drop commonHdrLen).take dataLen).length = dataLen := by
      rw [List.length_take, List.length_drop]
      omega
    have hFits : dataLen + commonHdrLen < 2 ^ 31 := by omega
    let f : ReqFrame env :=
      ⟨CommonHdr.read b, (b.drop commonHdrLen).take dataLen,
        by rw [hLength]; exact CommonHdr.dataLen_of_intLen hInt, by rw [hLength]; exact hFits, hVerdict⟩
    have hEncode : b.take (commonHdrLen + dataLen) = f.encode := by
      rw [List.take_add]
      show _ = (CommonHdr.read b).encode ++ _
      rw [CommonHdr.encode_read (by omega)]
    refine ⟨f, hEncode, ?_, rfl, rfl, by omega⟩
    rw [← hEncode, List.length_take]
    omega
  · cases h

theorem reqFrameVerdict_encode {env : Env} (f : ReqFrame env) (rest : List UInt8) :
    reqFrameVerdict env (f.encode ++ rest) = .item f.encode.length () [f.payload] := by
  have hRead : CommonHdr.read (f.encode ++ rest) = f.hdr := by
    rw [ReqFrame.encode, List.append_assoc]
    exact CommonHdr.read_encode _ _
  have hBody : ((f.encode ++ rest).drop commonHdrLen).take f.payload.length = f.payload := by
    rw [ReqFrame.encode, List.append_assoc, List.drop_left' f.hdr.length_encode, List.take_left]
  have hLength : (f.encode ++ rest).length = commonHdrLen + f.payload.length + rest.length := by
    rw [List.length_append, f.length_encode]
  have hFits := f.fits
  unfold reqFrameVerdict bodyVerdict
  simp only [hRead, f.intLen, Int.toNat_natCast, hBody, hLength, f.accepted, if_true,
    f.length_encode]
  rw [if_neg (by omega), if_neg (by omega), if_neg (by omega), if_neg (by omega)]

theorem reqFrameVerdict_stable {env : Env} {b : List UInt8} (c : List UInt8)
    (h : reqFrameVerdict env b ≠ .more) : reqFrameVerdict env (b ++ c) = reqFrameVerdict env b := by
  unfold reqFrameVerdict at h ⊢
  dsimp only at h ⊢
  by_cases hHead : b.length < commonHdrLen
  · rw [if_pos hHead] at h
    exact absurd rfl h
  have hLong : ¬(b ++ c).length < commonHdrLen := by
    rw [List.length_append]
    omega
  rw [if_neg hHead] at h ⊢
  rw [if_neg hLong, CommonHdr.read_append c (by omega)]
  split
  · rfl
  rw [if_neg ‹_›] at h
  split
  · rfl
  rw [if_neg ‹_›] at h
  unfold bodyVerdict at h ⊢
  dsimp only at h ⊢
  by_cases hBody : b.length < commonHdrLen + (CommonHdr.read b).intLen.toNat
  · rw [if_pos hBody] at h
    exact absurd rfl h
  have hLongBody : ¬(b ++ c).length < commonHdrLen + (CommonHdr.read b).intLen.toNat := by
    rw [List.length_append]
    omega
  have hReq : ((b ++ c).drop commonHdrLen).take (CommonHdr.read b).intLen.toNat =
      (b.drop commonHdrLen).take (CommonHdr.read b).intLen.toNat := by
    rw [List.drop_append_of_le_length (by omega),
      List.take_append_of_le_length (by rw [List.length_drop]; omega)]
  rw [if_neg hBody, if_neg hLongBody, hReq]

/-- The decoder of frames with accepted payloads. -/
def reqCodec (env : Env) : Codec Unit UInt8 (List UInt8) (ReqFrame env) where
  next _ b := reqFrameVerdict env b
  size_pos h := by
    obtain ⟨f, -, rfl, -⟩ := reqFrameVerdict_item h
    rw [f.length_encode]
    unfold commonHdrLen
    omega
  size_le h := by
    obtain ⟨f, -, -, -, -, hLength⟩ := reqFrameVerdict_item h
    exact hLength
  stable c h := reqFrameVerdict_stable c h
  encode f := f.encode
  Fits _ _ := True
  effect _ f := ((), [f.payload])
  reads {_ f} rest _ := reqFrameVerdict_encode f rest
  takes h := by
    obtain ⟨f, hTake, -, rfl, -⟩ := reqFrameVerdict_item h
    exact ⟨f, hTake, trivial, rfl⟩

/-! ### Reading, as far as it depends on the bytes -/

/-- What a pass does with a body. -/
def bytesBody (env : Env) (b : List UInt8) (dataLen : Nat) :
    Loop.Pass (List UInt8) ReadStep (Except Fault (List UInt8)) :=
  let reqStr := (b.drop commonHdrLen).take dataLen
  let rest := b.drop (commonHdrLen + dataLen)
  let steps := [.header b.length, .body b.length dataLen, .request reqStr]
  match reqVerdict env reqStr with
  | none => .leave steps (.error .handler)
  | some false => .leave steps (.ok [])
  | some true => if rest.length < commonHdrLen then .leave steps (.ok rest) else .again steps rest

/-- A pass of `OnLevReadDone` without what `ProcessReq` does. -/
def bytesPass (env : Env) (b : List UInt8) :
    Loop.Pass (List UInt8) ReadStep (Except Fault (List UInt8)) :=
  let dataLen := (CommonHdr.read b).intLen
  if b.length < commonHdrLen then .leave [.header b.length] (.error .overread)
  else if bodyMissing dataLen b.length then .leave [.header b.length] (.ok b)
  else if dataLen < 0 then .leave [.header b.length, .body b.length dataLen] (.error .lengthError)
  else bytesBody env b dataLen.toNat

/-- The steps of reading itself. -/
def ReadStep.reading : ReadStep → List ReadStep
  | .out _ => []
  | x => [x]

theorem reading_out (out : List Out) : (out.map ReadStep.out).flatMap ReadStep.reading = [] := by
  rw [List.flatMap_map]
  exact List.flatMap_eq_nil_iff.mpr fun _ _ => rfl

theorem bytesBody_eq (env : Env) (conn : CContext) (s : ConvertService) (dataLen : Nat) :
    bytesBody env s.lastMsg dataLen =
      (takeBody env conn s dataLen).map ConvertService.lastMsg ReadStep.reading
        (Except.map ConvertService.lastMsg) := by
  unfold bytesBody takeBody
  dsimp only
  generalize (s.lastMsg.drop commonHdrLen).take dataLen = reqStr
  rcases hv : reqVerdict env reqStr with _ | _ | _
  · rw [processReq_fault hv]
    rfl
  · rw [processReq_reject hv]
    rfl
  · obtain ⟨s', out, hReq⟩ := processReq_accept hv s conn
    rw [hReq]
    dsimp only
    rw [if_neg (Int.lt_irrefl 0), processReq_lastMsg hReq]
    by_cases hRest : (s.lastMsg.drop (commonHdrLen + dataLen)).length < commonHdrLen
    · rw [if_pos hRest, if_pos hRest]
      simp only [Loop.Pass.map, List.flatMap_append, reading_out]
      rfl
    · rw [if_neg hRest, if_neg hRest]
      simp only [Loop.Pass.map, List.flatMap_append, reading_out]
      rfl

theorem bytesPass_eq (env : Env) (conn : CContext) (s : ConvertService) :
    bytesPass env s.lastMsg =
      (readPass env conn s).map ConvertService.lastMsg ReadStep.reading
        (Except.map ConvertService.lastMsg) := by
  unfold bytesPass readPass
  dsimp only
  split
  · rfl
  split
  · rfl
  split
  · rfl
  · exact bytesBody_eq env conn s _

theorem bytesPass_again {env : Env} {b b' : List UInt8} {out : List ReadStep}
    (h : bytesPass env b = .again out b') : b'.length < b.length := by
  let s : ConvertService := { lastMsg := b }
  have hPass := bytesPass_eq env 0 s
  rw [show s.lastMsg = b from rfl, h] at hPass
  rcases hRead : readPass env 0 s with ⟨out', r⟩ | ⟨out', s'⟩
  · rw [hRead] at hPass
    cases hPass
  · rw [hRead] at hPass
    cases hPass
    exact readPass_again hRead

def bytesLoop (env : Env) : Loop.Body (List UInt8) ReadStep (Except Fault (List UInt8)) where
  pass := bytesPass env
  measure := List.length
  lowers := bytesPass_again

theorem bytesLoop_leave {env : Env} {b : List UInt8} {out : List ReadStep}
    {r : Except Fault (List UInt8)} (h : bytesPass env b = .leave out r) :
    (bytesLoop env).exec b = (out, r) := (bytesLoop env).exec_leave h

theorem bytesLoop_again {env : Env} {b b' : List UInt8} {out : List ReadStep}
    (h : bytesPass env b = .again out b') :
    (bytesLoop env).exec b =
      (out ++ ((bytesLoop env).exec b').1, ((bytesLoop env).exec b').2) :=
  (bytesLoop env).exec_again h

theorem sizeT_pos {n : Int} (hLow : 0 ≤ n) (hHigh : n < 2 ^ 31) : sizeT n = n.toNat := by
  rw [sizeT, Int.emod_eq_of_lt hLow (by omega)]

theorem sizeT_neg {n : Int} (hLow : -2 ^ 31 ≤ n) (hHigh : n < 0) : stringMaxSize < sizeT n := by
  have hMod : n % 2 ^ 64 = n + 2 ^ 64 := by omega
  rw [sizeT, hMod, stringMaxSize]
  omega

/-- The comparison that ends the loop, for a buffer that a string can hold. -/
theorem bodyMissing_iff {d : Int} {n : Nat} (hLow : -2 ^ 31 ≤ d) (hHigh : d < 2 ^ 31)
    (hHead : commonHdrLen ≤ n) (hMax : n ≤ stringMaxSize) :
    bodyMissing d n = true ↔ (d < -commonHdrLen ∨ 2 ^ 31 ≤ d + commonHdrLen) ∨
      (0 ≤ d ∧ n < commonHdrLen + d.toNat) := by
  unfold bodyMissing commonHdrLen at *
  rw [decide_eq_true_iff]
  by_cases hOver : 2 ^ 31 ≤ d + 16
  · have hWrap : wrap32 (d + 16) = d + 16 - 2 ^ 32 := by
      rw [← wrap32_sub]
      exact wrap32_of_range (by omega) (by omega)
    have hNeg := sizeT_neg (n := d + 16 - 2 ^ 32) (by omega) (by omega)
    show sizeT (wrap32 (d + 16)) > n ↔ _
    rw [hWrap]
    omega
  have hWrap : wrap32 (d + 16) = d + 16 := wrap32_of_range (by omega) (by omega)
  show sizeT (wrap32 (d + 16)) > n ↔ _
  rw [hWrap]
  by_cases hUnder : d + 16 < 0
  · have hNeg := sizeT_neg (n := d + 16) (by omega) hUnder
    omega
  · rw [sizeT_pos (by omega) (by omega)]
    omega

/-- A read event, as far as it depends on the bytes. -/
def readBytes (env : Env) (lastMsg : List UInt8) (recvData : RecvData) :
    List ReadStep × Except Fault (List UInt8) :=
  if stringMaxSize < (lastMsg ++ recvData.val).length then ([], .error .lengthError)
  else (bytesLoop env).exec (lastMsg ++ recvData.val)

/-- **What `OnLevReadDone` reads** depends on the reassembly buffer and the new bytes alone. -/
theorem onLevReadDone_eq (env : Env) (s : ConvertService) (conn : CContext) (recvData : RecvData) :
    readBytes env s.lastMsg recvData =
      ((onLevReadDone env s conn recvData).1.flatMap ReadStep.reading,
        (onLevReadDone env s conn recvData).2.map ConvertService.lastMsg) := by
  unfold readBytes onLevReadDone
  split
  · rfl
  · exact Loop.Body.exec_map (readLoop env conn) (bytesLoop env) (bytesPass_eq env conn)
      { s with lastMsg := s.lastMsg ++ recvData.val }

/-! ### The loop as the decoder -/

theorem CommonHdr.intLen_range (h : CommonHdr) : -2 ^ 31 ≤ h.intLen ∧ h.intLen < 2 ^ 31 :=
  ⟨le_wrap32 _, wrap32_lt _⟩

theorem bytesPass_short {env : Env} {b : List UInt8} (h : b.length < commonHdrLen) :
    bytesPass env b = .leave [.header b.length] (.error .overread) := by
  unfold bytesPass
  rw [if_pos h]

section

variable {env : Env} {b : List UInt8} (hHead : commonHdrLen ≤ b.length)
  (hMax : b.length ≤ stringMaxSize)

include hHead hMax

/-- Where the decoder waits, the loop ends. -/
theorem bytesPass_more (h : reqFrameVerdict env b = .more) :
    bytesPass env b = .leave [.header b.length] (.ok b) := by
  obtain ⟨hLow, hHigh⟩ := (CommonHdr.read b).intLen_range
  have hMissing : bodyMissing (CommonHdr.read b).intLen b.length = true := by
    apply (bodyMissing_iff hLow hHigh hHead hMax).mpr
    unfold reqFrameVerdict at h
    dsimp only at h
    rw [if_neg (by omega)] at h
    by_cases hRange : (CommonHdr.read b).intLen < -commonHdrLen ∨
      2 ^ 31 ≤ (CommonHdr.read b).intLen + commonHdrLen
    · exact .inl hRange
    rw [if_neg hRange] at h
    by_cases hNeg : (CommonHdr.read b).intLen < 0
    · rw [if_pos hNeg] at h
      cases h
    rw [if_neg hNeg, bodyVerdict] at h
    by_cases hBody : b.length < commonHdrLen + (CommonHdr.read b).intLen.toNat
    · exact .inr ⟨by omega, hBody⟩
    · rw [if_neg hBody] at h
      split at h <;> cases h
  unfold bytesPass
  dsimp only
  rw [if_neg (by omega), if_pos hMissing]

/-- Where the decoder gives up, the length is negative or `ProcessReq` does not take the body. -/
theorem bytesPass_fail (h : reqFrameVerdict env b = .fail) :
    (∃ d < 0, bytesPass env b = .leave [.header b.length, .body b.length d] (.error .lengthError) ∧
      2 ^ 32 - commonHdrLen ≤ (CommonHdr.read b).dataLen.toNat) ∨
    ∃ dataLen reqStr r, bytesPass env b =
        .leave [.header b.length, .body b.length (dataLen : Nat), .request reqStr] r ∧
      (CommonHdr.read b).dataLen.toNat = dataLen ∧ dataLen < 2 ^ 31 ∧
      commonHdrLen + dataLen ≤ b.length := by
  obtain ⟨hLow, hHigh⟩ := (CommonHdr.read b).intLen_range
  unfold reqFrameVerdict at h
  dsimp only at h
  rw [if_neg (by omega)] at h
  by_cases hRange : (CommonHdr.read b).intLen < -commonHdrLen ∨
    2 ^ 31 ≤ (CommonHdr.read b).intLen + commonHdrLen
  · rw [if_pos hRange] at h
    cases h
  rw [if_neg hRange] at h
  have hMissing := bodyMissing_iff hLow hHigh hHead hMax
  by_cases hNeg : (CommonHdr.read b).intLen < 0
  · have hNot : ¬bodyMissing (CommonHdr.read b).intLen b.length = true := by
      rw [hMissing]
      omega
    refine .inl ⟨(CommonHdr.read b).intLen, hNeg, ?_, ?_⟩
    · unfold bytesPass
      dsimp only
      rw [if_neg (by omega), if_neg hNot, if_pos hNeg]
    · by_cases hSmall : (CommonHdr.read b).dataLen.toNat < 2 ^ 31
      · rw [CommonHdr.intLen_small hSmall] at hNeg
        omega
      · rw [CommonHdr.intLen_large (by omega)] at hRange
        unfold commonHdrLen at hRange ⊢
        omega
  · rw [if_neg hNeg, bodyVerdict] at h
    by_cases hBody : b.length < commonHdrLen + (CommonHdr.read b).intLen.toNat
    · rw [if_pos hBody] at h
      cases h
    rw [if_neg hBody] at h
    have hNot : ¬bodyMissing (CommonHdr.read b).intLen b.length = true := by
      rw [hMissing]
      omega
    have hPass : bytesPass env b = bytesBody env b (CommonHdr.read b).intLen.toNat := by
      unfold bytesPass
      dsimp only
      rw [if_neg (by omega), if_neg hNot, if_neg hNeg]
    have hLen : (CommonHdr.read b).dataLen.toNat = (CommonHdr.read b).intLen.toNat :=
      CommonHdr.dataLen_of_intLen (by omega)
    refine .inr ⟨(CommonHdr.read b).intLen.toNat,
      (b.drop commonHdrLen).take (CommonHdr.read b).intLen.toNat, ?_⟩
    rw [hPass]
    unfold bytesBody
    dsimp only
    rcases hv : reqVerdict env ((b.drop commonHdrLen).take (CommonHdr.read b).intLen.toNat) with
      _ | _ | _
    · exact ⟨_, rfl, hLen, by omega, by omega⟩
    · exact ⟨_, rfl, hLen, by omega, by omega⟩
    · rw [if_pos hv] at h
      cases h

end

/-- The steps of reading a frame at the front of a buffer of some size. -/
def ReqFrame.steps {env : Env} (f : ReqFrame env) (size : Nat) : List ReadStep :=
  [.header size, .body size f.payload.length, .request f.payload]

/-- Where the decoder takes a frame, so does the loop. -/
theorem bytesPass_item {env : Env} (f : ReqFrame env) {rest : List UInt8}
    (hMax : (f.encode ++ rest).length ≤ stringMaxSize) :
    bytesPass env (f.encode ++ rest) =
      if rest.length < commonHdrLen then .leave (f.steps (f.encode ++ rest).length) (.ok rest)
      else .again (f.steps (f.encode ++ rest).length) rest := by
  have hRead : CommonHdr.read (f.encode ++ rest) = f.hdr := by
    rw [ReqFrame.encode, List.append_assoc]
    exact CommonHdr.read_encode _ _
  have hBody : ((f.encode ++ rest).drop commonHdrLen).take f.payload.length = f.payload := by
    rw [ReqFrame.encode, List.append_assoc, List.drop_left' f.hdr.length_encode, List.take_left]
  have hDrop : (f.encode ++ rest).drop (commonHdrLen + f.payload.length) = rest :=
    List.drop_left' f.length_encode
  have hLength : (f.encode ++ rest).length = commonHdrLen + f.payload.length + rest.length := by
    rw [List.length_append, f.length_encode]
  have hFits := f.fits
  have hMissing : ¬bodyMissing f.payload.length (f.encode ++ rest).length = true := by
    rw [bodyMissing_iff (by omega) (by omega) (by omega) hMax]
    omega
  unfold bytesPass bytesBody
  dsimp only
  rw [hRead, f.intLen, if_neg (by omega), if_neg hMissing, if_neg (by omega), Int.toNat_natCast,
    hBody, hDrop, f.accepted]
  rfl

end DemoCode.FeedProxy
