import Mathlib.Data.List.Forall2
import DemoCode.WebSocket.Segmentation

/-! What `PackMsg` packs, `ParseMsg` parses: the packages of a message are frames, the decoder
gives the message back at the last of them, and so the messages of a stream come back in order
however the stream is cut, outside the first byte of a frame.  An empty message is packed too, but
`ParseMsg` throws on its frame, so none may be empty. -/

namespace DemoCode.WebSocket

/-- The arguments with which `PackMsg` is to be called. -/
structure PackReq.Valid (defaultDataMaxSize : UInt32) (r : PackReq) : Prop where
  opCode : r.opCode = .text ∨ r.opCode = .binary
  length : r.rawMsg.length < 2 ^ 31
  pos : 1 ≤ r.dataMaxSize
  le : r.dataMaxSize ≤ defaultDataMaxSize.toNat

theorem PackReq.Valid.checkOpCode {limit : UInt32} {r : PackReq} (hr : r.Valid limit)
    (isFirst : Bool) : checkOpCode (if isFirst then r.opCode else .frame) = true := by
  cases isFirst with
  | false => rfl
  | true => rcases hr.opCode with h | h <;> rw [h] <;> rfl

theorem PackReq.Valid.lt_of_le {limit : UInt32} {r : PackReq} (hr : r.Valid limit) {n : Nat}
    (h : n ≤ r.dataMaxSize) : n < 2 ^ 64 := by
  have hLe := hr.le
  have hLimit := limit.toNat_lt
  omega

/-- The form in which `PackMsg` states a length. -/
def packForm (dataLen : Nat) : LenForm :=
  if dataLen < 126 then .head else if dataLen < 65535 then .two else .eight

theorem packForm_fits {n : Nat} (h : n < 2 ^ 64) : (packForm n).Fits n := by
  unfold packForm
  split
  · assumption
  split
  · show n < 2 ^ 16
    omega
  · exact h

/-- A package as a frame. -/
def packFrame (fin : Bool) (opCode : OpCode) (mask : Option Mask) (data : List UInt8)
    (h : data.length < 2 ^ 64) : Frame :=
  ⟨fin, 0, opCode, packForm data.length, mask, data, packForm_fits h⟩

/-- The `payloadLen` that `PackMsg` writes is that of the form. -/
theorem payloadLen_packForm {n : Nat} {form : LenForm} (hForm : packForm n = form)
    (fits : form.Fits n) :
    form.payloadLen n fits =
      if packKeyLen n = 0 then Fin.ofNat 128 n else if packKeyLen n = 2 then 126 else 127 := by
  unfold packForm at hForm
  unfold packKeyLen
  by_cases h1 : n < 126
  · rw [if_pos h1] at hForm ⊢
    subst hForm
    exact Fin.ext (Nat.mod_eq_of_lt (by omega)).symm
  rw [if_neg h1] at hForm ⊢
  by_cases h2 : n < 65535
  · rw [if_pos h2] at hForm ⊢
    subst hForm
    rfl
  · rw [if_neg h2] at hForm ⊢
    subst hForm
    rfl

theorem bytes_packForm (n : Nat) : (packForm n).bytes n = Endian.big (packKeyLen n) n := by
  unfold packForm packKeyLen
  split
  · rfl
  split <;> rfl

theorem packBytes_eq (fin : Bool) (opCode : OpCode) (mask : Option Mask) (data : List UInt8)
    (h : data.length < 2 ^ 64) :
    packBytes fin opCode mask data = (packFrame fin opCode mask data h).encode := by
  unfold packBytes Frame.encode Frame.head
  simp only [packFrame, bytes_packForm, payloadLen_packForm rfl, List.cons_append,
    List.nil_append, List.append_assoc]

/-- The call of the callback for a message. -/
def PackReq.callback (r : PackReq) : Callback :=
  ⟨r.rawMsg, if r.rawMsg.length ≤ r.dataMaxSize then r.opCode else .frame⟩

/-- A package of a message, as a frame that the parser lets through. -/
def PackReq.piece {limit : UInt32} {r : PackReq} (hr : r.Valid limit) (fin isFirst : Bool)
    (k : Nat) {data : List UInt8} (h : data.length ≤ r.dataMaxSize) : AcceptedFrame limit :=
  ⟨packFrame fin (if isFirst then r.opCode else .frame) (if r.isServer then none else some (r.cMask k))
    data (hr.lt_of_le h), hr.checkOpCode isFirst, Nat.le_trans h hr.le⟩

/-- The packages from a position in a message on are accepted frames; decoded behind the data
`d` of the packages before, they give the whole of the data to the callback, when there is any. -/
theorem packRun {limit : UInt32} {r : PackReq} (hr : r.Valid limit) {fuel : Nat}
    {data : List UInt8} (hFuel : data.length < fuel) (k : Nat) (isFirst : Bool) (d : List UInt8) :
    ∃ fs : List (AcceptedFrame limit),
      Loop.run (packPass r) fuel (data, k, isFirst) = some (fs.map fun f => f.val.encode, ()) ∧
      (frameCodec limit).effects d fs =
        ([], [Callback.ofData (d ++ data)
          (if isFirst && decide (data.length ≤ r.dataMaxSize) then r.opCode else .frame)]) ∧
      ((frameCodec limit).FitAll d fs ↔ d ++ data ≠ []) := by
  induction fuel generalizing data k isFirst d with
  | zero => omega
  | succ fuel ih =>
    by_cases hLast : data.length ≤ r.dataMaxSize
    · have hPass : packPass r (data, k, isFirst) =
          .leave [(r.piece hr true isFirst k hLast).val.encode] () := by
        have hLen : (if data.length < r.dataMaxSize then data.length else r.dataMaxSize) =
            data.length := by split <;> omega
        simp only [packPass, hLen, hLast, decide_true, List.take_length, List.drop_length,
          List.length_nil, Nat.le_refl, if_true]
        rw [packBytes_eq _ _ _ _ (hr.lt_of_le hLast)]
        rfl
      refine ⟨[r.piece hr true isFirst k hLast], ?_, ?_, ?_⟩
      · rw [Loop.run, hPass]
        rfl
      · simp only [hLast, decide_true, Bool.and_true]
        rfl
      · show emptyFinal d true data = false ∧ True ↔ _
        rw [and_true, ← Bool.not_eq_true, emptyFinal_iff]
        exact not_congr (and_iff_right rfl)
    · have hTake : (data.take r.dataMaxSize).length ≤ r.dataMaxSize := by
        rw [List.length_take]
        omega
      have hPass : packPass r (data, k, isFirst) =
          .again [(r.piece hr false isFirst k hTake).val.encode]
            (data.drop r.dataMaxSize, k + 1, false) := by
        have hLen : ¬data.length < r.dataMaxSize := by omega
        have hRest : ¬(data.drop r.dataMaxSize).length ≤ 0 := by
          rw [List.length_drop]
          omega
        simp only [packPass, hLen, hLast, decide_false, if_false, hRest]
        rw [packBytes_eq _ _ _ _ (hr.lt_of_le hTake)]
        rfl
      have hRest : (data.drop r.dataMaxSize).length < fuel := by
        have hPos := hr.pos
        rw [List.length_drop]
        omega
      obtain ⟨fs, hRun, hEffects, hFit⟩ := ih hRest (k + 1) false (d ++ data.take r.dataMaxSize)
      have hDeliver : (frameCodec limit).effect d (r.piece hr false isFirst k hTake) =
          (d ++ data.take r.dataMaxSize, []) := rfl
      rw [List.append_assoc, List.take_append_drop] at hEffects hFit
      refine ⟨r.piece hr false isFirst k hTake :: fs, ?_, ?_, ?_⟩
      · rw [Loop.run, hPass]
        simp only [hRun]
        rfl
      · rw [Codec.effects, hDeliver, hEffects]
        simp [hLast]
      · rw [Codec.FitAll, hDeliver, hFit]
        exact and_iff_right rfl

/-- `PackMsg` makes a message into accepted frames that give the message to the callback. -/
theorem packMsg_frames {limit : UInt32} {r : PackReq} (hr : r.Valid limit) :
    ∃ fs : List (AcceptedFrame limit),
      packMsg r = some (fs.map fun f => f.val.encode) ∧
      (frameCodec limit).effects [] fs = ([], [r.callback]) ∧
      ((frameCodec limit).FitAll [] fs ↔ r.rawMsg ≠ []) := by
  have hLength := hr.length
  obtain ⟨fs, hRun, hEffects, hFit⟩ := packRun hr (Nat.lt_succ_self r.rawMsg.length) 0 true []
  refine ⟨fs, ?_, ?_, hFit⟩
  · rw [packMsg, hRun]
    rfl
  · rw [hEffects, List.nil_append, Callback.ofData_eq _ (by omega)]
    simp [PackReq.callback]

theorem packAll {limit : UInt32} {msgs : List PackReq} (hMsgs : ∀ r ∈ msgs, r.Valid limit) :
    ∃ (pkgs : List (List (List UInt8))) (fs : List (AcceptedFrame limit)),
      msgs.mapM packMsg = some pkgs ∧ (pkgs.flatten = fs.map fun f => f.val.encode) ∧
      (frameCodec limit).effects [] fs = ([], msgs.map PackReq.callback) ∧
      ((frameCodec limit).FitAll [] fs ↔ ∀ r ∈ msgs, r.rawMsg ≠ []) := by
  induction msgs with
  | nil => exact ⟨[], [], rfl, rfl, rfl, by simp [Codec.FitAll]⟩
  | cons r msgs ih =>
    obtain ⟨fs, hPack, hEffects, hFit⟩ := packMsg_frames (hMsgs r (by simp))
    obtain ⟨pkgs, fs', hAll, hFlat, hRest, hRestFit⟩ := ih fun r' h => hMsgs r' (by simp [h])
    refine ⟨(fs.map fun f => f.val.encode) :: pkgs, fs ++ fs', ?_, ?_, ?_, ?_⟩
    · simp [List.mapM_cons, hPack, hAll]
    · simp [hFlat]
    · rw [Codec.effects_append, hEffects, hRest]
      rfl
    · rw [Codec.fitAll_append, hEffects, hFit, hRestFit, List.forall_mem_cons]

/-- A cut of encoded frames is one byte into a frame only right after the first byte of one of
them. -/
theorem noOneByteCut_of_lengths {limit : UInt32} {fs : List (AcceptedFrame limit)}
    {cs : List (List UInt8)} (hStream : cs.flatten = (frameCodec limit).encodeAll fs)
    (hCut : ∀ i < cs.length, ∀ n < fs.length,
      (cs.take i).flatten.length ≠ ((frameCodec limit).encodeAll (fs.take n)).length + 1) :
    NoOneByteCut limit cs := by
  rintro i hi ⟨fs', x, hOne, -⟩
  have hSplit : (frameCodec limit).encodeAll fs' ++ ([x] ++ (cs.drop i).flatten) =
      (frameCodec limit).encodeAll fs := by
    rw [← List.append_assoc, ← hOne, ← List.flatten_append, List.take_append_drop, hStream]
  obtain ⟨n, hn, hAll⟩ := Codec.encodeAll_prefix (frameCodec_fits 0) (by simp) hSplit
  have hLength := hCut i hi n hn
  rw [hOne, hAll, List.length_append] at hLength
  exact hLength rfl

/-- What the chunks of packed messages come to: the messages in order, each in one call of the callback,
with its operation code when it is one package; no call returns -2, the last returns 0, and the caches
end empty. -/
structure ComeBack (limit : UInt32) (msgs : List PackReq) (cs : List (List UInt8)) : Prop where
  notClosed : .returned (-2) ∉ (parseChunks limit .fresh cs).2.1
  calls : (parseChunks limit .fresh cs).2.1.length = cs.length
  last : cs ≠ [] → (parseChunks limit .fresh cs).2.1.getLast? = some (.returned 0)
  caches : (parseChunks limit .fresh cs).2.2 = .fresh
  callbacks : List.Forall₂ (fun r cb => cb.payload = r.rawMsg ∧
    (r.rawMsg.length ≤ r.dataMaxSize → cb.opCode = r.opCode)) msgs (parseChunks limit .fresh cs).1

theorem encodeAll_flatten {limit : UInt32} (fs : List (AcceptedFrame limit)) :
    (frameCodec limit).encodeAll fs = (fs.map fun f => f.val.encode).flatten := by
  rw [Codec.encodeAll, List.flatMap_def]
  rfl

theorem comeBack_of_fit {limit : UInt32} {msgs : List PackReq} {fs : List (AcceptedFrame limit)}
    {cs : List (List UInt8)} (hEffects : (frameCodec limit).effects [] fs = ([], msgs.map PackReq.callback))
    (hFit : (frameCodec limit).FitAll [] fs) (hStream : cs.flatten = (frameCodec limit).encodeAll fs)
    (hne : ∀ c ∈ cs, c ≠ []) (hCut : NoOneByteCut limit cs) : ComeBack limit msgs cs := by
  obtain ⟨endings, hEndings, hRun, hLength, hLast⟩ := parseChunks_encodeAll hFit hStream hne hCut
  rw [hEffects] at hRun
  have hOut : List.Forall₂ (fun r cb => cb.payload = r.rawMsg ∧
      (r.rawMsg.length ≤ r.dataMaxSize → cb.opCode = r.opCode)) msgs
      (msgs.map PackReq.callback) := by
    rw [List.forall₂_map_right_iff]
    exact List.forall₂_same.mpr fun r _ => ⟨rfl, fun h => if_pos h⟩
  constructor
  · rw [hRun]
    exact hEndings
  · rw [hRun]
    exact hLength
  · rw [hRun]
    exact hLast
  · rw [hRun]
    rfl
  · rw [hRun]
    exact hOut

/-- Where the frames do not all fit, some callback is never called. -/
theorem fewer_callbacks {limit : UInt32} {msgs : List PackReq} {fs : List (AcceptedFrame limit)}
    {cs : List (List UInt8)} (hEffects : (frameCodec limit).effects [] fs = ([], msgs.map PackReq.callback))
    (hNot : ¬(frameCodec limit).FitAll [] fs) (hStream : cs.flatten = (frameCodec limit).encodeAll fs)
    (hcs : cs ≠ []) (hne : ∀ c ∈ cs, c ≠ []) (hCut : NoOneByteCut limit cs) :
    (parseChunks limit .fresh cs).1.length < msgs.length := by
  obtain ⟨endings, -, hRun⟩ := parseChunks_fresh hcs hne hCut
  obtain ⟨front, f, back, rfl, -, hStuck, r, hDrain, -⟩ := drain_not_fits hNot []
  rw [List.append_nil, ← hStream] at hDrain
  have hFinal : f.val.fin = true := (emptyFinal_iff.mp (Bool.of_not_eq_false hStuck)).1
  have hOne : ((frameCodec limit).effect ((frameCodec limit).effects [] front).1 f).2.length = 1 := by
    show (deliver _ f.val.fin _ _).2.length = 1
    rw [deliver, if_pos hFinal]
    rfl
  have hCount := congrArg (fun x => x.2.length) hEffects
  simp only [Codec.effects_append, Codec.effects, List.length_append, List.length_map, hOne] at hCount
  rw [hRun, hDrain]
  show ((frameCodec limit).effects [] front).2.length < msgs.length
  omega

/-- **Codec round trip**: the messages packed by `PackMsg`, fed to a fresh parser in non-empty
chunks of which none ends right after the first byte of a package, come back if and only if none of
them is empty. -/
theorem packMsg_parseChunks {limit : UInt32} {msgs : List PackReq}
    (hMsgs : ∀ r ∈ msgs, r.Valid limit) :
    ∃ pkgs : List (List (List UInt8)), msgs.mapM packMsg = some pkgs ∧
      ∀ cs : List (List UInt8), cs.flatten = pkgs.flatten.flatten → (∀ c ∈ cs, c ≠ []) →
        (∀ i < cs.length, ∀ n < pkgs.flatten.length,
          (cs.take i).flatten.length ≠ (pkgs.flatten.take n).flatten.length + 1) →
        (ComeBack limit msgs cs ↔ ∀ r ∈ msgs, r.rawMsg ≠ []) := by
  obtain ⟨pkgs, fs, hPack, hFlat, hEffects, hFit⟩ := packAll hMsgs
  refine ⟨pkgs, hPack, fun cs hStream hne hCut => ?_⟩
  rw [hFlat] at hStream hCut
  rw [← encodeAll_flatten] at hStream
  have hNoCut : NoOneByteCut limit cs := by
    refine noOneByteCut_of_lengths hStream fun i hi n hn => ?_
    rw [encodeAll_flatten, List.map_take]
    exact hCut i hi n (by simpa using hn)
  rw [← hFit]
  constructor
  · intro hBack
    by_contra hNot
    have hCount := hBack.callbacks.length_eq
    by_cases hcs : cs = []
    · subst hcs
      obtain rfl := List.eq_nil_of_length_eq_zero hCount
      exact hNot (hFit.mpr fun r hr => absurd hr List.not_mem_nil)
    · have hFewer := fewer_callbacks hEffects hNot hStream hcs hne hNoCut
      omega
  · exact fun hAll => comeBack_of_fit hEffects hAll hStream hne hNoCut

/-- A text of two fragments and a masked binary message behind it, in two chunks. -/
theorem packMsg_parseChunks_hey :
    ComeBack 1048576
      [⟨true, .text, [0x68, 0x65, 0x79], 2, fun _ => ⟨[1, 2, 3, 4], rfl⟩⟩,
        ⟨false, .binary, [0x2A], 5, fun _ => ⟨[1, 2, 3, 4], rfl⟩⟩]
      [[0x01, 0x02, 0x68], [0x65, 0x80, 0x01, 0x79, 0x82, 0x81, 1, 2, 3, 4, 0x2B]] := by
  have hMsgs : ∀ r ∈ ([⟨true, .text, [0x68, 0x65, 0x79], 2, fun _ => ⟨[1, 2, 3, 4], rfl⟩⟩,
      ⟨false, .binary, [0x2A], 5, fun _ => ⟨[1, 2, 3, 4], rfl⟩⟩] : List PackReq), r.Valid 1048576 := by
    intro r hr
    simp only [List.mem_cons, List.not_mem_nil, or_false] at hr
    rcases hr with rfl | rfl
    · exact ⟨.inl rfl, by decide, by decide, by decide⟩
    · exact ⟨.inr rfl, by decide, by decide, by decide⟩
  obtain ⟨pkgs, hPack, hParse⟩ := packMsg_parseChunks hMsgs
  have hPkgs : pkgs =
      [[[0x01, 0x02, 0x68, 0x65], [0x80, 0x01, 0x79]], [[0x82, 0x81, 1, 2, 3, 4, 0x2B]]] :=
    Option.some.inj (hPack.symm.trans (by decide))
  subst hPkgs
  exact (hParse [[0x01, 0x02, 0x68], [0x65, 0x80, 0x01, 0x79, 0x82, 0x81, 1, 2, 3, 4, 0x2B]] rfl
    (by decide) (by decide)).mpr (by simp)

/-- An empty text does not come back. -/
theorem packMsg_parseChunks_empty :
    ¬∀ (limit : UInt32) (msgs : List PackReq), (∀ r ∈ msgs, r.Valid limit) →
      ∃ pkgs : List (List (List UInt8)), msgs.mapM packMsg = some pkgs ∧
        ∀ cs : List (List UInt8), cs.flatten = pkgs.flatten.flatten → (∀ c ∈ cs, c ≠ []) →
          (∀ i < cs.length, ∀ n < pkgs.flatten.length,
            (cs.take i).flatten.length ≠ (pkgs.flatten.take n).flatten.length + 1) →
          ComeBack limit msgs cs := by
  intro h
  obtain ⟨pkgs, hPack, hParse⟩ := h 1048576
    [⟨true, .text, [], 5, fun _ => ⟨[1, 2, 3, 4], rfl⟩⟩] (by
      intro r hr
      obtain rfl := List.mem_singleton.mp hr
      exact ⟨.inl rfl, by decide, by decide, by decide⟩)
  have hPkgs : pkgs = [[[0x81, 0x00]]] := Option.some.inj (hPack.symm.trans (by decide))
  subst hPkgs
  have hLast := (hParse [[0x81, 0x00]] rfl (by decide) (by decide)).last (by decide)
  revert hLast
  decide

end DemoCode.WebSocket
