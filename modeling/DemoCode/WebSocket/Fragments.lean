import Mathlib.Data.Nat.Find
import DemoCode.WebSocket.Segmentation

/-! Messages in fragments, with control frames between the fragments.  `ParseMsg` keeps one data
cache for all frames and calls the callback with the operation code of the final one, so it gives
such a stream back as it was sent exactly when every message is a single fragment, and none is
empty. -/

namespace DemoCode.WebSocket

/-- What the place of a frame in a stream leaves open. -/
structure Part where
  rsv : Fin 8
  form : LenForm
  mask : Option Mask
  payload : List UInt8
  fits : form.Fits payload.length

def Part.frame (p : Part) (fin : Bool) (opCode : OpCode) : Frame :=
  ⟨fin, p.rsv, opCode, p.form, p.mask, p.payload, p.fits⟩

/-- A PING or a PONG, which is one frame. -/
structure Control where
  pong : Bool
  part : Part

def Control.opCode (c : Control) : OpCode := if c.pong then .pong else .ping

def Control.frame (c : Control) : Frame := c.part.frame true c.opCode

def Control.callback (c : Control) : Callback := ⟨c.part.payload, c.opCode⟩

/-- A TEXT or BINARY message: its first fragment, and the others, each with the control frames
sent before it. -/
structure Message where
  binary : Bool
  first : Part
  rest : List (List Control × Part)

def Message.opCode (m : Message) : OpCode := if m.binary then .binary else .text

def restFrames : List (List Control × Part) → List Frame
  | [] => []
  | (controls, p) :: rest =>
    controls.map Control.frame ++ p.frame rest.isEmpty .frame :: restFrames rest

def Message.frames (m : Message) : List Frame :=
  m.first.frame m.rest.isEmpty m.opCode :: restFrames m.rest

/-- The calls of the callback for a message and the control frames within it. -/
def Message.callbacks (m : Message) : List Callback :=
  (m.rest.flatMap fun x => x.1.map Control.callback) ++
    [⟨m.first.payload ++ m.rest.flatMap fun x => x.2.payload, m.opCode⟩]

inductive Item where
  | control (c : Control)
  | message (m : Message)

def Item.frames : Item → List Frame
  | .control c => [c.frame]
  | .message m => m.frames

def Item.callbacks : Item → List Callback
  | .control c => [c.callback]
  | .message m => m.callbacks

/-- The frames of a stream. -/
def streamFrames (items : List Item) : List Frame := items.flatMap Item.frames

def Item.Single : Item → Prop
  | .control _ => True
  | .message m => m.rest = []

instance : DecidablePred Item.Single
  | .control _ => isTrue trivial
  | .message m => decidable_of_iff (m.rest.isEmpty = true) List.isEmpty_iff

/-! ### Operation codes -/

/-- The operation codes of the final frames. -/
def finOps (fs : List Frame) : List OpCode := (fs.filter Frame.fin).map Frame.opCode

@[simp] theorem finOps_cons (f : Frame) (fs : List Frame) :
    finOps (f :: fs) = (if f.fin then [f.opCode] else []) ++ finOps fs := by
  cases h : f.fin <;> simp [finOps, h]

@[simp] theorem finOps_append (fs gs : List Frame) :
    finOps (fs ++ gs) = finOps fs ++ finOps gs := by simp [finOps]

@[simp] theorem finOps_controls (cs : List Control) :
    finOps (cs.map Control.frame) = cs.map Control.opCode := by
  induction cs with
  | nil => rfl
  | cons c cs ih =>
    rw [List.map_cons, finOps_cons, ih]
    rfl

/-- The callback is called once for every final frame, with the operation code of that frame. -/
theorem effects_opCode {limit : UInt32} (d : List UInt8) (fs : List (AcceptedFrame limit)) :
    ((frameCodec limit).effects d fs).2.map Callback.opCode = finOps (fs.map Subtype.val) := by
  induction fs generalizing d with
  | nil => rfl
  | cons f fs ih =>
    rw [Codec.effects, List.map_append, ih, List.map_cons, finOps_cons]
    congr 1
    show (deliver d f.val.fin f.val.opCode f.val.payload).2.map Callback.opCode = _
    unfold deliver
    split <;> rfl

theorem finOps_restFrames (rest : List (List Control × Part)) :
    finOps (restFrames rest) =
      (rest.flatMap fun x => x.1.map Control.opCode) ++ if rest.isEmpty then [] else [.frame] := by
  induction rest with
  | nil => rfl
  | cons x rest ih =>
    rw [restFrames, finOps_append, finOps_controls, finOps_cons, ih]
    cases rest <;> simp [Part.frame]

/-- A message in several fragments ends with a frame that has the operation code 0. -/
theorem finOps_message (m : Message) :
    finOps m.frames = (m.rest.flatMap fun x => x.1.map Control.opCode) ++
      [if m.rest.isEmpty then m.opCode else .frame] := by
  rw [Message.frames, finOps_cons, finOps_restFrames]
  cases m.rest <;> simp [Part.frame]

theorem callbacks_opCode (m : Message) :
    m.callbacks.map Callback.opCode = (m.rest.flatMap fun x => x.1.map Control.opCode) ++
      [m.opCode] := by
  have hMap : Callback.opCode ∘ Control.callback = Control.opCode := rfl
  simp [Message.callbacks, List.map_flatMap, hMap]

theorem length_finOps (i : Item) :
    (finOps i.frames).length = (i.callbacks.map Callback.opCode).length := by
  cases i with
  | control c => rfl
  | message m =>
    show (finOps m.frames).length = (m.callbacks.map Callback.opCode).length
    rw [finOps_message, callbacks_opCode, List.length_append, List.length_append]
    rfl

theorem single_of_finOps {i : Item} (h : finOps i.frames = i.callbacks.map Callback.opCode) :
    i.Single := by
  cases i with
  | control c => trivial
  | message m =>
    change finOps m.frames = m.callbacks.map Callback.opCode at h
    rw [finOps_message, callbacks_opCode, List.append_cancel_left_eq] at h
    by_cases hRest : m.rest = []
    · exact hRest
    · rw [if_neg (by simpa using hRest)] at h
      have hOp : m.opCode ≠ .frame := by
        unfold Message.opCode
        split <;> decide
      exact absurd (List.singleton_inj.mp h).symm hOp

theorem single_of_stream {items : List Item}
    (h : finOps (streamFrames items) = (items.flatMap Item.callbacks).map Callback.opCode) :
    ∀ i ∈ items, i.Single := by
  induction items with
  | nil => exact fun i hi => absurd hi List.not_mem_nil
  | cons i items ih =>
    rw [streamFrames, List.flatMap_cons, List.flatMap_cons, finOps_append, List.map_append] at h
    obtain ⟨hHead, hTail⟩ := List.append_inj h (length_finOps i)
    intro j hj
    rcases List.mem_cons.mp hj with rfl | hj
    · exact single_of_finOps hHead
    · exact ih hTail j hj

theorem length_stream (items : List Item) :
    (finOps (streamFrames items)).length = (items.flatMap Item.callbacks).length := by
  induction items with
  | nil => rfl
  | cons i items ih =>
    have hHead := length_finOps i
    rw [List.length_map] at hHead
    rw [streamFrames] at ih
    rw [streamFrames, List.flatMap_cons, List.flatMap_cons, finOps_append, List.length_append,
      List.length_append, hHead, ih]

/-! ### Streams that are not parsed to their end -/

theorem getLast?_restFrames {rest : List (List Control × Part)} {f : Frame}
    (h : f ∈ (restFrames rest).getLast?) : f.fin = true := by
  induction rest with
  | nil => simp [restFrames] at h
  | cons x rest ih =>
    cases rest with
    | nil =>
      have hf : x.2.frame true .frame = f := by simpa [restFrames] using h
      rw [← hf]
      rfl
    | cons y rest =>
      apply ih
      rw [restFrames, List.getLast?_append, List.getLast?_cons] at h
      have hNe : restFrames (y :: rest) ≠ [] := by simp [restFrames]
      rw [List.getLast?_eq_some_getLast hNe] at h ⊢
      simpa using h

theorem getLast?_frames {i : Item} {f : Frame} (h : f ∈ i.frames.getLast?) : f.fin = true := by
  cases i with
  | control c =>
    have hf : c.frame = f := by simpa [Item.frames] using h
    rw [← hf]
    rfl
  | message m =>
    change f ∈ m.frames.getLast? at h
    by_cases hRest : m.rest = []
    · have hf : m.first.frame true m.opCode = f := by
        simpa [Message.frames, hRest, restFrames] using h
      rw [← hf]
      rfl
    · have hNe : restFrames m.rest ≠ [] := by
        cases hm : m.rest with
        | nil => exact absurd hm hRest
        | cons x rest => simp [restFrames]
      have hLast : f ∈ (restFrames m.rest).getLast? := by
        rw [Message.frames, List.getLast?_cons, List.getLast?_eq_some_getLast hNe] at h
        rw [List.getLast?_eq_some_getLast hNe]
        simpa using h
      exact getLast?_restFrames hLast

/-- The last frame of a stream is final. -/
theorem getLast?_stream {items : List Item} {f : Frame}
    (h : f ∈ (streamFrames items).getLast?) : f.fin = true := by
  induction items with
  | nil => simp [streamFrames] at h
  | cons i items ih =>
    rw [streamFrames, List.flatMap_cons, List.getLast?_append] at h
    rcases Option.or_eq_some_iff.mp h with hTail | ⟨-, hHead⟩
    · exact ih hTail
    · exact getLast?_frames hHead

/-- The first frames of a stream have fewer final ones among them than the whole stream. -/
theorem length_finOps_take {items : List Item} {n : Nat} (h : n < (streamFrames items).length) :
    (finOps ((streamFrames items).take n)).length < (finOps (streamFrames items)).length := by
  have hSplit := List.take_append_drop n (streamFrames items)
  have hRest : (streamFrames items).drop n ≠ [] := by
    intro hNil
    rw [List.drop_eq_nil_iff] at hNil
    omega
  have hLast : ((streamFrames items).drop n).getLast hRest ∈ (streamFrames items).getLast? := by
    have hLong := List.getLast?_drop (l := streamFrames items) (i := n)
    rw [if_neg (by omega)] at hLong
    rw [← hLong]
    exact List.getLast?_eq_some_getLast hRest
  have hFin := getLast?_stream hLast
  have hPos : 0 < (finOps ((streamFrames items).drop n)).length := by
    rw [finOps, List.length_map]
    refine List.length_pos_of_mem (List.mem_filter.mpr ⟨List.getLast_mem hRest, hFin⟩)
  conv_rhs => rw [← hSplit, finOps_append, List.length_append]
  omega

/-- The front of a buffer determines the size of the frame there, and whether it is final. -/
theorem Frame.encode_append_inj {f g : Frame} {r r' : List UInt8}
    (h : f.encode ++ r = g.encode ++ r') :
    f.fin = g.fin ∧ f.payload.length = g.payload.length ∧ r = r' := by
  have hBytes : f.head.byte0 = g.head.byte0 ∧ f.head.byte1 = g.head.byte1 := by
    simp only [Frame.encode, List.cons_append, List.cons.injEq] at h
    exact ⟨h.1, h.2.1⟩
  have hHead : f.head = g.head := by
    rw [← Head.ofBytes_bytes f.head, hBytes.1, hBytes.2, Head.ofBytes_bytes]
  have hKey := keyAndDataLen_encode f r
  rw [h, hHead, keyAndDataLen_encode g r'] at hKey
  simp only [Option.some.injEq, Prod.mk.injEq] at hKey
  have hLength : f.encode.length = g.encode.length := by
    rw [f.length_encode, g.length_encode, hHead, hKey.1, hKey.2]
  exact ⟨congrArg Head.fin hHead, hKey.2.symm, (List.append_inj h hLength).2⟩

/-- Accepted frames at the front of a stream are as many frames of the stream. -/
theorem encodeAll_front {limit : UInt32} {fs : List (AcceptedFrame limit)} {rest : List UInt8}
    {gs : List Frame} (h : (frameCodec limit).encodeAll fs ++ rest = gs.flatMap Frame.encode) :
    ∃ n ≤ gs.length, rest = (gs.drop n).flatMap Frame.encode ∧
      (fs.map fun f => (f.val.fin, f.val.payload.length)) =
        (gs.take n).map fun g => (g.fin, g.payload.length) := by
  induction fs generalizing gs with
  | nil => exact ⟨0, Nat.zero_le _, h, rfl⟩
  | cons f fs ih =>
    cases gs with
    | nil =>
      rw [Codec.encodeAll_cons, List.append_assoc] at h
      exact absurd (List.append_eq_nil_iff.mp h).1 (Codec.encode_ne (frameCodec_fits 0 f))
    | cons g gs =>
      rw [Codec.encodeAll_cons, List.append_assoc, List.flatMap_cons] at h
      obtain ⟨hFin, hLength, hTail⟩ := Frame.encode_append_inj (f := f.val) h
      obtain ⟨n, hn, hRest, hShape⟩ := ih hTail
      refine ⟨n + 1, Nat.succ_le_succ hn, hRest, ?_⟩
      rw [List.map_cons, List.take_succ_cons, List.map_cons, hShape, hFin, hLength]

theorem length_finOps_eq (fs : List Frame) :
    (finOps fs).length = (fs.map fun f => (f.fin, f.payload.length)).countP Prod.fst := by
  rw [finOps, List.length_map, List.countP_map, List.countP_eq_length_filter]
  rfl

theorem parseChunks_append {limit : UInt32} {p : Proto} {cs : List (List UInt8)}
    (h : .returned (-2) ∈ (parseChunks limit p cs).2.1) (cs' : List (List UInt8)) :
    parseChunks limit p (cs ++ cs') = parseChunks limit p cs := by
  induction cs generalizing p with
  | nil => exact absurd h List.not_mem_nil
  | cons c cs ih =>
    rw [List.cons_append, parseChunks_cons, parseChunks_cons]
    rw [parseChunks_cons] at h
    by_cases hRet : (parseMsg limit p c).2.1 = .returned (-2)
    · rw [if_pos hRet, if_pos hRet]
    · rw [if_neg hRet] at h ⊢
      rw [if_neg hRet, ih ((List.mem_cons.mp h).resolve_left (Ne.symm hRet))]

/-- Whatever the cut, the calls of the callback are those of some frames at the front of the
stream; and of all its frames only when no chunk ends one byte into a frame. -/
theorem parseChunks_front (limit : UInt32) {cs : List (List UInt8)} (hne : ∀ c ∈ cs, c ≠ []) :
    ∃ (fs : List (AcceptedFrame limit)) (rest : List UInt8),
      cs.flatten = (frameCodec limit).encodeAll fs ++ rest ∧ (frameCodec limit).FitAll [] fs ∧
      (parseChunks limit .fresh cs).1 = ((frameCodec limit).effects [] fs).2 ∧
      (rest = [] → NoOneByteCut limit cs) := by
  by_cases hcs : cs = []
  · subst hcs
    exact ⟨[], [], rfl, trivial, rfl, fun _ i hi => absurd hi (Nat.not_lt_zero i)⟩
  by_cases hCut : NoOneByteCut limit cs
  · obtain ⟨endings, -, hRun⟩ := parseChunks_fresh hcs hne hCut
    obtain ⟨fs, rest, hStream, hFit, hOut⟩ :=
      Codec.drain_front (C := frameCodec limit) [] cs.flatten
    refine ⟨fs, rest, hStream, hFit, ?_, fun _ => hCut⟩
    rw [hRun, ← hOut]
  · have hSome : ∃ i, i < cs.length ∧ OneByteIn limit (cs.take i).flatten := by
      simpa [NoOneByteCut] using hCut
    obtain ⟨hi, fs, x, hOne, hFit⟩ := Nat.find_spec hSome
    have hMin : ∀ j < Nat.find hSome, ¬OneByteIn limit (cs.take j).flatten :=
      fun j hj hBad => Nat.find_min hSome hj ⟨Nat.lt_trans hj hi, hBad⟩
    generalize Nat.find hSome = i at hi hOne hMin
    have hLength : (cs.take i).length = i := List.length_take_of_le (Nat.le_of_lt hi)
    have hFirst : cs.take i ≠ [] := by
      intro hNil
      rw [hNil] at hOne
      exact absurd (List.append_eq_nil_iff.mp hOne.symm).2 (List.cons_ne_nil x [])
    have hNoCut : NoOneByteCut limit (cs.take i) := by
      intro j hj
      rw [hLength] at hj
      rw [List.take_take, Nat.min_eq_left (Nat.le_of_lt hj)]
      exact hMin j hj
    obtain ⟨endings, -, hRun⟩ :=
      parseChunks_fresh hFirst (fun c hc => hne c (List.mem_of_mem_take hc)) hNoCut
    have hMore : (frameCodec limit).next ((frameCodec limit).effects [] fs).1 [x] = .more := rfl
    rw [hOne, Codec.drain_encodeAll hFit, Decoder.drain_more hMore, List.append_nil] at hRun
    have hGiveUp : .returned (-2) ∈ (parseChunks limit .fresh (cs.take i)).2.1 := by
      rw [hRun]
      exact List.mem_append_right _ (List.mem_singleton.mpr rfl)
    have hStop := parseChunks_append hGiveUp (cs.drop i)
    rw [List.take_append_drop] at hStop
    refine ⟨fs, x :: (cs.drop i).flatten, ?_, hFit, ?_,
      fun hNil => absurd hNil (List.cons_ne_nil x _)⟩
    · conv_lhs => rw [← List.take_append_drop i cs, List.flatten_append, hOne]
      rw [List.append_assoc]
      rfl
    · rw [hStop, hRun]

/-! ### What is given back -/

/-- What is not in fragments is one final frame. -/
theorem single_frame {i : Item} (hi : i.Single) :
    ∃ g : Frame, i.frames = [g] ∧ g.fin = true ∧ i.callbacks = [⟨g.payload, g.opCode⟩] := by
  cases i with
  | control c => exact ⟨c.frame, rfl, rfl, rfl⟩
  | message m =>
    have hRest : m.rest = [] := hi
    refine ⟨m.first.frame true m.opCode, ?_, rfl, ?_⟩
    · simp [Item.frames, Message.frames, hRest, restFrames]
    · simp [Item.callbacks, Message.callbacks, hRest, Part.frame]

theorem effects_single {limit : UInt32} {i : Item} (hi : i.Single) {fs : List (AcceptedFrame limit)}
    (hFrames : fs.map Subtype.val = i.frames) :
    (frameCodec limit).effects [] fs = ([], i.callbacks) := by
  obtain ⟨g, hFrame, hFin, hCallbacks⟩ := single_frame hi
  rw [hFrame] at hFrames
  obtain ⟨f, rfl, rfl⟩ := List.map_eq_singleton_iff.mp hFrames
  have hLength := f.property.2
  have hLimit := limit.toNat_lt
  have hDeliver : (frameCodec limit).effect [] f = ([], [⟨f.val.payload, f.val.opCode⟩]) := by
    show deliver [] f.val.fin f.val.opCode f.val.payload = _
    rw [deliver, if_pos hFin, List.nil_append, Callback.ofData_eq _ (by omega)]
  rw [Codec.effects, hDeliver, hCallbacks]
  rfl

theorem effects_stream {limit : UInt32} {items : List Item} (h : ∀ i ∈ items, i.Single)
    {fs : List (AcceptedFrame limit)} (hFrames : fs.map Subtype.val = streamFrames items) :
    (frameCodec limit).effects [] fs = ([], items.flatMap Item.callbacks) := by
  induction items generalizing fs with
  | nil =>
    obtain rfl := List.map_eq_nil_iff.mp hFrames
    rfl
  | cons i items ih =>
    rw [streamFrames, List.flatMap_cons] at hFrames
    obtain ⟨gs, gs', rfl, hHead, hTail⟩ := List.map_eq_append_iff.mp hFrames
    have hFirst := effects_single (h i (by simp)) hHead
    have hRest := ih (fun j hj => h j (by simp [hj])) hTail
    rw [Codec.effects_append, hFirst, hRest]
    rfl

theorem checkOpCode_control (c : Control) : checkOpCode c.frame.opCode = true := by
  show checkOpCode c.opCode = true
  unfold Control.opCode
  split <;> rfl

theorem checkOpCode_restFrames {rest : List (List Control × Part)} {f : Frame}
    (h : f ∈ restFrames rest) : checkOpCode f.opCode = true := by
  induction rest with
  | nil => exact absurd h List.not_mem_nil
  | cons x rest ih =>
    rcases List.mem_append.mp h with hControl | hPart
    · obtain ⟨c, -, rfl⟩ := List.mem_map.mp hControl
      exact checkOpCode_control c
    · rcases List.mem_cons.mp hPart with rfl | hRest
      · rfl
      · exact ih hRest

/-- The frames of a stream pass the test of the operation code. -/
theorem checkOpCode_stream {items : List Item} {f : Frame} (h : f ∈ streamFrames items) :
    checkOpCode f.opCode = true := by
  obtain ⟨i, -, hf⟩ := List.mem_flatMap.mp h
  cases i with
  | control c =>
    obtain rfl := List.mem_singleton.mp hf
    exact checkOpCode_control c
  | message m =>
    rcases List.mem_cons.mp hf with rfl | hf
    · show checkOpCode m.opCode = true
      unfold Message.opCode
      split <;> rfl
    · exact checkOpCode_restFrames hf

/-- The frames of a stream within the limit are accepted. -/
theorem exists_accepted {limit : UInt32} {items : List Item}
    (hLimit : ∀ f ∈ streamFrames items, f.payload.length ≤ limit.toNat) :
    ∃ fs : List (AcceptedFrame limit), fs.map Subtype.val = streamFrames items := by
  have hAccepted : ∀ f ∈ streamFrames items, f.Accepted limit :=
    fun f hf => ⟨checkOpCode_stream hf, hLimit f hf⟩
  exact ⟨(streamFrames items).pmap Subtype.mk hAccepted, by simp [List.map_pmap]⟩

/-- A stream of accepted frames that fit is parsed to its end. -/
theorem parseChunks_stream {limit : UInt32} {items : List Item} {cs : List (List UInt8)}
    (hStream : cs.flatten = (streamFrames items).flatMap Frame.encode) (hne : ∀ c ∈ cs, c ≠ [])
    (hCut : NoOneByteCut limit cs) {fs : List (AcceptedFrame limit)}
    (hFrames : fs.map Subtype.val = streamFrames items) (hFit : (frameCodec limit).FitAll [] fs) :
    (parseChunks limit .fresh cs).1 = ((frameCodec limit).effects [] fs).2 := by
  have hEncode : cs.flatten = (frameCodec limit).encodeAll fs := by
    rw [hStream, ← hFrames, List.flatMap_map]
    rfl
  obtain ⟨endings, -, hRun, -, -⟩ := parseChunks_encodeAll hFit hEncode hne hCut
  rw [hRun]

/-! ### Empty frames -/

/-- Whether frames fit is a matter of which are final and how long they are. -/
theorem fitAll_of_lengths {limit : UInt32} {d d' : List UInt8} (hd : d.length = d'.length)
    {fs gs : List (AcceptedFrame limit)}
    (h : (fs.map fun f => (f.val.fin, f.val.payload.length)) =
      gs.map fun g => (g.val.fin, g.val.payload.length))
    (hFit : (frameCodec limit).FitAll d fs) : (frameCodec limit).FitAll d' gs := by
  induction fs generalizing gs d d' with
  | nil =>
    obtain rfl := List.map_eq_nil_iff.mp h.symm
    trivial
  | cons f fs ih =>
    obtain ⟨g, gs, rfl, hHead, hTail⟩ := List.map_eq_cons_iff.mp h.symm
    obtain ⟨hFin, hLength⟩ := Prod.mk.inj hHead
    refine ⟨?_, ih ?_ hTail.symm hFit.2⟩
    · have hFits : emptyFinal d f.val.fin f.val.payload = false := hFit.1
      show emptyFinal d' g.val.fin g.val.payload = false
      rw [← Bool.not_eq_true, emptyFinal_iff] at hFits ⊢
      rintro ⟨hFinal, hNone⟩
      apply hFits ⟨hFin ▸ hFinal, _⟩
      apply List.eq_nil_of_length_eq_zero
      rw [List.length_append, hd, ← hLength, ← List.length_append, hNone, List.length_nil]
    · show (deliver d f.val.fin _ _).1.length = (deliver d' g.val.fin _ _).1.length
      unfold deliver
      rw [hFin]
      split
      · rfl
      · show (d ++ f.val.payload).length = (d' ++ g.val.payload).length
        rw [List.length_append, List.length_append, hd, hLength]

/-- Final frames fit when they are not empty. -/
theorem fitAll_final {limit : UInt32} {fs : List (AcceptedFrame limit)}
    (hFin : ∀ f ∈ fs, f.val.fin = true) :
    (frameCodec limit).FitAll [] fs ↔ ∀ f ∈ fs, f.val.payload ≠ [] := by
  induction fs with
  | nil => simp [Codec.FitAll]
  | cons f fs ih =>
    have hHead := hFin f List.mem_cons_self
    have hCache : ((frameCodec limit).effect [] f).1 = [] := by
      show (deliver [] f.val.fin f.val.opCode f.val.payload).1 = []
      rw [deliver, if_pos hHead]
    have hFits : (frameCodec limit).Fits [] f ↔ f.val.payload ≠ [] := by
      show emptyFinal [] f.val.fin f.val.payload = false ↔ _
      rw [← Bool.not_eq_true, emptyFinal_iff, List.nil_append]
      exact not_congr (and_iff_right hHead)
    rw [Codec.FitAll, hCache, ih fun g hg => hFin g (List.mem_cons_of_mem f hg), hFits,
      List.forall_mem_cons]

theorem final_stream {items : List Item} (h : ∀ i ∈ items, i.Single) {f : Frame}
    (hf : f ∈ streamFrames items) : f.fin = true := by
  obtain ⟨i, hi, hf⟩ := List.mem_flatMap.mp hf
  obtain ⟨g, hFrame, hFin, -⟩ := single_frame (h i hi)
  rw [hFrame] at hf
  rw [List.mem_singleton.mp hf]
  exact hFin

/-- A stream without fragments fits when no frame of it is empty. -/
theorem fitAll_stream {limit : UInt32} {items : List Item} (h : ∀ i ∈ items, i.Single)
    {fs : List (AcceptedFrame limit)} (hFrames : fs.map Subtype.val = streamFrames items) :
    (frameCodec limit).FitAll [] fs ↔ ∀ f ∈ streamFrames items, f.payload ≠ [] := by
  rw [← hFrames, List.forall_mem_map]
  refine fitAll_final fun f hf => final_stream h ?_
  rw [← hFrames]
  exact List.mem_map_of_mem hf

end DemoCode.WebSocket
