import DemoCode.Uws.Stream

/-! `consume` against the decoder of frames: whatever the reads cut the stream into, a connection goes
through the same states as if the stream had come at once, and no read touches what is outside of its
buffer.  The exception is a read that ends in the header of a compressed frame behind the bytes that the
loop asks for before it reads one: 6 on a server, so in the rest of the length or in the mask, and 2 on a
client. -/

namespace DemoCode.Uws

open WebSocket

variable {σ : Type} {g : Group σ} {isServer : Bool} {w x v : WebSocket σ} {b c pre post : List UInt8}
  {header payload fuel : ℕ}

/-! ### One pass of the loop -/

/-- The header of a compressed frame, with the 6 bytes (on a client 2) that are asked for, but not all. -/
def CutLength (isServer : Bool) (raw : List UInt8) : Prop :=
  shortMessageHeader isServer ≤ raw.length ∧ raw.length < headerLength isServer (raw.getD 1 0) ∧
    rsv1 (raw.getD 0 0) = true

theorem getElem_second (h : 1 < b.length) :
    (pre ++ (b ++ post))[pre.length + 1]? = some (b.getD 1 0) := by
  rw [List.getElem?_append_right (by omega), Nat.add_sub_cancel_left, List.getElem?_append_left h,
    List.getD_eq_getElem?_getD, List.getElem?_eq_getElem h, Option.getD_some]

theorem spillRest_eq (hLength : b.length < longMessageHeader isServer) (hEmpty : b = [] → w.spill = []) :
    spillRest isServer ⟨pre ++ (b ++ post), pre.length, b.length⟩ w = some { w with spill := b } := by
  unfold spillRest
  by_cases hb : b = []
  · rw [if_pos (by rw [hb]; rfl), hb, ← hEmpty hb]
  · have hPos : b.length ≠ 0 := by simpa using hb
    have hData := readAt_eq pre b post rfl rfl
    simp only [hPos, if_false, hData, Option.bind_eq_bind, Option.bind_some]
    rw [if_pos (by omega)]

variable (pre post fuel) in
/-- The loop waits for the rest of a header. -/
theorem parseNext_wait (hEmpty : b = [] → w.spill = []) (h : front g isServer w b = .wait) :
    ∃ v, (¬CutLength isServer b ∧ v = w ∨
        CutLength isServer b ∧ v = { w with compressionStatus := .compressedFrame }) ∧
      parseNext g isServer (fuel + 1) ⟨pre ++ (b ++ post), pre.length, b.length⟩ w =
        some { v with spill := b } := by
  have hTwo := two_le_short isServer
  have hLong := headerLength_le_long isServer (b.getD 1 0)
  have hShort := short_le_headerLength isServer (b.getD 1 0)
  unfold parseNext
  unfold front at h
  split at h
  · rename_i hLess
    rw [if_pos hLess]
    exact ⟨w, Or.inl ⟨fun hCut => absurd hCut.1 (by omega), rfl⟩, spillRest_eq (by omega) hEmpty⟩
  · rename_i hNotLess
    rw [if_neg hNotLess]
    simp only [getElem_front (show 0 < b.length by omega), getElem_second (show 1 < b.length by omega),
      Option.bind_eq_bind, Option.bind_some]
    cases hCheck : checkHead (b.getD 0 0) (b.getD 1 0) w with
    | none =>
      rw [hCheck] at h
      cases h
    | some v =>
      simp only [hCheck] at h ⊢
      split at h
      · rename_i hCut
        rw [if_pos hCut, spillRest_eq (by omega) (by rintro rfl; simp at hNotLess; omega)]
        refine ⟨v, ?_, rfl⟩
        obtain ⟨hv, ⟨hRsv, -, hStatus⟩ | ⟨hRsv, hv'⟩, -⟩ := checkHead_some hCheck
        · rw [hStatus] at hv
          exact Or.inr ⟨⟨by omega, hCut, hRsv⟩, hv⟩
        · exact Or.inl ⟨fun h => Bool.false_ne_true (hRsv.symm.trans h.2.2), hv'⟩
      · split at h <;> cases h

/-- The loop goes on to a message when its header is there. -/
theorem parseNext_header (hShort : shortMessageHeader isServer ≤ b.length)
    (hCheck : checkHead (b.getD 0 0) (b.getD 1 0) w = some v)
    (hThere : headerLength isServer (b.getD 1 0) ≤ b.length) :
    parseNext g isServer (fuel + 1) ⟨pre ++ (b ++ post), pre.length, b.length⟩ w =
      (consumeMessage g isServer (headerLength isServer (b.getD 1 0)) (statedLength b (b.getD 1 0))
        ⟨pre ++ (b ++ post), pre.length, b.length⟩ v).bind fun r =>
          if r.1 then some r.2.2 else parseNext g isServer fuel r.2.1 r.2.2 := by
  have hTwo := two_le_short isServer
  have hHeader := readAt_eq pre (b.take (headerLength isServer (b.getD 1 0)))
    (b.drop (headerLength isServer (b.getD 1 0)) ++ post) rfl
    (show headerLength isServer (b.getD 1 0) = _ by rw [List.length_take]; omega)
  rw [← List.append_assoc (b.take _), List.take_append_drop] at hHeader
  have hTake : headerLength isServer (b.getD 1 0) ≤
      (b.take (headerLength isServer (b.getD 1 0))).length := by
    rw [List.length_take]
    omega
  have hStated := statedLength_append hTake (b.drop (headerLength isServer (b.getD 1 0)))
  rw [List.take_append_drop] at hStated
  rw [parseNext, if_neg (by simpa using hShort)]
  simp only [getElem_front (show 0 < b.length by omega), getElem_second (show 1 < b.length by omega),
    Option.bind_eq_bind, Option.bind_some, hCheck]
  rw [if_neg (by simpa using hThere), hHeader, Option.bind_some, ← hStated]

variable (pre post fuel) in
/-- The loop refuses a head. -/
theorem parseNext_refuse (h : front g isServer w b = .refuse) :
    ∃ v : WebSocket σ, v.seen = w.seen ∧
      parseNext g isServer (fuel + 1) ⟨pre ++ (b ++ post), pre.length, b.length⟩ w =
        some (v.forceClose g) := by
  have hTwo := two_le_short isServer
  have hShort := refuse_short h
  unfold front at h
  rw [if_neg (by omega)] at h
  cases hCheck : checkHead (b.getD 0 0) (b.getD 1 0) w with
  | none =>
    rw [parseNext, if_neg (by simpa using hShort)]
    simp only [getElem_front (show 0 < b.length by omega), getElem_second (show 1 < b.length by omega),
      Option.bind_eq_bind, Option.bind_some, hCheck]
    exact ⟨w, rfl, rfl⟩
  | some v =>
    obtain ⟨hv, -, -⟩ := checkHead_some hCheck
    simp only [hCheck] at h
    split at h
    · cases h
    · rename_i hThere
      split at h
      · rename_i hStart
        rw [parseNext_header hShort hCheck (not_lt.mp hThere)]
        simp only [consumeMessage, getElem_front (show 0 < b.length by omega), hStart,
          Option.bind_eq_bind, Option.bind_some]
        exact ⟨v, by rw [hv]; rfl, rfl⟩
      · cases h

/-! ### Between two reads -/

/-- What a connection holds of a stream of which the decoder has made `F` and has `raw` left. -/
inductive Holds (g : Group σ) (isServer : Bool) : WebSocket σ → WebSocket σ → List UInt8 → Prop
  | ended {w : WebSocket σ} {raw : List UInt8} (h : w.ended = true) : Holds g isServer w w.settle raw
  | head {w : WebSocket σ} (ready : Ready w) (wantsHead : w.wantsHead = true)
      (wait : front g isServer w.settle w.spill = .wait) (whole : ¬CutLength isServer w.spill) :
      Holds g isServer w w.settle w.spill
  | payload {F x : WebSocket σ} {raw : List UInt8} {header payload : ℕ} {s : WebSocketState}
      (ready : Ready F) (frame : front g isServer F raw = .frame x header payload)
      (less : raw.length < header + payload) (atHead : s.atHead = x.atHead)
      (wantsHead : s.wantsHead = false) (spill : s.spill = [])
      (remaining : s.remainingBytes = header + payload - raw.length)
      (mask : isServer = true → s.mask = (frameKey raw header).rotate (raw.length - header)) :
      Holds g isServer
        (x.keeping s (x.fragmentBuffer ++ content isServer raw header payload)
          (if x.opStack.headD 0 < 3 then 0 else (content isServer raw header payload).length)) F raw

/-- The next read is going to be refused. -/
structure Cut (isServer : Bool) (w F : WebSocket σ) (raw : List UInt8) : Prop where
  ready : Ready w
  wantsHead : w.wantsHead = true
  spill : w.spill = raw
  length : CutLength isServer raw
  status : w.compressionStatus = .compressedFrame
  seen : w.seen = F.seen

theorem Holds.seen {F : WebSocket σ} {raw : List UInt8} (h : Holds g isServer w F raw) :
    w.seen = F.seen := by
  cases h with
  | ended h => exact (seen_settle w).symm
  | head _ _ _ _ => exact (seen_settle w).symm
  | payload ready frame _ _ _ _ _ _ => exact seen_keeping.trans (seen_front frame)

theorem Holds.next {F : WebSocket σ} {raw : List UInt8} (h : Holds g isServer w F raw) :
    (frames g isServer).next F raw = .more := by
  change nextFrame g isServer F raw = .more
  unfold nextFrame
  cases h with
  | ended h => rw [if_pos (by simpa using h)]
  | head _ _ wait _ =>
    rw [wait]
    split <;> rfl
  | payload ready frame less _ _ _ _ _ =>
    rw [if_neg (by simp [ready.isOpen]), frame]
    exact if_neg (by omega)

/-- What a connection holds after the bytes `b`, for which the decoder started with `F`. -/
def Reached (g : Group σ) (isServer : Bool) (F : WebSocket σ) (b : List UInt8) (w : WebSocket σ) :
    Prop :=
  ∃ (F' : WebSocket σ) (raw : List UInt8), (frames g isServer).drain F b = ([], some (F', raw)) ∧
    (Holds g isServer w F' raw ∨ Cut isServer w F' raw)

theorem Holds.reached {F : WebSocket σ} {raw : List UInt8} (h : Holds g isServer w F raw) :
    Reached g isServer F raw w :=
  ⟨F, raw, Decoder.drain_more h.next, Or.inl h⟩

/-- The bytes of one item are taken by the decoder, and then the others. -/
theorem Reached.item {F F' : WebSocket σ} {n : ℕ} {o : List Empty}
    (h : nextFrame g isServer F b = .item n F' o) (hRest : Reached g isServer F' (b.drop n) w) :
    Reached g isServer F b w := by
  obtain ⟨F'', raw, hDrain, hHolds⟩ := hRest
  refine ⟨F'', raw, ?_, hHolds⟩
  rw [Decoder.drain_item (D := frames g isServer) h, hDrain]
  cases o with
  | nil => rfl
  | cons e _ => exact e.elim

/-- A frame that is there as a whole is the same for a connection and for the decoder. -/
theorem Started.whole {b0 : UInt8} (hx : Started g x b0 payload) (data : List UInt8)
    (hLength : data.length = payload) :
    let r := x.handleFragment g data 0 (x.opStack.headD 0) (isFin b0)
    r.1 = r.2.ended ∧ r.2.toWebSocketState = x.toWebSocketState ∧
      (popped (isFin b0) r.2).settle =
        (complete g (x.keeping x.atHead x.fragmentBuffer 0) data (isFin b0)).settle ∧
      (r.1 = false → Ready (popped (isFin b0) r.2)) := by
  have hx' : Started g (x.keeping x.atHead x.fragmentBuffer 0) b0 payload :=
    ⟨hx.isOpen, rfl, hx.pong, hx.lastFin, hx.stack_ne, hx.stack, hx.control, hx.small⟩
  have hRest := hx'.rest (s := x.toWebSocketState) [] data rfl hLength
  have hSelf : (x.keeping x.atHead x.fragmentBuffer 0).keeping x.toWebSocketState
      ((x.keeping x.atHead x.fragmentBuffer 0).fragmentBuffer ++ [])
      (if (x.keeping x.atHead x.fragmentBuffer 0).opStack.headD 0 < 3 then 0
        else ([] : List UInt8).length) = x := by
    rw [List.append_nil, List.length_nil, ite_self, keeping_keeping, ← hx.tip]
    exact keeping_self x
  rw [hSelf] at hRest
  exact hRest

theorem popped_of_ended {fin : Bool} (h : w.ended = true) : (popped fin w).settle = w.settle := by
  cases fin with
  | false => rfl
  | true =>
    rw [settle_of_ended h]
    exact settle_of_ended h

theorem settle_spill {w : WebSocket σ} (spill : List UInt8) (h : w.ended = false) :
    WebSocket.settle { w with spill := spill } = w.settle := by
  rw [settle_of_open h]
  exact settle_of_open h

theorem nextFrame_settle_refuse (hw : Ready w) (h : front g isServer w b = .refuse) :
    nextFrame g isServer w.settle b =
      .item (shortMessageHeader isServer) (w.settle.forceClose g).settle [] := by
  rw [nextFrame, if_neg (by simp [hw.isOpen]), hw.front_settle, h]
  rfl

theorem nextFrame_settle_frame (hw : Ready w) (h : front g isServer w b = .frame x header payload)
    (hLe : header + payload ≤ b.length) :
    nextFrame g isServer w.settle b = .item (header + payload)
      (complete g (x.keeping x.atHead x.fragmentBuffer 0) (content isServer b header payload)
        (isFin (b.getD 0 0))).settle [] := by
  rw [nextFrame, if_neg (by simp [hw.isOpen]), hw.front_settle, h]
  exact if_pos hLe

variable (g isServer pre) in
/-- **The loop goes through the frames of the bytes that are there.** -/
theorem parseNext_eq (hPost : 4 ≤ post.length) (hw : Ready w) (hHead : w.wantsHead = true)
    (hEmpty : b = [] → w.spill = []) (hFuel : b.length < fuel) :
    ∃ w', parseNext g isServer fuel ⟨pre ++ (b ++ post), pre.length, b.length⟩ w = some w' ∧
      Reached g isServer w.settle b w' := by
  induction fuel generalizing pre b w with
  | zero => omega
  | succ fuel ih =>
    cases hFront : front g isServer w b with
    | wait =>
      have hWait : front g isServer w.settle b = .wait := by
        rw [hw.front_settle, hFront]
        rfl
      obtain ⟨v, ⟨hWhole, rfl⟩ | ⟨hCut, rfl⟩, hEq⟩ := parseNext_wait pre post fuel hEmpty hFront
      · refine ⟨_, hEq, ?_⟩
        have hSettle := settle_spill b hw.isOpen
        have hHolds : Holds g isServer { v with spill := b } _ b := Holds.head
          ⟨hw.isOpen, hw.tip, hw.pong, hw.stack⟩ hHead (by rw [hSettle]; exact hWait) hWhole
        rw [hSettle] at hHolds
        exact hHolds.reached
      · refine ⟨_, hEq, w.settle, b, Decoder.drain_more ?_, Or.inr ?_⟩
        · change nextFrame g isServer w.settle b = .more
          rw [nextFrame, hWait]
          split <;> rfl
        · exact ⟨⟨hw.isOpen, hw.tip, hw.pong, hw.stack⟩, hHead, rfl, hCut, rfl, (seen_settle w).symm⟩
    | refuse =>
      obtain ⟨v, hSeen, hEq⟩ := parseNext_refuse pre post fuel hFront
      refine ⟨_, hEq, Reached.item (nextFrame_settle_refuse hw hFront) ?_⟩
      rw [forceClose_settle (v := v) ((seen_settle w).trans hSeen.symm)]
      exact (Holds.ended forceClose_ended).reached
    | frame x header payload =>
      have hx := hw.started hFront
      have hPos := header_pos hFront
      obtain ⟨hShort, rfl, hThere, rfl, v, hCheck, hStart⟩ := of_front_frame hFront
      obtain ⟨hv, -, -⟩ := checkHead_some hCheck
      obtain ⟨hxEq, -, -, -⟩ := startMessage_some hStart
      have hxHead : x.wantsHead = true := by
        rw [hxEq, hv]
        exact hHead
      rw [parseNext_header hShort hCheck hThere]
      generalize hHeader : headerLength isServer (b.getD 1 0) = header at *
      generalize hPayload : statedLength b (b.getD 1 0) = payload at *
      have hHeaderLe : shortMessageHeader isServer ≤ header :=
        hHeader ▸ short_le_headerLength isServer _
      by_cases hLe : header + payload ≤ b.length
      · obtain ⟨p, hConsume, hNext⟩ := consumeMessage_whole pre hPost hStart hx.stack_ne
          hHeaderLe hLe
        obtain ⟨hStop, hState, hSettle, hReady⟩ := hx.whole
          (content isServer b header payload)
          (by simp only [content, length_unmasked, List.length_take, List.length_drop]; omega)
        rw [hConsume, Option.bind_some]
        generalize x.handleFragment g (content isServer b header payload) 0 (x.opStack.headD 0)
          (isFin (b.getD 0 0)) = r at *
        have hItem := nextFrame_settle_frame hw hFront hLe
        rw [← hSettle] at hItem
        cases hr : r.1 with
        | true =>
          have hEnded : r.2.ended = true := hStop.symm.trans hr
          refine ⟨r.2, by simp, Reached.item hItem ?_⟩
          rw [popped_of_ended hEnded]
          exact (Holds.ended hEnded).reached
        | false =>
          obtain ⟨pre', rfl⟩ := hNext hr
          have hPopped := hReady hr
          obtain ⟨w', hEq, hReached⟩ := ih pre' (b := b.drop (header + payload))
            (w := { popped (isFin (b.getD 0 0)) r.2 with spill := [] })
            ⟨hPopped.isOpen, hPopped.tip, hPopped.pong, hPopped.stack⟩
            (by
              have hHead' : r.2.wantsHead = true := by rw [hState, hxHead]
              unfold popped
              split <;> exact hHead')
            (fun _ => rfl) (by rw [List.length_drop]; omega)
          rw [settle_spill _ hPopped.isOpen] at hReached
          refine ⟨w', by simpa using hEq, Reached.item hItem hReached⟩
      · obtain ⟨p, s, hAtHead, hWants, hSpill, hRemaining, hMask, hConsume⟩ :=
          consumeMessage_part pre hPost hStart hx hHeaderLe hThere (by omega)
        rw [hConsume, Option.bind_some]
        refine ⟨_, rfl, ?_⟩
        have hFront' : front g isServer w.settle b =
            .frame (x.keeping x.atHead x.fragmentBuffer 0) header payload := by
          rw [hw.front_settle, hFront]
          rfl
        exact (Holds.payload (s := s) hw.settle hFront' (by omega) hAtHead hWants hSpill hRemaining
          hMask).reached

/-! ### One read -/

theorem length_of_wait (h : front g isServer w b = .wait) : b.length < longMessageHeader isServer := by
  have hLong := headerLength_le_long isServer (b.getD 1 0)
  have hShort := short_le_headerLength isServer (b.getD 1 0)
  unfold front at h
  split at h
  · omega
  · split at h
    · cases h
    · simp only at h
      split at h
      · omega
      · split at h <;> cases h

variable (g isServer c pre post) in
/-- What was left of a header is put in front of the bytes that are read. -/
theorem consume_head (hHead : w.wantsHead = true) (hPre : w.spill.length ≤ pre.length) :
    ∃ pre' : List UInt8, consume g isServer ⟨pre ++ (c ++ post), pre.length, c.length⟩ w =
      parseNext g isServer ((w.spill ++ c).length + 1)
        ⟨pre' ++ ((w.spill ++ c) ++ post), pre'.length, (w.spill ++ c).length⟩ w := by
  by_cases hSpill : w.spill = []
  · refine ⟨pre, ?_⟩
    simp only [consume, hSpill, if_true, hHead, Option.bind_eq_bind, Option.bind_some, List.nil_append]
  · obtain ⟨front, gap, rfl, hGap⟩ : ∃ front gap, pre = front ++ gap ∧ gap.length = w.spill.length :=
      ⟨_, _, (List.take_append_drop (pre.length - w.spill.length) pre).symm, by
        rw [List.length_drop]; omega⟩
    rw [List.length_append] at hPre
    have hSrc : front.length + gap.length - w.spill.length = front.length := by omega
    have hFits : ¬front.length + gap.length < w.spill.length := by omega
    have hWrite := writeAt_eq front gap w.spill (c ++ post) rfl hGap
    refine ⟨front, ?_⟩
    simp only [consume, hSpill, if_false, hFits, hSrc, List.append_assoc, hWrite, if_true, hHead,
      Option.bind_eq_bind, Option.bind_some, List.length_append, Nat.add_comm c.length]

theorem atHead_eq {s s' : WebSocketState} (h : s.atHead = s'.atHead) :
    s.opStack = s'.opStack ∧ s.lastFin = s'.lastFin := by
  have hStack := congrArg WebSocketState.opStack h
  have hFin := congrArg WebSocketState.lastFin h
  exact ⟨hStack, hFin⟩

/-- The payload of a longer stream goes on where that of the shorter one stops. -/
theorem content_split (hHeader : isServer = true → 4 ≤ header) (hThere : header ≤ b.length)
    (hLess : b.length < header + payload) :
    content isServer (b ++ c) header payload = content isServer b header payload ++
      unmasked isServer ((frameKey b header).rotate (b.length - header))
        (c.take (header + payload - b.length)) := by
  have hTake : (b.drop header).take payload = b.drop header := by
    rw [List.take_of_length_le]
    rw [List.length_drop]
    omega
  have hData : ((b ++ c).drop header).take payload =
      b.drop header ++ c.take (header + payload - b.length) := by
    have hRest : payload - (b.drop header).length = header + payload - b.length := by
      rw [List.length_drop]
      omega
    rw [List.drop_append_of_le_length hThere, List.take_append, hTake, hRest]
  cases isServer with
  | false =>
    rw [content, content, hData, hTake]
    rfl
  | true =>
    have := hHeader rfl
    have hKey : frameKey (b ++ c) header = frameKey b header := take_drop_append (by omega) c
    rw [content, content, hData, hKey, hTake, unmasked_append, List.length_drop]
    intro _
    simp only [frameKey, List.length_take, List.length_drop]
    omega

/-- A read of a connection that waits for a header. -/
theorem consume_ready (hPre : consumePrePadding isServer ≤ pre.length) (hPost : 4 ≤ post.length)
    (hw : Ready w) (hHead : w.wantsHead = true) (hWait : front g isServer w.settle w.spill = .wait) :
    ∃ w', consume g isServer ⟨pre ++ (c ++ post), pre.length, c.length⟩ w = some w' ∧
      Reached g isServer w.settle (w.spill ++ c) w' := by
  have hLength := length_of_wait hWait
  unfold consumePrePadding at hPre
  obtain ⟨pre', hEq⟩ := consume_head g isServer c pre post hHead (by omega)
  rw [hEq]
  refine parseNext_eq g isServer pre' hPost hw hHead ?_ (by omega)
  intro hEmpty
  exact (List.append_eq_nil_iff.mp hEmpty).1

variable (c pre) in
/-- A read of a connection that has a part of a payload. -/
theorem consume_payload {F : WebSocket σ} {raw : List UInt8} {s : WebSocketState}
    (hPost : 4 ≤ post.length) (hF : Ready F) (hFront : front g isServer F raw = .frame x header payload)
    (hLess : raw.length < header + payload) (hHead : s.atHead = x.atHead)
    (hWants : s.wantsHead = false) (hSpill : s.spill = [])
    (hRemaining : s.remainingBytes = header + payload - raw.length)
    (hMask : isServer = true → s.mask = (frameKey raw header).rotate (raw.length - header)) :
    ∃ w', consume g isServer ⟨pre ++ (c ++ post), pre.length, c.length⟩
        (x.keeping s (x.fragmentBuffer ++ content isServer raw header payload)
          (if x.opStack.headD 0 < 3 then 0 else (content isServer raw header payload).length)) =
          some w' ∧
      Reached g isServer F (raw ++ c) w' := by
  have hx := hF.started hFront
  obtain ⟨hShort, -, hThere, -, -⟩ := of_front_frame hFront
  have hTwo := two_le_short isServer
  have hFour : isServer = true → 4 ≤ header := four_le_header hFront
  have hFront' : front g isServer F (raw ++ c) = .frame x header payload := by
    rw [front_append (by simp [hFront]), hFront]
  have hFirst : (raw ++ c).getD 0 0 = raw.getD 0 0 := List.getD_append raw c 0 0 (by omega)
  have hGot : (content isServer raw header payload).length = raw.length - header := by
    rw [content, length_unmasked, List.length_take, List.length_drop]
    omega
  have hKeyLength : isServer = true → (frameKey raw header).length = 4 := by
    intro hs
    have := hFour hs
    simp only [frameKey, List.length_take, List.length_drop]
    omega
  have hMaskLength : isServer = true → s.mask.length = 4 := by
    intro hs
    rw [hMask hs, List.length_rotate, hKeyLength hs]
  have hUnmasked : ∀ data, unmasked isServer s.mask data =
      unmasked isServer ((frameKey raw header).rotate (raw.length - header)) data := by
    intro data
    cases hs : isServer with
    | false => rfl
    | true => rw [hMask hs]
  have hSplit := content_split (c := c) hFour hThere hLess
  rw [← hUnmasked] at hSplit
  obtain ⟨hStack, hFin⟩ := atHead_eq hHead
  have hOp : s.opStack.head? = some (x.opStack.headD 0) := by rw [hStack, head_stack hx.stack_ne]
  have hLast : s.lastFin = isFin (raw.getD 0 0) := hFin.trans hx.lastFin
  set w := x.keeping s (x.fragmentBuffer ++ content isServer raw header payload)
    (if x.opStack.headD 0 < 3 then 0 else (content isServer raw header payload).length) with hw
  have hConsume : consume g isServer ⟨pre ++ (c ++ post), pre.length, c.length⟩ w =
      (consumeContinuation g isServer ⟨pre ++ (c ++ post), pre.length, c.length⟩ w).bind fun r =>
        if r.1 then parseNext g isServer (r.2.1.length + 1) r.2.1 r.2.2 else some r.2.2 := by
    have hSpill' : w.spill = [] := hSpill
    have hWants' : w.wantsHead = false := hWants
    simp only [consume, hSpill', if_true, hWants', Bool.false_eq_true, if_false, Option.bind_eq_bind,
      Option.bind_some]
  rw [hConsume]
  by_cases hLe : s.remainingBytes ≤ c.length
  · obtain ⟨hStop, hState, hSettle, hReady⟩ := hx.rest (s := s)
      (content isServer raw header payload)
      (unmasked isServer s.mask (c.take s.remainingBytes)) hHead (by
        rw [List.length_append, hGot, length_unmasked, List.length_take]
        omega)
    rw [← hw] at hStop hState hSettle hReady
    obtain ⟨p, hWhole, hNext⟩ := consumeContinuation_whole (g := g) (w := w) (c := c) pre
      post hOp hLast hMaskLength hLe (fun _ => by
        have hFin' := congrArg WebSocketState.lastFin hState
        exact hFin'.trans hLast)
    rw [hWhole, Option.bind_some]
    have hItem : nextFrame g isServer F (raw ++ c) = .item (header + payload)
        (complete g x (content isServer (raw ++ c) header payload) (isFin (raw.getD 0 0))).settle [] := by
      rw [nextFrame, if_neg (by simp [hF.isOpen]), hFront', hFirst]
      exact if_pos (by rw [List.length_append]; omega)
    rw [hSplit, ← hRemaining, ← hSettle] at hItem
    have hRest : (raw ++ c).drop (header + payload) = c.drop s.remainingBytes := by
      rw [List.drop_append, List.drop_eq_nil_of_le (by omega), List.nil_append, hRemaining]
    rw [show w.remainingBytes = s.remainingBytes from rfl, show w.mask = s.mask from rfl] at *
    generalize w.handleFragment g (unmasked isServer s.mask (c.take s.remainingBytes)) 0
      (x.opStack.headD 0) (isFin (raw.getD 0 0)) = r at *
    cases hr : r.1 with
    | true =>
      have hEnded : r.2.ended = true := hStop.symm.trans hr
      refine ⟨r.2, by simp, Reached.item hItem ?_⟩
      rw [popped_of_ended hEnded]
      exact (Holds.ended hEnded).reached
    | false =>
      obtain ⟨pre', rfl⟩ := hNext hr
      have hPopped := hReady hr
      have hSpill' : (popped (isFin (raw.getD 0 0)) r.2).spill = [] := by
        have hSpill' : r.2.spill = [] := by rw [hState, hSpill]
        unfold popped
        split <;> exact hSpill'
      obtain ⟨w', hEq, hReached⟩ := parseNext_eq g isServer pre'
        (b := c.drop s.remainingBytes) (w := { popped (isFin (raw.getD 0 0)) r.2 with wantsHead := true }) hPost
        ⟨hPopped.isOpen, hPopped.tip, hPopped.pong, hPopped.stack⟩ rfl (fun _ => hSpill') (Nat.lt_succ_self _)
      have hSame : WebSocket.settle { popped (isFin (raw.getD 0 0)) r.2 with wantsHead := true } =
          (popped (isFin (raw.getD 0 0)) r.2).settle := by
        rw [settle_of_open hPopped.isOpen]
        exact settle_of_open hPopped.isOpen
      rw [hSame] at hReached
      refine ⟨w', by simpa using hEq, Reached.item hItem ?_⟩
      rw [hRest]
      exact hReached
  · obtain ⟨p, s', hHead', hWants', hSpill', hRemaining', hMask', hPart⟩ := consumeContinuation_part
      (g := g) (w := w) (c := c) pre hPost hOp hMaskLength (not_le.mp hLe)
    rw [hPart, Option.bind_some]
    refine ⟨_, rfl, ?_⟩
    rw [List.take_of_length_le (by omega)] at hSplit
    have hTip : (if x.opStack.headD 0 < 3 then w.controlTipLength
        else (w.controlTipLength + c.length) % 2 ^ 8) =
        if x.opStack.headD 0 < 3 then 0 else (content isServer (raw ++ c) header payload).length := by
      split
      · rename_i hOp
        exact if_pos hOp
      · rename_i hOp
        have := (hx.control hOp).2
        rw [show w.controlTipLength = (content isServer raw header payload).length from if_neg hOp,
          hSplit, List.length_append, length_unmasked, hGot]
        exact Nat.mod_eq_of_lt (by omega)
    have hKey : isServer = true → frameKey (raw ++ c) header = frameKey raw header := by
      intro hs
      have := hFour hs
      exact take_drop_append (by omega) c
    have hNow := Holds.payload (s := s') hF hFront' (by rw [List.length_append]; omega)
      (hHead'.trans hHead) (hWants'.trans hWants) (hSpill'.trans hSpill)
      (by
        rw [hRemaining', List.length_append]
        change s.remainingBytes - c.length = _
        omega)
      (by
        intro hs
        rw [hMask' hs, hKey hs, List.length_append, Nat.sub_add_comm hThere, ← List.rotate_rotate]
        exact congrArg (fun m => m.rotate c.length) (hMask hs))
    rw [hTip]
    rw [hSplit] at hNow ⊢
    rw [← List.append_assoc] at hNow
    exact hNow.reached

end DemoCode.Uws
