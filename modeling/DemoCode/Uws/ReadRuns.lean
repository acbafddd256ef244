import DemoCode.Uws.Reads

/-! Runs of reads.  The receive buffer has room in front of the bytes that are read, for what was left of
the last header, and behind them, for the loops that go four bytes at a time. -/

namespace DemoCode.Uws

open WebSocket

variable {σ : Type} {g : Group σ} {isServer : Bool} {w F : WebSocket σ} {b raw : List UInt8}

/-- The receive buffer after a read. -/
structure Read (isServer : Bool) where
  pre : List UInt8
  data : List UInt8
  post : List UInt8
  prePadding : consumePrePadding isServer ≤ pre.length
  postPadding : consumePostPadding ≤ post.length

/-- A read into a buffer that is all zero. -/
def fresh (isServer : Bool) (data : List UInt8) : Read isServer where
  pre := List.replicate (consumePrePadding isServer) 0
  data := data
  post := List.replicate consumePostPadding 0
  prePadding := (List.length_replicate ..).ge
  postPadding := (List.length_replicate ..).ge

/-- A group whose handlers keep what they are called with, and end nothing. -/
def keeper : Group (List Event) where
  maxPayload := 16384
  inflate := some
  handler kept event := (kept ++ [event], .none)
  disconnectionHandler kept _ _ := kept

/-- The bytes of the stream. -/
def bytes (reads : List (Read isServer)) : List UInt8 := reads.flatMap Read.data

/-- A connection that is handed over after the upgrade. -/
def connected (user : σ) (perMessageDeflate : Bool) : WebSocket σ :=
  { user := user, compressionStatus := if perMessageDeflate then .enabled else .disabled }

/-- `onData`, read after read. -/
def receive (g : Group σ) (reads : List (Read isServer)) (w : WebSocket σ) : Option (WebSocket σ) :=
  reads.foldlM (fun w r => onData g isServer r.pre r.data r.post w) w

/-- What the frames of a stream do, and what is left of it. -/
def decode (g : Group σ) (isServer : Bool) (w : WebSocket σ) (b : List UInt8) :
    WebSocket σ × List UInt8 :=
  (((frames g isServer).drain w b).2).getD (w, [])

/-- The stream ends in the header of a compressed frame, behind its first 6 (on a client 2) bytes. -/
def CutAt (g : Group σ) (isServer : Bool) (w : WebSocket σ) (b : List UInt8) : Prop :=
  (decode g isServer w b).1.ended = false ∧ CutLength isServer (decode g isServer w b).2

/-- No read but the last ends there. -/
def LengthsWhole (g : Group σ) (w : WebSocket σ) (reads : List (Read isServer)) : Prop :=
  ∀ front back, reads = front ++ back → back ≠ [] → ¬CutAt g isServer w (bytes front)

/-! ### One read -/

theorem Holds.onData (h : Holds g isServer w F raw) (r : Read isServer) :
    ∃ w', onData g isServer r.pre r.data r.post w = some w' ∧
      Reached g isServer F (raw ++ r.data) w' := by
  have hPost : 4 ≤ r.post.length := r.postPadding
  unfold Uws.onData
  rw [List.append_assoc]
  cases h with
  | ended hEnded =>
    have hSettle : WebSocket.settle { w with hasOutstandingPong := false } = w.settle := by
      rw [settle_of_ended hEnded]
      exact settle_of_ended hEnded
    refine ⟨_, if_pos hEnded, ?_⟩
    rw [← hSettle]
    exact (Holds.ended (w := { w with hasOutstandingPong := false }) hEnded).reached
  | head ready wantsHead wait whole =>
    have hSame : ({ w with hasOutstandingPong := false } : WebSocket σ) = w := by rw [← ready.pong]
    rw [hSame, if_neg (by simp [ready.isOpen])]
    exact consume_ready r.prePadding hPost ready wantsHead wait
  | @payload _ x _ _ _ _ ready frame less atHead wantsHead spill remaining mask =>
    have hx := ready.started frame
    obtain ⟨w', hConsume, hReached⟩ := consume_payload r.data r.pre hPost ready frame less
      atHead wantsHead spill remaining mask
    have hPong : x.hasOutstandingPong = false := hx.pong
    refine ⟨w', (if_neg (Bool.eq_false_iff.mp hx.isOpen)).trans ?_, hReached⟩
    rw [← hConsume]
    simp only [keeping, hPong]

/-- After a cut the next read is refused. -/
theorem Cut.onData (h : Cut isServer w F raw) (r : Read isServer) :
    onData g isServer r.pre r.data r.post w = some (w.forceClose g) := by
  obtain ⟨hReady, hHead, rfl, ⟨hShort, hLength, hRsv⟩, hStatus, -⟩ := h
  have hTwo := two_le_short isServer
  have hLong := headerLength_le_long isServer (w.spill.getD 1 0)
  have hPre := r.prePadding
  unfold consumePrePadding at hPre
  have hSame : ({ w with hasOutstandingPong := false } : WebSocket σ) = w := by rw [← hReady.pong]
  unfold Uws.onData
  rw [hSame, if_neg (by simp [hReady.isOpen]), List.append_assoc]
  obtain ⟨pre', hEq⟩ := consume_head g isServer r.data r.pre r.post hHead (by omega)
  have hBoth : (w.spill ++ r.data).length = w.spill.length + r.data.length := List.length_append
  have hTest : ¬(w.spill ++ r.data).length < shortMessageHeader isServer := by omega
  have hCheck : checkHead ((w.spill ++ r.data).getD 0 0) ((w.spill ++ r.data).getD 1 0) w = none := by
    rw [List.getD_append _ _ _ 0 (by omega)]
    exact checkHead_again hRsv hStatus
  rw [hEq, parseNext]
  simp only [hTest, if_false, getElem_front (b := w.spill ++ r.data) (by omega),
    getElem_second (b := w.spill ++ r.data) (by omega), Option.bind_eq_bind, Option.bind_some, hCheck]

/-! ### Runs -/

/-- What every read of a run leaves. -/
def Sound (g : Group σ) (isServer : Bool) (w : WebSocket σ) : Prop :=
  ∃ F raw, Holds g isServer w F raw ∨ Cut isServer w F raw

theorem Sound.onData (h : Sound g isServer w) (r : Read isServer) :
    ∃ w', onData g isServer r.pre r.data r.post w = some w' ∧ Sound g isServer w' := by
  obtain ⟨F, raw, h | h⟩ := h
  · obtain ⟨w', hEq, F', raw', -, hHolds⟩ := h.onData r
    exact ⟨w', hEq, F', raw', hHolds⟩
  · exact ⟨_, h.onData r, _, raw, Or.inl (Holds.ended forceClose_ended)⟩

theorem Sound.receive (h : Sound g isServer w) (reads : List (Read isServer)) :
    ∃ w', receive g reads w = some w' ∧ Sound g isServer w' := by
  induction reads generalizing w with
  | nil => exact ⟨w, rfl, h⟩
  | cons r reads ih =>
    obtain ⟨v, hRead, hv⟩ := h.onData r
    obtain ⟨w', hRest, hw'⟩ := ih hv
    refine ⟨w', ?_, hw'⟩
    rw [Uws.receive, List.foldlM_cons, hRead]
    exact hRest

theorem ended_of_seen {v : WebSocket σ} (h : w.seen = v.seen) : w.ended = v.ended := by
  simp only [WebSocket.seen, Prod.mk.injEq] at h
  simp only [ended, h.2.2.1, h.2.2.2]

/-- Reads that leave no header cut so leave what the decoder makes of their bytes. -/
theorem Holds.receive {reads : List (Read isServer)} (h : Holds g isServer w F raw)
    (hWhole : ∀ front back, reads = front ++ back → back ≠ [] → ∀ F' raw',
      (frames g isServer).drain F (raw ++ bytes front) = ([], some (F', raw')) →
        ¬(F'.ended = false ∧ CutLength isServer raw')) :
    ∃ w', receive g reads w = some w' ∧ Reached g isServer F (raw ++ bytes reads) w' := by
  induction reads generalizing w F raw with
  | nil =>
    refine ⟨w, rfl, ?_⟩
    rw [bytes, List.flatMap_nil, List.append_nil]
    exact h.reached
  | cons r reads ih =>
    obtain ⟨v, hRead, F', raw', hDrain, hHolds⟩ := h.onData r
    have hGoOn : ∀ front : List (Read isServer), (frames g isServer).drain F
        (raw ++ bytes (r :: front)) = (frames g isServer).drain F' (raw' ++ bytes front) := by
      intro front
      rw [bytes, List.flatMap_cons, ← List.append_assoc, Decoder.drain_append, hDrain]
      rfl
    have hReceive : receive g (r :: reads) w = receive g reads v := by
      rw [Uws.receive, List.foldlM_cons, hRead]
      rfl
    rw [hReceive]
    rcases hHolds with hHolds | hCut
    · obtain ⟨w', hRest, F'', raw'', hDrain', hHolds'⟩ := ih hHolds (by
        intro front back hReads hBack G s hG
        refine hWhole (r :: front) back (by rw [hReads]; rfl) hBack G s ?_
        rw [hGoOn, hG])
      exact ⟨w', hRest, F'', raw'', by rw [hGoOn, hDrain'], hHolds'⟩
    · cases reads with
      | nil =>
        refine ⟨v, rfl, F', raw', ?_, Or.inr hCut⟩
        simpa [bytes] using hDrain
      | cons r' reads =>
        have hOpen : F'.ended = false := (ended_of_seen hCut.seen).symm.trans hCut.ready.isOpen
        refine absurd ⟨hOpen, hCut.length⟩ (hWhole [r] (r' :: reads) rfl (by simp) F' raw' ?_)
        simpa [bytes] using hDrain

variable {user : σ} {perMessageDeflate : Bool} {reads : List (Read isServer)}

/-- A connection that is new holds nothing. -/
theorem Holds.connected : Holds g isServer (connected user perMessageDeflate)
    (connected user perMessageDeflate) [] := by
  have hShort : ([] : List UInt8).length < shortMessageHeader isServer := by cases isServer <;> decide
  have hWait : front g isServer (Uws.connected user perMessageDeflate) [] = .wait := by rw [front, if_pos hShort]
  exact Holds.head (w := Uws.connected user perMessageDeflate) ⟨rfl, rfl, rfl, by simp [Uws.connected]⟩ rfl hWait
    fun h => absurd h.1 (not_le.mpr hShort)

theorem decode_eq {F' : WebSocket σ} (h : (frames g isServer).drain F b = ([], some (F', raw))) :
    decode g isServer F b = (F', raw) := by
  rw [decode, h]
  rfl

theorem disabled_nextFrame (hStatus : F.compressionStatus = .disabled) {F' : WebSocket σ} {n : ℕ}
    {o : List Empty} (h : nextFrame g isServer F b = .item n F' o) :
    F'.compressionStatus = .disabled := by
  obtain ⟨-, ⟨-, -, rfl⟩ | ⟨x, header, payload, hFront, -, -, rfl⟩⟩ := nextFrame_item h
  · rw [settle_of_ended forceClose_ended]
  · obtain ⟨-, -, -, -, v, hCheck, hStart⟩ := of_front_frame hFront
    obtain ⟨-, ⟨-, hEnabled, -⟩ | ⟨-, rfl⟩, -⟩ := checkHead_some hCheck
    · rw [hStatus] at hEnabled
      cases hEnabled
    · obtain ⟨hx, -, -, -⟩ := startMessage_some hStart
      have hx' : x.compressionStatus = .disabled := by
        rw [hx]
        exact hStatus
      unfold WebSocket.settle
      split
      · rfl
      · unfold complete popped
        split <;> exact handleFragment_disabled hx'

theorem disabled_drain (hStatus : F.compressionStatus = .disabled) {F' : WebSocket σ}
    {o : List Empty} (hDrain : (frames g isServer).drain F b = (o, some (F', raw))) :
    F'.compressionStatus = .disabled := by
  induction F, b using Decoder.drain_induct (D := frames g isServer) generalizing o with
  | more F b hMore =>
    rw [Decoder.drain_more hMore] at hDrain
    cases hDrain
    exact hStatus
  | fail F b hFail =>
    rw [Decoder.drain_fail hFail] at hDrain
    cases hDrain
  | item F b n G o' hItem ih =>
    rw [Decoder.drain_item hItem] at hDrain
    simp only [Prod.mk.injEq] at hDrain
    exact ih (disabled_nextFrame hStatus hItem) (Prod.ext rfl hDrain.2)

/-- A stream without compression is never cut. -/
theorem not_cut_of_disabled (hStatus : F.compressionStatus = .disabled) {F' : WebSocket σ}
    (hDrain : (frames g isServer).drain F b = ([], some (F', raw))) :
    ¬(F'.ended = false ∧ CutLength isServer raw) := by
  rintro ⟨hOpen, hShort, hLength, hRsv⟩
  have hStatus' := disabled_drain hStatus hDrain
  have hMore : nextFrame g isServer F' raw = .more := Decoder.next_of_drain hDrain
  have hCheck : checkHead (raw.getD 0 0) (raw.getD 1 0) F' = none := by
    cases h : checkHead (raw.getD 0 0) (raw.getD 1 0) F' with
    | none => rfl
    | some v =>
      obtain ⟨-, ⟨-, hEnabled, -⟩ | ⟨hPlain, -⟩, -⟩ := checkHead_some h
      · rw [hStatus'] at hEnabled
        cases hEnabled
      · exact absurd (hPlain.symm.trans hRsv) Bool.false_ne_true
  rw [nextFrame, if_neg (by simp [hOpen]), front, if_neg (not_lt.mpr hShort), hCheck] at hMore
  cases hMore

theorem Holds.not_cut (h : Holds g isServer w F raw) (hOpen : F.ended = false) :
    ¬CutLength isServer raw := by
  cases h with
  | ended hEnded =>
    rw [ended_settle, hEnded] at hOpen
    cases hOpen
  | head _ _ _ whole => exact whole
  | payload _ frame _ _ _ _ _ _ =>
    obtain ⟨-, rfl, hThere, -, -⟩ := of_front_frame frame
    exact fun hCut => absurd hCut.2.1 (not_lt.mpr hThere)

/-! ### Main results -/

/-- **No read goes outside of the receive buffer**, however the stream is cut and whatever is in it. -/
theorem receive_isSome (g : Group σ) (user : σ) (perMessageDeflate : Bool)
    (reads : List (Read isServer)) : (receive g reads (connected user perMessageDeflate)).isSome := by
  have hNew : Sound g isServer (connected user perMessageDeflate) := ⟨_, _, Or.inl Holds.connected⟩
  obtain ⟨w, hEq, -⟩ := hNew.receive reads
  rw [hEq]
  rfl

theorem connected_receive (hWhole : perMessageDeflate = false ∨
      LengthsWhole g (connected user perMessageDeflate) reads) :
    ∃ w, receive g reads (connected user perMessageDeflate) = some w ∧
      Reached g isServer (connected user perMessageDeflate) (bytes reads) w := by
  refine Holds.connected.receive fun front back hReads hBack F' raw' hDrain => ?_
  rcases hWhole with rfl | hWhole
  · exact not_cut_of_disabled rfl hDrain
  · have hFront := hWhole front back hReads hBack
    rw [List.nil_append] at hDrain
    rw [CutAt, decode_eq hDrain] at hFront
    exact hFront

/-- **The cuts of the stream do not matter**: the connection has done what the frames of the whole
stream do. -/
theorem receive_decode (hWhole : perMessageDeflate = false ∨
      LengthsWhole g (connected user perMessageDeflate) reads) :
    ∃ w, receive g reads (connected user perMessageDeflate) = some w ∧
      w.seen = (decode g isServer (connected user perMessageDeflate) (bytes reads)).1.seen := by
  obtain ⟨w, hEq, F', raw, hDrain, hHolds⟩ := connected_receive hWhole
  refine ⟨w, hEq, ?_⟩
  rw [decode_eq hDrain]
  exact hHolds.elim Holds.seen Cut.seen

theorem receive_decode_hi : ∃ w,
    receive keeper [fresh true [0x81, 0x82, 1, 2, 3], fresh true [4, 0x49, 0x6b]]
        (connected [] false) = some w ∧
      w.seen = (decode keeper true (connected [] false)
        (bytes [fresh true [0x81, 0x82, 1, 2, 3], fresh true [4, 0x49, 0x6b]])).1.seen :=
  receive_decode (Or.inl rfl)

/-- **A compressed frame whose header is cut** behind its first 6 (on a client 2) bytes is refused by the
next read, whatever it brings. -/
theorem cut_refused (hWhole : LengthsWhole g (connected user perMessageDeflate) reads)
    (hCut : CutAt g isServer (connected user perMessageDeflate) (bytes reads)) (r : Read isServer) :
    ∃ w, receive g (reads ++ [r]) (connected user perMessageDeflate) = some w ∧ w.closed = true ∧
      w.out = (decode g isServer (connected user perMessageDeflate) (bytes reads)).1.out ++
        [.disconnection 1006 []] := by
  obtain ⟨v, hEq, F', raw, hDrain, hHolds⟩ := connected_receive (Or.inr hWhole)
  rw [CutAt, decode_eq hDrain] at hCut
  rw [decode_eq hDrain]
  rcases hHolds with hHolds | hNow
  · exact absurd hCut.2 (hHolds.not_cut hCut.1)
  · refine ⟨v.forceClose g, ?_, rfl, ?_⟩
    · have hLast := hNow.onData (g := g) r
      rw [receive] at hEq
      simp only [receive, List.foldlM_append, hEq, List.foldlM_cons, List.foldlM_nil, hLast,
        Option.bind_eq_bind, Option.bind_some, Option.pure_def]
    · have hOut : v.out = F'.out := congrArg (fun t => t.2.1) hNow.seen
      have hShut : v.shuttingDown = false := (Bool.or_eq_false_iff.mp hNow.ready.isOpen).2
      simp [forceClose, hShut, disconnect, hOut]

theorem cut_refused_six : ∃ w,
    receive keeper ([fresh true [0xc1, 0xfe, 0, 126, 1, 2]] ++ [fresh true [3]])
        (connected [] true) = some w ∧ w.closed = true ∧
      w.out = (decode keeper true (connected [] true)
        (bytes [fresh true [0xc1, 0xfe, 0, 126, 1, 2]])).1.out ++ [.disconnection 1006 []] := by
  have hDrain : (frames keeper true).drain (connected [] true)
      (bytes [fresh true [0xc1, 0xfe, 0, 126, 1, 2]]) =
      ([], some (connected [] true, [0xc1, 0xfe, 0, 126, 1, 2])) := Decoder.drain_more rfl
  have hEmpty : (frames keeper true).drain (connected [] true)
      (bytes ([] : List (Read true))) = ([], some (connected [] true, [])) := Decoder.drain_more rfl
  refine cut_refused ?_ ?_ (fresh true [3])
  · intro front back hReads hBack
    cases front with
    | nil =>
      rw [CutAt, decode_eq hEmpty]
      rintro ⟨-, hShort, -⟩
      exact absurd hShort (by decide)
    | cons r front =>
      obtain ⟨-, hRest⟩ := List.cons.inj hReads
      exact absurd (List.append_eq_nil_iff.mp hRest.symm).2 hBack
  · rw [CutAt, decode_eq hDrain]
    exact ⟨rfl, by decide, by decide, by decide⟩

end DemoCode.Uws
