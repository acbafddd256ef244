import DemoCode.FeedProxy.Instruments
import DemoCode.FeedProxy.Replies

/-! The range of the internal ids.  The counter starts again when it overflows, but the query of
quotes that goes before a subscription takes an id after the check. -/

namespace DemoCode.FeedProxy

/-! ### Responses leave the pending query of quotes alone -/

section

variable {u u' : ConvertUtils}

theorem addInsInfo_symbol {info : Json} (h : addInsInfo u info = some u') :
    u'.queryQuotesSymbol = u.queryQuotesSymbol := by
  obtain ⟨market, code, tradecode, productCode, oneInfo, -, rfl⟩ := addInsInfo_tables h
  rfl

theorem internalRes_symbol {reqType : Int} {resJson : Json}
    (h : internalRes u reqType resJson = some (some u')) :
    u'.queryQuotesSymbol = u.queryQuotesSymbol := by
  rw [internalRes] at h
  split at h
  · simp only [Option.bind_eq_bind, Option.bind_eq_some_iff, Option.some.injEq] at h
    obtain ⟨-, -, -, -, symbols, -, u₁, hAdd, rfl⟩ := h
    exact foldlM_keeps (I := fun v => v.queryQuotesSymbol = u.queryQuotesSymbol)
      (fun hSame hStep => (addInsInfo_symbol hStep).trans hSame) rfl hAdd
  split at h
  · simp only [Option.bind_eq_bind, Option.bind_eq_some_iff, Option.some.injEq] at h
    obtain ⟨-, -, -, -, markets, -, x, hAdd, rfl⟩ := h
    refine foldlM_keeps (I := fun y => y.1.queryQuotesSymbol = u.queryQuotesSymbol) ?_ rfl hAdd
    intro y market y' hSame hStep
    obtain ⟨times, dates, hTables⟩ := addMarket_tables hStep
    rw [hTables]
    exact hSame
  split at h
  · cases h
    rfl
  · cases h

theorem jsonRes2ProtoRes_symbol {env : Env} {resJson : Json} {reqId : Int}
    {msgs : List (MsgCarrier Reply)}
    (h : jsonRes2ProtoRes env u resJson = some (some (reqId, msgs, u'))) :
    u'.queryQuotesSymbol = u.queryQuotesSymbol := by
  simp only [jsonRes2ProtoRes, Option.bind_eq_bind, Option.bind_eq_some_iff] at h
  obtain ⟨id, -, h⟩ := h
  split at h
  · cases h
  rw [Option.bind_eq_some_iff] at h
  obtain ⟨reqType, -, h⟩ := h
  split at h
  · obtain ⟨inner, hInner, h⟩ := Option.bind_eq_some_iff.mp h
    obtain ⟨u₁, rfl, hEq⟩ := Option.map_eq_some_iff.mp (Option.some.inj h)
    cases hEq
    exact internalRes_symbol hInner
  · obtain ⟨outer, hOuter, h⟩ := Option.bind_eq_some_iff.mp h
    obtain ⟨x, rfl, hEq⟩ := Option.map_eq_some_iff.mp (Option.some.inj h)
    cases hEq
    obtain ⟨map, hTables⟩ := externalRes_tables hOuter
    rw [hTables]

end

/-! ### The ids of a request -/

/-- A subscription to the quotes of an instrument. -/
def ReqData.AsksQuotes : ReqData → Prop
  | .sub data => ∃ e ∈ data, e.type = 1
  | _ => False

/-- A subscription to quotes comes when the counter has one value left before it overflows. -/
def QueryOverflows (env : Env) (s : ConvertService) : Event → Prop
  | .request _ reqStr => s.reqId = 2 ^ 31 - 2 ∧ ∃ ret reqJson,
      protoReq2JsonReq env s.utils (nextReqId s.reqId) reqStr = some (some (ret, reqJson)) ∧
        0 ≤ ret ∧ reqJson.data.AsksQuotes
  | _ => False

theorem type_text_iff (n : Int) : toString n = "1" ↔ n = 1 := by
  constructor
  · intro h
    exact toString_int_injective (h.trans (show "1" = toString (1 : Int) from rfl))
  · rintro rfl
    rfl

/-- After the elements of a subscription there are quotes to query exactly when there were before,
or one of them is of that type. -/
theorem realArray_sub_symbol (conn : CContext) (s : ConvertService) (es : List SubEntry) :
    (realArray (subOne conn) s es).1.utils.queryQuotesSymbol = [] ↔
      s.utils.queryQuotesSymbol = [] ∧ ∀ e ∈ es, e.type ≠ 1 := by
  induction es generalizing s with
  | nil => exact ⟨fun h => ⟨h, fun _ hIn => absurd hIn List.not_mem_nil⟩, And.left⟩
  | cons e es ih =>
    change (realArray (subOne conn) (subOne conn s e).1 es).1.utils.queryQuotesSymbol = [] ↔ _
    rw [ih, List.forall_mem_cons]
    change (if toString e.type = "1" then s.utils.queryQuotesSymbol ++ [(e.market, e.code)]
      else s.utils.queryQuotesSymbol) = [] ∧ _ ↔ _
    by_cases hQuotes : e.type = 1
    · rw [if_pos ((type_text_iff e.type).mpr hQuotes)]
      simp [hQuotes]
    · rw [if_neg fun h => hQuotes ((type_text_iff e.type).mp h)]
      simp [hQuotes]

/-- A subscription issues its own id, and the one after it when there are quotes to query. -/
theorem forwardSub_issued (conn : CContext) (ret : UInt64) (reqJson : ReqJson) (s : ConvertService) :
    issuedBy (forwardSub conn ret reqJson s).2 =
      if s.utils.queryQuotesSymbol = [] then [reqJson.reqid]
      else [wrap32 (s.reqId + 1), reqJson.reqid] := by
  unfold forwardSub queryQuotes
  split <;> simp [forward, issuedBy, Out.issued]

theorem forwardSub_symbol (conn : CContext) (ret : UInt64) (reqJson : ReqJson) (s : ConvertService) :
    (forwardSub conn ret reqJson s).1.utils.queryQuotesSymbol = [] := by
  unfold forwardSub queryQuotes
  split
  · rename_i hNone
    simpa [forward] using hNone
  · simp [forward]

/-- What a request issues when no quotes are left to query: its own id at most, and the one after it
for a subscription to quotes. -/
theorem handleReq_issued (conn : CContext) (ret : UInt64) {reqJson : ReqJson} {s : ConvertService}
    (hId : reqJson.reqid = s.reqId) (hNone : s.utils.queryQuotesSymbol = []) :
    (handleReq s conn ret reqJson).1.utils.queryQuotesSymbol = [] ∧
      (∀ i ∈ issuedBy (handleReq s conn ret reqJson).2,
        i = s.reqId ∨ (i = wrap32 (s.reqId + 1) ∧ reqJson.data.AsksQuotes)) ∧
      (reqJson.data.AsksQuotes →
        wrap32 (s.reqId + 1) ∈ issuedBy (handleReq s conn ret reqJson).2) := by
  have hOne (P : Prop) : ∀ i ∈ [reqJson.reqid], i = s.reqId ∨ (i = wrap32 (s.reqId + 1) ∧ P) :=
    fun i hIn => .inl ((List.mem_singleton.mp hIn).trans hId)
  have hNil (P : Prop) : ∀ i ∈ ([] : List Int), i = s.reqId ∨ (i = wrap32 (s.reqId + 1) ∧ P) :=
    fun i hIn => absurd hIn List.not_mem_nil
  unfold handleReq
  cases hData : reqJson.data with
  | heartbeat => exact ⟨hNone, hNil _, False.elim⟩
  | tradeDate => exact ⟨hNone, hNil _, False.elim⟩
  | allInsInfo => exact ⟨hNone, hNil _, False.elim⟩
  | kLine => exact ⟨hNone, hOne _, False.elim⟩
  | broker => exact ⟨hNone, hOne _, False.elim⟩
  | unsub data =>
    have hReal : (realArray (unsubOne conn) s data).1.utils.queryQuotesSymbol = [] :=
      (realArray_keeps (f := fun s => s.utils.queryQuotesSymbol)
        (unsubOne_keeps (f := fun s => s.utils.queryQuotesSymbol) (fun _ _ => rfl) conn) s
        data).trans hNone
    refine ⟨forwardSub_symbol .., ?_, False.elim⟩
    dsimp only
    rw [forwardSub_issued, if_pos hReal]
    exact hOne _
  | sub data =>
    have hReal := realArray_sub_symbol conn s data
    have hCounter : (realArray (subOne conn) s data).1.reqId = s.reqId :=
      realArray_keeps (f := fun s => s.reqId) (fun _ _ => rfl) s data
    refine ⟨forwardSub_symbol .., ?_⟩
    dsimp only
    rw [forwardSub_issued, hCounter, hId]
    by_cases hAsks : ∃ e ∈ data, e.type = 1
    · obtain ⟨e, hIn, hQuotes⟩ := hAsks
      rw [if_neg fun h => (hReal.mp h).2 e hIn hQuotes]
      refine ⟨?_, fun _ => List.mem_cons_self⟩
      intro i hIssued
      rcases List.mem_cons.mp hIssued with rfl | hOwn
      · exact .inr ⟨rfl, e, hIn, hQuotes⟩
      · exact .inl (List.mem_singleton.mp hOwn)
    · rw [if_pos (hReal.mpr ⟨hNone, fun e hIn hQuotes => hAsks ⟨e, hIn, hQuotes⟩⟩)]
      exact ⟨fun i hIssued => .inl (List.mem_singleton.mp hIssued), fun h => absurd h hAsks⟩

/-! ### The ids of a run -/

/-- The counter in its range, and no quotes left to query. -/
def ConvertService.Counting (s : ConvertService) : Prop :=
  s.CounterOk ∧ s.utils.queryQuotesSymbol = []

/-- The extra id is out of range exactly when the counter had one value left. -/
theorem extraId_range {s : ConvertService} (hOk : s.CounterOk) :
    reqIdStart ≤ wrap32 (nextReqId s.reqId + 1) ↔ s.reqId ≠ 2 ^ 31 - 2 := by
  obtain ⟨hLow, hHigh⟩ := nextReqId_range hOk
  have hLast : nextReqId s.reqId = 2 ^ 31 - 1 ↔ s.reqId = 2 ^ 31 - 2 := by
    constructor
    · intro hMax
      unfold nextReqId at hMax
      split at hMax
      · exact absurd hMax (by decide)
      · rcases hOk with ⟨hStart, hEnd⟩ | hMin
        · by_cases hTop : s.reqId + 1 < 2 ^ 31
          · rw [wrap32_of_range (by unfold reqIdStart at hStart; omega) hTop] at hMax
            omega
          · rw [show s.reqId + 1 = 2 ^ 31 by omega] at hMax
            exact absurd hMax (by decide)
        · rw [hMin] at hMax
          exact absurd hMax (by decide)
    · intro hEq
      rw [hEq]
      decide
  rw [Ne, ← hLast]
  by_cases hMax : nextReqId s.reqId = 2 ^ 31 - 1
  · rw [hMax]
    decide
  · rw [wrap32_of_range (by unfold reqIdStart at hLow; omega) (by omega)]
    exact ⟨fun _ => hMax, fun _ => by omega⟩

/-- **Request step**: the ids are in range exactly when the query of quotes does not overflow. -/
theorem step_request_range {env : Env} {s s' : ConvertService} {conn : CContext} {reqStr : List UInt8}
    {out : List Out} (hCounting : s.Counting) (h : step env s (.request conn reqStr) = some (s', out)) :
    s'.utils.queryQuotesSymbol = [] ∧
      ((∀ i ∈ issuedBy out, reqIdStart ≤ i) ↔ ¬QueryOverflows env s (.request conn reqStr)) := by
  obtain ⟨hOk, hNone⟩ := hCounting
  obtain ⟨⟨s₁, out₁, ret⟩, hReq, hEq⟩ := Option.map_eq_some_iff.mp h
  cases hEq
  rcases processReq_cases hReq with ⟨rfl, rfl, hActs⟩ | ⟨id, reqJson, hConverted, hPos, hHandle, -⟩
  · refine ⟨hNone, fun _ hOverflow => ?_, fun _ i hIn => absurd hIn List.not_mem_nil⟩
    -- a refused request has no elements
    obtain ⟨-, id, reqJson, hConverted, hPos, hAsks⟩ := hOverflow
    simp only [stepActs, hConverted, if_neg (Int.not_lt.mpr hPos)] at hActs
    cases hData : reqJson.data with
    | sub data =>
      rw [hData] at hAsks hActs
      obtain ⟨e, hIn, -⟩ := hAsks
      rw [List.map_eq_nil_iff.mp hActs] at hIn
      exact absurd hIn List.not_mem_nil
    | _ =>
      rw [hData] at hAsks
      exact hAsks
  · obtain ⟨-, -, -, hId⟩ := protoReq2JsonReq_cases hConverted
    obtain ⟨hLeft, hIssued, hExtra⟩ := handleReq_issued conn (UInt64.ofInt id)
      (s := { s with reqId := nextReqId s.reqId }) hId hNone
    rw [hHandle] at hLeft hIssued hExtra
    refine ⟨hLeft, ?_, ?_⟩
    · rintro hRange ⟨hLast, id', reqJson', hConverted', -, hAsks⟩
      rw [hConverted] at hConverted'
      cases hConverted'
      exact (extraId_range hOk).mp (hRange _ (hExtra hAsks)) hLast
    · intro hFits i hIn
      rcases hIssued i hIn with rfl | ⟨rfl, hAsks⟩
      · exact (nextReqId_range hOk).1
      · apply (extraId_range hOk).mpr
        exact fun hLast => hFits ⟨hLast, id, reqJson, hConverted, hPos, hAsks⟩

/-! ### The other callbacks -/

/-- A callback that issues no ids and leaves the pending query of quotes alone. -/
def Mute (s : ConvertService) (x : ConvertService × List Out) : Prop :=
  x.1.utils.queryQuotesSymbol = s.utils.queryQuotesSymbol ∧ ∀ o ∈ x.2, o.issued = none

theorem Mute.none (s : ConvertService) : Mute s (s, []) :=
  ⟨rfl, fun _ hIn => absurd hIn List.not_mem_nil⟩

theorem issued_unsubMsg {key : String} {o : Out} (h : o ∈ unsubMsg key) : o.issued = none := by
  obtain ⟨text, rfl⟩ := mem_unsubMsg h
  rfl

theorem issued_sends {msgs : List (MsgCarrier Reply)} {out : List Out}
    (h : ∀ o ∈ out, ∃ conn, ∃ mc ∈ msgs, o = .send conn mc) : ∀ o ∈ out, o.issued = none := by
  intro o hIn
  obtain ⟨conn, mc, -, rfl⟩ := h o hIn
  rfl

theorem onLevDisConnect_mute (s : ConvertService) (conn : CContext) :
    Mute s (onLevDisConnect s conn) := by
  have hSame := onLevDisConnect_keeps
    (f := fun s => s.utils.queryQuotesSymbol) (fun _ _ => rfl) s conn
  refine ⟨hSame, fun o hIn => ?_⟩
  obtain ⟨key, hMsg⟩ := mem_onLevDisConnect o hIn
  exact issued_unsubMsg hMsg

theorem onSendHeartbeatTimer_mute (s : ConvertService) : Mute s (onSendHeartbeatTimer s) := by
  have hSame := checkClientAlive_keeps
    (f := fun s => s.utils.queryQuotesSymbol) (fun _ _ _ _ => rfl) s
  refine ⟨hSame, fun o hIn => ?_⟩
  rcases mem_onSendHeartbeatTimer o hIn with ⟨key, hMsg⟩ | ⟨conn, rfl⟩ | rfl
  · exact issued_unsubMsg hMsg
  · rfl
  · rfl

theorem processInsRes_mute {s s' : ConvertService} {resJson : Json} {out : List Out}
    (h : processInsRes s resJson = some (s', out)) : Mute s (s', out) := by
  rcases processInsRes_touches h with ⟨vecPos, market, beginpos, rfl, rfl⟩ | ⟨str, rfl, rfl⟩
  · refine ⟨rfl, fun o hIn => ?_⟩
    rw [List.mem_singleton.mp hIn]
    rfl
  · exact ⟨rfl, fun o hIn => absurd hIn List.not_mem_nil⟩

theorem processPush_mute {s s' : ConvertService} {resJson : Json} {msgs : List (MsgCarrier Reply)}
    {out : List Out} (h : processPush s resJson msgs = some (s', out)) : Mute s (s', out) := by
  obtain ⟨⟨type2ctxsMap, rfl⟩, hSends⟩ := processPush_touches h
  exact ⟨rfl, issued_sends hSends⟩

theorem processReply_mute (s : ConvertService) (reqId : Int) (msgs : List (MsgCarrier Reply)) :
    Mute s (processReply s reqId msgs) := by
  obtain ⟨⟨id2ctxMap, hEq⟩, hSends⟩ := processReply_touches s reqId msgs
  have hSame := congrArg (fun t : ConvertService => t.utils.queryQuotesSymbol) hEq
  exact ⟨hSame, issued_sends hSends⟩

/-- Only requests issue ids. -/
theorem step_mute {env : Env} {s s' : ConvertService} {ev : Event} {out : List Out}
    (hOther : ∀ conn reqStr, ev ≠ .request conn reqStr) (h : step env s ev = some (s', out)) :
    Mute s (s', out) := by
  cases ev with
  | request conn reqStr => exact absurd rfl (hOther conn reqStr)
  | accept conn =>
    cases h
    exact .none s
  | disconnect conn =>
    obtain h : onLevDisConnect s conn = (s', out) := Option.some.inj h
    exact h ▸ onLevDisConnect_mute s conn
  | heartbeatTimer =>
    obtain h : onSendHeartbeatTimer s = (s', out) := Option.some.inj h
    exact h ▸ onSendHeartbeatTimer_mute s
  | queryInsInfoTimer =>
    cases h
    refine ⟨rfl, fun o hIn => ?_⟩
    simp only [onQueryInsInfoTimer, List.mem_cons, List.not_mem_nil, or_false] at hIn
    rcases hIn with rfl | rfl <;> rfl
  | response res =>
    rcases processRes_cases h with ⟨rfl, rfl⟩ | ⟨resJson, reqId, msgs, utils, -, hConverted, hCase⟩
    · exact .none _
    have hTables := jsonRes2ProtoRes_symbol hConverted
    rcases hCase with ⟨rfl, rfl⟩ | ⟨-, hIns⟩ | ⟨-, hPush⟩ | ⟨-, hReply⟩
    · exact ⟨hTables, fun o hIn => absurd hIn List.not_mem_nil⟩
    · obtain ⟨hSymbol, hOut⟩ := processInsRes_mute hIns
      exact ⟨hSymbol.trans hTables, hOut⟩
    · obtain ⟨hSymbol, hOut⟩ := processPush_mute hPush
      exact ⟨hSymbol.trans hTables, hOut⟩
    · obtain ⟨hSymbol, hOut⟩ := processReply_mute { s with utils } reqId msgs
      rw [hReply] at hSymbol hOut
      exact ⟨hSymbol.trans hTables, hOut⟩

/-! ### Runs -/

/-- What a step keeps and decides. -/
theorem step_counting {env : Env} {s s' : ConvertService} {ev : Event} {out : List Out}
    (hCounting : s.Counting) (h : step env s ev = some (s', out)) :
    s'.Counting ∧ ((∀ i ∈ issuedBy out, reqIdStart ≤ i) ↔ ¬QueryOverflows env s ev) := by
  have hOk := step_counterOk hCounting.1 h
  have hMute : Mute s (s', out) → s'.Counting ∧ ∀ i ∈ issuedBy out, reqIdStart ≤ i := by
    rintro ⟨hSymbol, hOut⟩
    refine ⟨⟨hOk, hSymbol.trans hCounting.2⟩, fun i hIn => ?_⟩
    obtain ⟨o, hO, hIssued⟩ := List.mem_filterMap.mp hIn
    rw [hOut o hO] at hIssued
    cases hIssued
  cases ev with
  | request conn reqStr =>
    obtain ⟨hSymbol, hRange⟩ := step_request_range hCounting h
    exact ⟨⟨hOk, hSymbol⟩, hRange⟩
  | _ =>
    have hOther := step_mute (by intro _ _ hEq; cases hEq) h
    obtain ⟨hKept, hRange⟩ := hMute hOther
    exact ⟨hKept, fun _ => id, fun _ => hRange⟩

/-- The ids that are kept were issued. -/
theorem step_id2ctxMap {env : Env} {s s' : ConvertService} {ev : Event} {out : List Out}
    (h : step env s ev = some (s', out)) {i : Int} (hIn : i ∈ s'.id2ctxMap) :
    i ∈ s.id2ctxMap ∨ i ∈ issuedBy out := by
  have hOld : s'.id2ctxMap.lookup i = s.id2ctxMap.lookup i ∨ s'.id2ctxMap.lookup i = none →
      i ∈ s.id2ctxMap := by
    rw [← AList.lookup_isSome] at hIn ⊢
    rintro (hSame | hNone)
    · rwa [hSame] at hIn
    · rw [hNone] at hIn
      cases hIn
  cases ev with
  | request conn reqStr =>
    have hPending := (step_request h).1.pending i
    by_cases hIssued : i ∈ issuedBy out
    · exact .inr hIssued
    · rw [if_neg hIssued] at hPending
      exact .inl (hOld (.inl hPending))
  | response res => exact .inl (hOld (((step_response h).2 i).imp_right And.left))
  | heartbeatTimer =>
    cases h
    exact .inl (hOld (((checkClientAlive_ids s).2 i).imp_right And.left))
  | accept conn =>
    cases h
    exact .inl hIn
  | disconnect conn =>
    apply Or.inl
    apply hOld
    rw [← (Prod.mk.inj (onLevDisConnect_ids s conn)).2, Option.some.inj h]
    exact .inl rfl
  | queryInsInfoTimer =>
    cases h
    exact .inl hIn

theorem run_id2ctxMap {env : Env} {s t : ConvertService} {evs : List Event} {log : List Logged}
    (h : run env s evs = some (t, log)) {i : Int} (hIn : i ∈ t.id2ctxMap) :
    i ∈ s.id2ctxMap ∨ ∃ x ∈ log, i ∈ issuedBy x.out := by
  induction evs generalizing s log with
  | nil =>
    cases h
    exact .inl hIn
  | cons ev evs ih =>
    obtain ⟨s', out, log', hStep, hRest, rfl⟩ := run_cons h
    rcases ih hRest with hNext | ⟨x, hX, hIssued⟩
    · exact (step_id2ctxMap hStep hNext).imp_right fun hIssued => ⟨_, List.mem_cons_self, hIssued⟩
    · exact .inr ⟨x, List.mem_cons_of_mem _ hX, hIssued⟩

/-- **The range of the ids**: in a run of the service all ids that go upstream or are kept are at
least `REQ_ID_START`, exactly when no query of quotes goes out at the last value of the counter. -/
theorem requestIds_iff {env : Env} {t : ConvertService} {evs : List Event} {log : List Logged}
    (h : run env .init evs = some (t, log)) :
    ((∀ x ∈ log, ∀ i ∈ issuedBy x.out, reqIdStart ≤ i) ∧ ∀ i ∈ t.id2ctxMap, reqIdStart ≤ i) ↔
      Along env (fun s ev => ¬QueryOverflows env s ev) .init evs := by
  have hStart : ConvertService.Counting .init := ⟨.inl ⟨by decide, by decide⟩, rfl⟩
  have hOutputs := Machine.run_outputs (P := fun _ _ => True) (I := ConvertService.Counting)
    (Q := fun x => ∀ i ∈ issuedBy x.out, reqIdStart ≤ i)
    (fun hCounting _ hStep => step_counting hCounting (loggedStep_eq.mp hStep).1) hStart
    (Machine.along_of_forall fun _ _ => trivial) h
  rw [Along, ← hOutputs]
  refine ⟨And.left, fun hAll => ⟨hAll, fun i hIn => ?_⟩⟩
  rcases run_id2ctxMap h hIn with hFirst | ⟨x, hX, hIssued⟩
  · exact absurd hFirst (AList.notMem_empty i)
  · exact hAll x hX i hIssued

/-- Heartbeats, a subscription to the quotes of an instrument, and the page that lists it. -/
def countEnv : Env :=
  { deafEnv with
    parseCarrier := fun b => some ⟨7, .req, if b = [] then .heartbeat else .subQuotes, b⟩
    parseHeartbeat := fun _ => some 0
    parseSubQuotes := fun _ => some [⟨1, 16, "HSI"⟩]
    parseJson := fun _ => some (insPage [insJson 2011 "HSI" ""]) }

/-- A page, a subscription and a heartbeat. -/
def countEvents : List Event := [.response "", .request 1 [0x01], .request 1 []]

/-- The ids of the subscription are 11 and 12. -/
theorem requestIds_iff_sub : ∃ t log, run countEnv .init countEvents = some (t, log) ∧
    log.flatMap (fun x => issuedBy x.out) = [12, 11] ∧
    (((∀ x ∈ log, ∀ i ∈ issuedBy x.out, reqIdStart ≤ i) ∧ ∀ i ∈ t.id2ctxMap, reqIdStart ≤ i) ↔
      Along countEnv (fun s ev => ¬QueryOverflows countEnv s ev) .init countEvents) :=
  ⟨_, _, rfl, rfl, @requestIds_iff countEnv _ countEvents _ rfl⟩

/-- Heartbeats count, and do no more. -/
theorem run_heartbeats (n : Nat) {s : ConvertService} (hLow : reqIdStart ≤ s.reqId)
    (hHigh : s.reqId + n < 2 ^ 31) : ∃ t log, run countEnv s (List.replicate n (.request 1 [])) =
      some (t, log) ∧ t.reqId = s.reqId + n ∧ t.utils = s.utils := by
  induction n generalizing s with
  | zero => exact ⟨s, [], rfl, by omega, rfl⟩
  | succ n ih =>
    have hNext : nextReqId s.reqId = s.reqId + 1 := by
      unfold reqIdStart at hLow
      rw [nextReqId, wrap32_of_range (by omega) (by omega), if_neg (by omega)]
    obtain ⟨s', hStep, hId, hUtils⟩ : ∃ s', step countEnv s (.request 1 []) = some (s', []) ∧
        s'.reqId = s.reqId + 1 ∧ s'.utils = s.utils := ⟨_, rfl, hNext, rfl⟩
    obtain ⟨t, log, hRun, hEnd, hSame⟩ := ih (s := s') (by omega) (by omega)
    refine ⟨t, _, Machine.run_step (loggedStep_of_step hStep) hRun, ?_, hSame.trans hUtils⟩
    omega

/-- Heartbeats up to the last value of the counter but one, and a subscription to quotes. -/
def lastEvents : List Event :=
  [.response ""] ++ List.replicate (2 ^ 31 - 12) (.request 1 []) ++ [.request 1 [0x01]]

/-- The query of its quotes has the id -2^31. -/
theorem requestIds_overflow : ∃ t log, run countEnv .init lastEvents = some (t, log) ∧
    ¬∀ x ∈ log, ∀ i ∈ issuedBy x.out, reqIdStart ≤ i := by
  obtain ⟨s, first, hPage, hStart, hNone, hKnown⟩ : ∃ s first,
      run countEnv .init [.response ""] = some (s, first) ∧ s.reqId = reqIdStart ∧
        s.utils.queryQuotesSymbol = [] ∧
        s.utils.subEntries [⟨1, 16, "HSI"⟩] = [⟨1, 2011, "HSI"⟩] := ⟨_, _, rfl, rfl, rfl, rfl⟩
  obtain ⟨t, beats, hBeats, hId, hUtils⟩ := run_heartbeats (2 ^ 31 - 12) (s := s) (by omega) (by
    rw [hStart]
    decide)
  have hLast : t.reqId = 2 ^ 31 - 2 := by
    rw [hId, hStart]
    decide
  have hCounting : t.Counting := by
    refine ⟨.inl ⟨by rw [hLast]; decide, by rw [hLast]; decide⟩, ?_⟩
    rw [hUtils, hNone]
  obtain ⟨t', out, hSub⟩ : ∃ t' out, step countEnv t (.request 1 [0x01]) = some (t', out) :=
    ⟨_, _, rfl⟩
  have hOverflow : QueryOverflows countEnv t (.request 1 [0x01]) := by
    refine ⟨hLast, 7, _, rfl, by decide, ?_⟩
    refine ⟨⟨1, 2011, "HSI"⟩, ?_, rfl⟩
    rw [hUtils, hKnown]
    exact List.mem_singleton_self _
  have hEnd : run countEnv t [.request 1 [0x01]] =
      some (t', [⟨stepActs countEnv t (.request 1 [0x01]), out⟩]) :=
    Machine.run_step (loggedStep_of_step hSub) rfl
  refine ⟨t', _, Machine.run_append (Machine.run_append hPage hBeats) hEnd, fun hAll => ?_⟩
  apply (step_request_range hCounting hSub).2.mp ?_ hOverflow
  exact hAll ⟨_, out⟩ (List.mem_append_right _ (List.mem_singleton_self _))

end DemoCode.FeedProxy
