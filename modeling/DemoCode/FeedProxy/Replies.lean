import DemoCode.FeedProxy.Callbacks

/-! The ids of requests: the internal id under which a request goes upstream, the connection that
is kept with it, and the id that the reply to the client carries. -/

namespace DemoCode.FeedProxy

/-! ### The counter -/

/-- The values of `m_reqId`, which overflows only where a query of quotes takes an id as well. -/
def ConvertService.CounterOk (s : ConvertService) : Prop :=
  (reqIdStart ≤ s.reqId ∧ s.reqId < 2 ^ 31) ∨ s.reqId = -2 ^ 31

theorem nextReqId_range {s : ConvertService} (h : s.CounterOk) :
    reqIdStart ≤ nextReqId s.reqId ∧ nextReqId s.reqId < 2 ^ 31 := by
  unfold nextReqId
  split
  · exact ⟨Int.le_refl _, by decide⟩
  · rename_i hPos
    have hLt := wrap32_lt (s.reqId + 1)
    rcases h with ⟨hLow, hHigh⟩ | hMin
    · by_cases hMax : s.reqId + 1 < 2 ^ 31
      · rw [wrap32_of_range (by unfold reqIdStart at hLow; omega) hMax] at hLt ⊢
        exact ⟨by omega, hLt⟩
      · have hEq : wrap32 (s.reqId + 1) = -2 ^ 31 := by
          rw [show s.reqId + 1 = 2 ^ 31 by omega]
          decide
        omega
    · rw [hMin] at hPos
      exact absurd (by decide) hPos

theorem counterOk_next {s s' : ConvertService} (h : s.CounterOk)
    (h' : s'.reqId = nextReqId s.reqId ∨ s'.reqId = wrap32 (nextReqId s.reqId + 1)) :
    s'.CounterOk := by
  obtain ⟨hLow, hHigh⟩ := nextReqId_range h
  rcases h' with hNext | hWrap
  · exact .inl ⟨by rw [hNext]; exact hLow, by rw [hNext]; exact hHigh⟩
  · by_cases hMax : nextReqId s.reqId + 1 < 2 ^ 31
    · rw [wrap32_of_range (by unfold reqIdStart at hLow; omega) hMax] at hWrap
      exact .inl ⟨by omega, by omega⟩
    · rw [show nextReqId s.reqId + 1 = 2 ^ 31 by omega] at hWrap
      exact .inr (hWrap.trans (by decide))

/-! ### What a request does -/

/-- The id under which something goes upstream for a client. -/
def Out.issued : Out → Option Int
  | .sendReq (.req reqJson) => some reqJson.reqid
  | .sendReq (.queryQuotes reqid _ _) => some reqid
  | _ => none

/-- The ids that are issued by what a callback hands on. -/
def issuedBy (out : List Out) : List Int := out.filterMap Out.issued

/-- What handling a request does to the counter and to the ids that are kept. -/
structure Issues (conn : CContext) (s s' : ConvertService) (out : List Out) : Prop where
  counter : s'.reqId = s.reqId ∨ s'.reqId = wrap32 (s.reqId + 1)
  ids : ∀ i ∈ issuedBy out, i = s.reqId ∨ i = wrap32 (s.reqId + 1)
  pending : ∀ i, s'.id2ctxMap.lookup i =
    if i ∈ issuedBy out then some (some conn) else s.id2ctxMap.lookup i

theorem Issues.none (conn : CContext) {s s' : ConvertService} {out : List Out}
    (hId : s'.reqId = s.reqId) (hMap : s'.id2ctxMap = s.id2ctxMap) (hOut : issuedBy out = []) :
    Issues conn s s' out := by
  refine ⟨.inl hId, ?_, ?_⟩
  · intro i hIn
    rw [hOut] at hIn
    exact absurd hIn List.not_mem_nil
  · intro i
    rw [hOut, hMap, if_neg List.not_mem_nil]

/-- What was done before, apart from the counter and the ids, does not matter. -/
theorem Issues.of_same {conn : CContext} {s₀ s s' : ConvertService} {out : List Out}
    (h : Issues conn s s' out) (hId : s.reqId = s₀.reqId) (hMap : s.id2ctxMap = s₀.id2ctxMap) :
    Issues conn s₀ s' out := by
  constructor
  · rw [← hId]
    exact h.counter
  · rw [← hId]
    exact h.ids
  · rw [← hMap]
    exact h.pending

theorem lookup_insert_ite {κ β : Type*} [DecidableEq κ] (m : Map κ β) (k i : κ) (v : β) :
    (m.insert k v).lookup i = if i = k then some v else m.lookup i := by
  by_cases hKey : i = k
  · rw [if_pos hKey, hKey, AList.lookup_insert]
  · rw [if_neg hKey, AList.lookup_insert_ne hKey]

theorem forward_issues (conn : CContext) (ret : UInt64) {reqJson : ReqJson} {s : ConvertService}
    (hId : reqJson.reqid = s.reqId) :
    Issues conn s (forward conn ret reqJson s).1 (forward conn ret reqJson s).2 := by
  have hIssued : issuedBy (forward conn ret reqJson s).2 = [s.reqId] := by
    simp [forward, issuedBy, Out.issued, hId]
  refine ⟨.inl rfl, ?_, ?_⟩
  · intro i hIn
    rw [hIssued] at hIn
    exact .inl (List.mem_singleton.mp hIn)
  · intro i
    rw [hIssued]
    simp only [List.mem_singleton]
    exact lookup_insert_ite s.id2ctxMap s.reqId i (some conn)

theorem forwardSub_issues (conn : CContext) (ret : UInt64) {reqJson : ReqJson}
    {s : ConvertService} (hId : reqJson.reqid = s.reqId) :
    Issues conn s (forwardSub conn ret reqJson s).1 (forwardSub conn ret reqJson s).2 := by
  unfold forwardSub queryQuotes
  by_cases hNone : s.utils.queryQuotesSymbol = []
  · simp only [if_pos hNone, if_true, List.nil_append]
    exact forward_issues conn ret hId
  · simp only [if_neg hNone, List.cons_ne_nil, if_false]
    refine ⟨.inr rfl, ?_, ?_⟩
    · intro i hIn
      simp [forward, issuedBy, Out.issued, hId] at hIn
      exact hIn.symm
    · intro i
      have hSent := (forward_issues conn ret (s := { s with
        id2ctxMap := s.id2ctxMap.insert (wrap32 (s.reqId + 1)) (some conn) }) hId).pending i
      simp only [forward, issuedBy, Out.issued, List.filterMap_cons, List.filterMap_nil, hId,
        List.cons_append, List.nil_append, List.mem_cons, List.not_mem_nil, or_false] at hSent ⊢
      rw [hSent, lookup_insert_ite]
      by_cases hFirst : i = s.reqId
      · rw [if_pos hFirst, if_pos (.inr hFirst)]
      · rw [if_neg hFirst]
        simp only [hFirst, or_false]

theorem subOne_ids (conn : CContext) (s : ConvertService) (e : SubEntry) :
    ((subOne conn s e).1.reqId, (subOne conn s e).1.id2ctxMap) = (s.reqId, s.id2ctxMap) := rfl

theorem unsubOne_ids (conn : CContext) (s : ConvertService) (e : SubEntry) :
    ((unsubOne conn s e).1.reqId, (unsubOne conn s e).1.id2ctxMap) = (s.reqId, s.id2ctxMap) :=
  unsubOne_keeps (f := fun s => (s.reqId, s.id2ctxMap)) (fun _ _ => rfl) conn s e

theorem handleReq_issues (conn : CContext) (ret : UInt64) {reqJson : ReqJson} {s : ConvertService}
    (hId : reqJson.reqid = s.reqId) :
    Issues conn s (handleReq s conn ret reqJson).1 (handleReq s conn ret reqJson).2 := by
  unfold handleReq
  split
  · exact .none conn rfl rfl rfl
  · exact .none conn rfl rfl rfl
  · exact .none conn rfl rfl rfl
  · rename_i data _
    obtain ⟨hSame, hMap⟩ := Prod.mk.inj (realArray_keeps
      (f := fun s => (s.reqId, s.id2ctxMap)) (subOne_ids conn) s data)
    refine Issues.of_same ?_ hSame hMap
    exact forwardSub_issues conn ret (hId.trans hSame.symm)
  · rename_i data _
    obtain ⟨hSame, hMap⟩ := Prod.mk.inj (realArray_keeps
      (f := fun s => (s.reqId, s.id2ctxMap)) (unsubOne_ids conn) s data)
    refine Issues.of_same ?_ hSame hMap
    exact forwardSub_issues conn ret (hId.trans hSame.symm)
  · exact forward_issues conn ret hId
  · exact forward_issues conn ret hId

/-- The types of the requests that go upstream. -/
def forwardedTypes : List Int := [200, 201, 150, 76]

theorem forwardSub_sent {conn : CContext} {ret : UInt64} {reqJson r : ReqJson}
    {s : ConvertService} (h : .sendReq (.req r) ∈ (forwardSub conn ret reqJson s).2) :
    r = reqJson := by
  unfold forwardSub queryQuotes at h
  split at h
  · simpa [forward] using h
  · simpa [forward] using h

/-- What goes upstream has the id and the type of the request that it is made of. -/
theorem handleReq_sent {conn : CContext} {ret : UInt64} {reqJson r : ReqJson} {s : ConvertService}
    (h : .sendReq (.req r) ∈ (handleReq s conn ret reqJson).2) :
    r.reqid = reqJson.reqid ∧ r.data.reqtype = reqJson.data.reqtype ∧
      r.data.reqtype ∈ forwardedTypes := by
  unfold handleReq at h
  cases hData : reqJson.data with
  | heartbeat => simp [hData] at h
  | tradeDate => simp [hData, localReply] at h
  | allInsInfo => simp [hData, localReply] at h
  | sub es =>
    simp only [hData] at h
    obtain rfl := forwardSub_sent h
    exact ⟨rfl, rfl, by simp [ReqData.reqtype, forwardedTypes]⟩
  | unsub es =>
    simp only [hData] at h
    obtain rfl := forwardSub_sent h
    exact ⟨rfl, rfl, by simp [ReqData.reqtype, forwardedTypes]⟩
  | kLine =>
    simp only [hData, forward, List.mem_singleton, Out.sendReq.injEq, UpMsg.req.injEq] at h
    rw [h, hData]
    exact ⟨rfl, rfl, by simp [ReqData.reqtype, forwardedTypes]⟩
  | broker =>
    simp only [hData, forward, List.mem_singleton, Out.sendReq.injEq, UpMsg.req.injEq] at h
    rw [h, hData]
    exact ⟨rfl, rfl, by simp [ReqData.reqtype, forwardedTypes]⟩

theorem protoReq2JsonReq_cases {env : Env} {u : ConvertUtils} {reqid ret : Int}
    {reqProtoStr : List UInt8} {reqJson : ReqJson}
    (h : protoReq2JsonReq env u reqid reqProtoStr = some (some (ret, reqJson))) :
    ∃ carrier, env.parseCarrier reqProtoStr = some carrier ∧
      ret = carrier.reqId.toInt64.toInt ∧ reqJson.reqid = reqid := by
  unfold protoReq2JsonReq at h
  split at h
  · cases h
  rename_i carrier hCarrier
  split at h
  · cases h
  · simp only [Option.map_eq_some_iff] at h
    obtain ⟨data, -, data', -, hEq⟩ := h
    cases hEq
    exact ⟨carrier, hCarrier, rfl, rfl⟩

/-- **Request step**: the counter moves, and the ids that are issued are kept with the
connection. -/
theorem step_request {env : Env} {s s' : ConvertService} {conn : CContext} {reqStr : List UInt8}
    {out : List Out} (h : step env s (.request conn reqStr) = some (s', out)) :
    Issues conn { s with reqId := nextReqId s.reqId } s' out ∧
      ∀ r, .sendReq (.req r) ∈ out →
        r.reqid = nextReqId s.reqId ∧ r.data.reqtype ∈ forwardedTypes ∧
          ∃ carrier, env.parseCarrier reqStr = some carrier := by
  simp only [step, Option.map_eq_some_iff, Prod.exists] at h
  obtain ⟨s₁, out₁, ret, hReq, hEq⟩ := h
  cases hEq
  rcases processReq_cases hReq with ⟨rfl, rfl, -⟩ | ⟨id, reqJson, hConverted, -, hHandle, -⟩
  · exact ⟨.none conn rfl rfl rfl, fun r hIn => absurd hIn List.not_mem_nil⟩
  · obtain ⟨carrier, hCarrier, -, hId⟩ := protoReq2JsonReq_cases hConverted
    have hIssues := handleReq_issues conn (UInt64.ofInt id)
      (s := { s with reqId := nextReqId s.reqId }) hId
    rw [hHandle] at hIssues
    refine ⟨hIssues, fun r hIn => ?_⟩
    have hSent : .sendReq (.req r) ∈
        (handleReq { s with reqId := nextReqId s.reqId } conn (UInt64.ofInt id) reqJson).2 := by
      rw [hHandle]
      exact hIn
    obtain ⟨hSame, -, hTypes⟩ := handleReq_sent hSent
    exact ⟨hSame.trans hId, hTypes, carrier, hCarrier⟩

theorem forwardSub_no_send {conn c : CContext} {ret : UInt64} {reqJson : ReqJson}
    {s : ConvertService} {mc : MsgCarrier Reply} :
    .send c mc ∉ (forwardSub conn ret reqJson s).2 := by
  unfold forwardSub queryQuotes
  split <;> simp [forward]

theorem handleReq_send {conn c : CContext} {ret : UInt64} {reqJson : ReqJson} {s : ConvertService}
    {mc : MsgCarrier Reply} (h : .send c mc ∈ (handleReq s conn ret reqJson).2) :
    c = conn ∧ mc.reqId = ret := by
  unfold handleReq at h
  cases hData : reqJson.data with
  | heartbeat => simp [hData] at h
  | tradeDate =>
    simp only [hData, localReply, List.mem_singleton, Out.send.injEq] at h
    exact ⟨h.1, by rw [h.2]⟩
  | allInsInfo =>
    simp only [hData, localReply, List.mem_singleton, Out.send.injEq] at h
    exact ⟨h.1, by rw [h.2]⟩
  | sub es =>
    simp only [hData] at h
    exact absurd h forwardSub_no_send
  | unsub es =>
    simp only [hData] at h
    exact absurd h forwardSub_no_send
  | kLine => simp [hData, forward] at h
  | broker => simp [hData, forward] at h

theorem ofInt_toInt64 (r : UInt64) : UInt64.ofInt r.toInt64.toInt = r := by
  apply UInt64.toNat_inj.mp
  have hLt := r.toNat_lt
  have hInt : r.toInt64.toInt = (r.toNat : Int).bmod (2 ^ 64) :=
    BitVec.toInt_eq_toNat_bmod r.toBitVec
  have hMod : (r.toNat : Int).bmod (2 ^ 64) % (2 ^ 64 : Int) = r.toNat := by
    rw [show (2 ^ 64 : Int) = ((2 ^ 64 : Nat) : Int) from rfl, Int.bmod_emod]
    omega
  rw [UInt64.ofInt, hInt, hMod]
  simp

/-- A reply that is sent at once goes to the client, with the id that it chose. -/
theorem step_request_send {env : Env} {s s' : ConvertService} {conn c : CContext}
    {reqStr : List UInt8} {out : List Out} {mc : MsgCarrier Reply}
    (h : step env s (.request conn reqStr) = some (s', out)) (hSend : .send c mc ∈ out) :
    c = conn ∧ ∃ carrier, env.parseCarrier reqStr = some carrier ∧ mc.reqId = carrier.reqId := by
  simp only [step, Option.map_eq_some_iff, Prod.exists] at h
  obtain ⟨s₁, out₁, ret, hReq, hEq⟩ := h
  cases hEq
  rcases processReq_cases hReq with ⟨-, rfl, -⟩ | ⟨id, reqJson, hConverted, -, hHandle, -⟩
  · exact absurd hSend List.not_mem_nil
  · obtain ⟨carrier, hCarrier, rfl, -⟩ := protoReq2JsonReq_cases hConverted
    rw [← (Prod.mk.inj hHandle).2] at hSend
    obtain ⟨hConn, hId⟩ := handleReq_send hSend
    exact ⟨hConn, carrier, hCarrier, hId.trans (ofInt_toInt64 carrier.reqId)⟩

/-! ### What the other callbacks do -/

theorem onLevDisConnect_ids (s : ConvertService) (conn : CContext) :
    ((onLevDisConnect s conn).1.reqId, (onLevDisConnect s conn).1.id2ctxMap) =
      (s.reqId, s.id2ctxMap) :=
  onLevDisConnect_keeps (f := fun s => (s.reqId, s.id2ctxMap)) (fun _ _ => rfl) s conn

theorem checkOne_ids (s : ConvertService) (it : Σ _ : CContext, Bool) :
    (checkOne s it).1.reqId = s.reqId ∧ ∀ i, (checkOne s it).1.id2ctxMap.lookup i =
      if it.2 = false ∧ (it.1 : Int) = i then none else s.id2ctxMap.lookup i := by
  obtain ⟨conn, live⟩ := it
  cases live with
  | true => exact ⟨rfl, fun i => by simp [checkOne]⟩
  | false =>
    obtain ⟨hId, hMap⟩ := Prod.mk.inj (onLevDisConnect_ids s conn)
    refine ⟨hId, fun i => ?_⟩
    show ((onLevDisConnect s conn).1.id2ctxMap.erase (conn : Int)).lookup i = _
    rw [hMap]
    by_cases hKey : (conn : Int) = i
    · rw [if_pos ⟨rfl, hKey⟩, ← hKey, AList.lookup_erase]
    · rw [if_neg fun h => hKey h.2, AList.lookup_erase_ne (Ne.symm hKey)]

/-- The connections that are closed take the ids with their addresses along. -/
theorem checkClientAlive_ids (s : ConvertService) :
    (checkClientAlive s).1.reqId = s.reqId ∧
      ∀ i, (checkClientAlive s).1.id2ctxMap.lookup i = s.id2ctxMap.lookup i ∨
        ((checkClientAlive s).1.id2ctxMap.lookup i = none ∧ ∃ c ∈ s.dead, (c : Int) = i) := by
  have hAll : ∀ (its : List (Σ _ : CContext, Bool)) (s : ConvertService),
      (eachOut checkOne s its).1.reqId = s.reqId ∧
        ∀ i, (eachOut checkOne s its).1.id2ctxMap.lookup i = s.id2ctxMap.lookup i ∨
          ((eachOut checkOne s its).1.id2ctxMap.lookup i = none ∧
            ∃ it ∈ its, it.2 = false ∧ (it.1 : Int) = i) := by
    intro its
    induction its with
    | nil => exact fun s => ⟨rfl, fun i => .inl rfl⟩
    | cons it its ih =>
      intro s
      obtain ⟨hId, hMap⟩ := checkOne_ids s it
      obtain ⟨hIds, hMaps⟩ := ih (checkOne s it).1
      refine ⟨hIds.trans hId, fun i => ?_⟩
      rcases hMaps i with hSame | ⟨hNone, it', hIn, hDead⟩
      · have hFirst := hSame.trans (hMap i)
        by_cases hDead : it.2 = false ∧ (it.1 : Int) = i
        · rw [if_pos hDead] at hFirst
          exact .inr ⟨hFirst, it, List.mem_cons_self, hDead⟩
        · rw [if_neg hDead] at hFirst
          exact .inl hFirst
      · exact .inr ⟨hNone, it', List.mem_cons_of_mem _ hIn, hDead⟩
  obtain ⟨hId, hMap⟩ := hAll s.ctx2isLiveMap.entries s
  refine ⟨hId, fun i => (hMap i).imp_right ?_⟩
  rintro ⟨hNone, it, hIn, hDead, hKey⟩
  exact ⟨hNone, it.1,
    List.mem_map.mpr ⟨it, List.mem_filter.mpr ⟨hIn, by rw [hDead]; rfl⟩, rfl⟩, hKey⟩

theorem processInsRes_ids {s s' : ConvertService} {resJson : Json} {out : List Out}
    (h : processInsRes s resJson = some (s', out)) :
    s'.reqId = s.reqId ∧ s'.id2ctxMap = s.id2ctxMap := by
  rcases processInsRes_touches h with ⟨vecPos, market, beginpos, rfl, -⟩ | ⟨str, rfl, -⟩
  · exact ⟨rfl, rfl⟩
  · exact ⟨rfl, rfl⟩

theorem processPush_ids {s s' : ConvertService} {resJson : Json} {msgs : List (MsgCarrier Reply)}
    {out : List Out} (h : processPush s resJson msgs = some (s', out)) :
    s'.reqId = s.reqId ∧ s'.id2ctxMap = s.id2ctxMap := by
  obtain ⟨⟨type2ctxsMap, rfl⟩, -⟩ := processPush_touches h
  exact ⟨rfl, rfl⟩

/-- **Response step**: the counter stays, and at most the id of the response is taken out. -/
theorem step_response {env : Env} {s s' : ConvertService} {res : String} {out : List Out}
    (h : step env s (.response res) = some (s', out)) :
    s'.reqId = s.reqId ∧
      ∀ i, s'.id2ctxMap.lookup i = s.id2ctxMap.lookup i ∨
        (s'.id2ctxMap.lookup i = none ∧
          ∃ resJson, env.parseJson res = some resJson ∧ resReqId resJson = some i) := by
  rcases processRes_cases h with ⟨rfl, -⟩ | ⟨resJson, reqId, msgs, utils, hParse, hConverted, hCase⟩
  · exact ⟨rfl, fun i => .inl rfl⟩
  rcases hCase with ⟨rfl, -⟩ | ⟨-, hIns⟩ | ⟨-, hPush⟩ | ⟨-, hReply⟩
  · exact ⟨rfl, fun i => .inl rfl⟩
  · obtain ⟨hId, hMap⟩ := processInsRes_ids hIns
    exact ⟨hId, fun i => .inl (by rw [hMap])⟩
  · obtain ⟨hId, hMap⟩ := processPush_ids hPush
    exact ⟨hId, fun i => .inl (by rw [hMap])⟩
  · have hStated := (jsonRes2ProtoRes_cases hConverted).1
    rw [processReply] at hReply
    split at hReply
    · cases hReply
      exact ⟨rfl, fun i => .inl rfl⟩
    · cases hReply
      refine ⟨rfl, fun i => ?_⟩
      by_cases hKey : i = reqId
      · rw [hKey]
        exact .inr ⟨AList.lookup_erase _ _, resJson, hParse, hStated⟩
      · exact .inl (AList.lookup_erase_ne hKey)

theorem step_counterOk {env : Env} {s s' : ConvertService} {ev : Event} {out : List Out}
    (hOk : s.CounterOk) (h : step env s ev = some (s', out)) : s'.CounterOk := by
  have hSame : s'.reqId = s.reqId → s'.CounterOk := fun hId => by
    unfold ConvertService.CounterOk at hOk ⊢
    rw [hId]
    exact hOk
  cases ev with
  | request conn reqStr => exact counterOk_next hOk (step_request h).1.counter
  | response res => exact hSame (step_response h).1
  | accept conn =>
    cases h
    exact hOk
  | disconnect conn =>
    apply hSame
    rw [← (Prod.mk.inj (onLevDisConnect_ids s conn)).1, Option.some.inj h]
  | heartbeatTimer =>
    cases h
    exact hSame (checkClientAlive_ids s).1
  | queryInsInfoTimer =>
    cases h
    exact hOk

theorem run_counterOk {env : Env} {s t : ConvertService} {evs : List Event} {log : List Logged}
    (hStart : s.reqId = reqIdStart) (h : run env s evs = some (t, log)) : t.CounterOk := by
  have hFirst : s.CounterOk := .inl ⟨by rw [hStart], by rw [hStart]; decide⟩
  exact Machine.run_invariant (I := ConvertService.CounterOk)
    (fun hOk hStep => step_counterOk hOk (loggedStep_eq.mp hStep).1) hFirst h

/-! ### Pending ids -/

/-- An event issues no request under an id, and does not take it out. -/
def Keeps (env : Env) (i : Int) (s : ConvertService) : Event → Prop
  | .request conn reqStr =>
    ∀ s' out, step env s (.request conn reqStr) = some (s', out) → i ∉ issuedBy out
  | .response res => ∀ resJson, env.parseJson res = some resJson → resReqId resJson ≠ some i
  | .heartbeatTimer => ∀ c ∈ s.dead, (c : Int) ≠ i
  | _ => True

theorem step_keeps {env : Env} {i : Int} {s s' : ConvertService} {ev : Event} {out : List Out}
    (hKeeps : Keeps env i s ev) (h : step env s ev = some (s', out)) :
    s'.id2ctxMap.lookup i = s.id2ctxMap.lookup i := by
  cases ev with
  | request conn reqStr => rw [(step_request h).1.pending i, if_neg (hKeeps s' out h)]
  | response res =>
    rcases (step_response h).2 i with hSame | ⟨-, resJson, hParse, hId⟩
    · exact hSame
    · exact absurd hId (hKeeps resJson hParse)
  | accept conn =>
    cases h
    rfl
  | disconnect conn =>
    rw [← (Prod.mk.inj (onLevDisConnect_ids s conn)).2, Option.some.inj h]
  | heartbeatTimer =>
    cases h
    rcases (checkClientAlive_ids s).2 i with hSame | ⟨-, c, hIn, hKey⟩
    · exact hSame
    · exact absurd hKey (hKeeps c hIn)
  | queryInsInfoTimer =>
    cases h
    rfl

theorem run_keeps {env : Env} {i : Int} {s t : ConvertService} {evs : List Event}
    {log : List Logged} (hKeeps : Along env (Keeps env i) s evs)
    (h : run env s evs = some (t, log)) : t.id2ctxMap.lookup i = s.id2ctxMap.lookup i := by
  refine Machine.run_keeps (I := fun u => u.id2ctxMap.lookup i = s.id2ctxMap.lookup i) ?_ rfl
    hKeeps h
  intro u ev u' x hSame hKeep hStep
  rw [step_keeps hKeep (loggedStep_eq.mp hStep).1, hSame]

/-! ### Replies -/

/-- The response to a forwarded request makes one carrier, with the id of the response. -/
theorem externalRes_reply {env : Env} {u u' : ConvertUtils} {resJson : Json} {reqId reqType : Int}
    {msgs : List (MsgCarrier Reply)} (hType : reqType ∈ forwardedTypes) (hId : reqId ≠ 0)
    (h : externalRes env u reqId reqType resJson = some (some (msgs, u'))) :
    ∃ mc, msgs = [mc] ∧ mc.reqId = UInt64.ofInt reqId ∧ mc.msgType = .resp := by
  simp only [forwardedTypes, List.mem_cons, List.not_mem_nil, or_false] at hType
  rcases hType with rfl | rfl | rfl | rfl
  all_goals
    simp only [externalRes, Int.reduceEq, or_self, if_false, if_true, hId, Option.bind_eq_bind,
      Option.bind_eq_some_iff] at h
    obtain ⟨data, -, h⟩ := h
    cases h
    exact ⟨_, rfl, rfl, rfl⟩

/-- What the response to a forwarded request is made into goes to the connection that is kept with
its id. -/
theorem processRes_reply {env : Env} {t : ConvertService} {res : String} {resJson : Json}
    {reqId reqType : Int} {x : Int × List (MsgCarrier Reply) × ConvertUtils}
    (hParse : env.parseJson res = some resJson) (hId : resReqId resJson = some reqId)
    (hRange : reqIdStart ≤ reqId) (hType : resJson.getInt "reqtype" = some reqType)
    (hForwarded : reqType ∈ forwardedTypes)
    (hAccepts : jsonRes2ProtoRes env t.utils resJson = some (some x)) :
    ∃ mc t', mc.reqId = UInt64.ofInt reqId ∧ mc.msgType = .resp ∧
      processRes env t res = some (t', match t.id2ctxMap.lookup reqId with
        | some (some conn) => [.send conn mc]
        | _ => []) := by
  obtain ⟨reqId', msgs, utils⟩ := x
  unfold reqIdStart at hRange
  obtain rfl : reqId' = reqId :=
    Option.some.inj ((jsonRes2ProtoRes_cases hAccepts).1.symm.trans hId)
  obtain ⟨reqType', hType', hExternal⟩ :=
    jsonRes2ProtoRes_external hAccepts (by unfold reqIdStart; omega)
  obtain rfl : reqType' = reqType := Option.some.inj (hType'.symm.trans hType)
  obtain ⟨mc, rfl, hMcId, hResp⟩ := externalRes_reply hForwarded (by omega) hExternal
  refine ⟨mc, (processReply { t with utils } reqId' [mc]).1, hMcId, hResp, ?_⟩
  simp only [processRes, hParse, hAccepts, Option.bind_eq_bind, Option.bind_some]
  rw [if_neg (by omega), if_neg (by omega), if_neg (by omega), if_neg (by omega)]
  unfold processReply
  rcases t.id2ctxMap.lookup reqId' with _ | _ | conn <;> rfl

/-- **Replies carry the internal id**: the reply to a forwarded request is a response, and it has
the id that the client chose exactly when that is the id under which the request went upstream.
When nothing else happens to that id, one reply is sent, to the client. -/
theorem processRes_reqId {env : Env} {s₀ s s' t : ConvertService} {pre mid : List Event}
    {log log' : List Logged} {conn : CContext} {reqStr : List UInt8} {out : List Out}
    {reqJson : ReqJson} {res : String} {resJson : Json} (hStart : s₀.reqId = reqIdStart)
    (hPre : run env s₀ pre = some (s, log))
    (hRequest : step env s (.request conn reqStr) = some (s', out))
    (hSent : .sendReq (.req reqJson) ∈ out) (hMid : run env s' mid = some (t, log'))
    (hParse : env.parseJson res = some resJson) (hId : resReqId resJson = some reqJson.reqid)
    (hType : resJson.getInt "reqtype" = some reqJson.data.reqtype) :
    (∃ carrier, env.parseCarrier reqStr = some carrier ∧
      ∀ t' out' c mc, processRes env t res = some (t', out') → .send c mc ∈ out' →
        mc.msgType = .resp ∧
          (mc.reqId = carrier.reqId ↔ carrier.reqId = UInt64.ofInt (nextReqId s.reqId))) ∧
    (∀ x, Along env (Keeps env reqJson.reqid) s' mid →
      jsonRes2ProtoRes env t.utils resJson = some (some x) →
      ∃ mc t', processRes env t res = some (t', [.send conn mc])) := by
  obtain ⟨hIssues, hForward⟩ := step_request hRequest
  obtain ⟨hReqId, hForwarded, carrier, hCarrier⟩ := hForward reqJson hSent
  have hRange := (nextReqId_range (run_counterOk hStart hPre)).1
  rw [← hReqId] at hRange
  refine ⟨⟨carrier, hCarrier, ?_⟩, ?_⟩
  · intro t' out' c mc hRes hSend
    rcases processRes_cases hRes with ⟨-, rfl⟩ | ⟨resJson', reqId', msgs, utils, hParse', hAccepts, -⟩
    · exact absurd hSend List.not_mem_nil
    obtain rfl : resJson' = resJson := Option.some.inj (hParse'.symm.trans hParse)
    obtain ⟨mc', t'', hMcId, hResp, hRes'⟩ :=
      processRes_reply hParse hId hRange hType hForwarded hAccepts
    rw [hRes, Option.some.injEq, Prod.mk.injEq] at hRes'
    have hSame : mc = mc' := by
      rw [hRes'.2] at hSend
      split at hSend
      · simpa using (Out.send.inj (List.mem_singleton.mp hSend)).2
      · exact absurd hSend List.not_mem_nil
    rw [hSame, hMcId, hReqId]
    exact ⟨hResp, eq_comm⟩
  · intro x hKeeps hAccepts
    have hPending : t.id2ctxMap.lookup reqJson.reqid = some (some conn) := by
      rw [run_keeps hKeeps hMid, hIssues.pending, if_pos]
      exact List.mem_filterMap.mpr ⟨_, hSent, rfl⟩
    obtain ⟨mc, t', -, -, hRes⟩ := processRes_reply hParse hId hRange hType hForwarded hAccepts
    rw [hPending] at hRes
    exact ⟨mc, t', hRes⟩

/-- The response to the first request of a run. -/
def replyJson : Json :=
  .obj [("reqid", .int 11), ("reqtype", .int 200), ("data", .obj [("ret", .str "0")])]

def replyEnv : Env := { tickEnv with parseJson := fun s => if s = "reply" then some replyJson else none }

/-- A subscription with the id 7 goes upstream as 11. -/
theorem processRes_reqId_reply :
    ∃ s' out t log reqJson, step replyEnv tickStart (.request 1 [0x01]) = some (s', out) ∧
      .sendReq (.req reqJson) ∈ out ∧ run replyEnv s' [.accept 2] = some (t, log) ∧
      (∃ carrier, replyEnv.parseCarrier [0x01] = some carrier ∧
        ∀ t' out' c mc, processRes replyEnv t "reply" = some (t', out') → .send c mc ∈ out' →
          mc.msgType = .resp ∧ (mc.reqId = carrier.reqId ↔
            carrier.reqId = UInt64.ofInt (nextReqId tickStart.reqId))) ∧
      (∀ x, Along replyEnv (Keeps replyEnv reqJson.reqid) s' [.accept 2] →
        jsonRes2ProtoRes replyEnv t.utils replyJson = some (some x) →
        ∃ mc t', processRes replyEnv t "reply" = some (t', [.send 1 mc])) :=
  ⟨_, _, _, _, _, rfl, List.mem_cons_self, rfl,
    @processRes_reqId replyEnv tickStart tickStart _ _ [] [.accept 2] [] _ 1 [0x01] _ _ "reply"
      replyJson rfl rfl rfl List.mem_cons_self rfl rfl rfl rfl⟩

/-- The reply to it carries 11. -/
theorem processRes_reqId_internal :
    ¬∀ (env : Env) (s₀ s s' t t' : ConvertService) (pre mid : List Event) (log log' : List Logged)
      (conn c : CContext) (reqStr : List UInt8) (carrier : MsgCarrier (List UInt8))
      (out out' : List Out) (reqJson : ReqJson) (res : String) (resJson : Json)
      (mc : MsgCarrier Reply), s₀.reqId = reqIdStart → run env s₀ pre = some (s, log) →
      env.parseCarrier reqStr = some carrier →
      step env s (.request conn reqStr) = some (s', out) → .sendReq (.req reqJson) ∈ out →
      run env s' mid = some (t, log') → env.parseJson res = some resJson →
      resReqId resJson = some reqJson.reqid →
      resJson.getInt "reqtype" = some reqJson.data.reqtype →
      processRes env t res = some (t', out') → .send c mc ∈ out' → mc.reqId = carrier.reqId := by
  intro h
  have hId := h replyEnv tickStart tickStart _ _ _ [] [] [] [] 1 1 [0x01] ⟨7, .req, .subQuotes, []⟩
    _ _ _ "reply" replyJson _ rfl rfl rfl rfl List.mem_cons_self rfl rfl rfl rfl rfl
    List.mem_cons_self
  exact absurd hId (by decide)

end DemoCode.FeedProxy
