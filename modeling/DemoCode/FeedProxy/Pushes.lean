import DemoCode.FeedProxy.FanOut
import DemoCode.FeedProxy.Instruments

/-! What subscribers receive.  A push of quotes or of a tick changes what is known of an instrument;
for an instrument that is not known the carrier is left as it was made, and is sent all the same. -/

namespace DemoCode.FeedProxy

/-! ### Pushes -/

/-- A push of quotes or ticks that is not empty: its type and its first element. -/
def pushOf (env : Env) (res : String) : Option (Int × Json) := do
  let resJson ← env.parseJson res
  let reqId ← resReqId resJson
  let reqType ← resJson.getInt "reqtype"
  if reqId = 0 ∧ (reqType = 250 ∨ reqType = 251) then
    let infoArry ← (← resJson.get "data").get (if reqType = 250 then "symbol" else "tick")
    if infoArry.isEmpty then none else some (reqType, ← infoArry.item 0)
  else
    none

/-- There is a snapshot of the instrument, or for a tick an instrument of that name. -/
def ConvertUtils.Knows (u : ConvertUtils) (reqType : Int) (type : String) : Prop :=
  if reqType = 250 then type ∈ u.type2quoteMap else type ∈ u.type2insInfoMap

instance (u : ConvertUtils) (reqType : Int) (type : String) : Decidable (u.Knows reqType type) :=
  inferInstanceAs (Decidable (if reqType = 250 then type ∈ u.type2quoteMap else type ∈ u.type2insInfoMap))

/-- The meaning of a push: the merged quote of its instrument, or its tick. -/
def pushed (env : Env) (u : ConvertUtils) (reqType : Int) (info : Json) :
    Option (ReqType × Reply) := do
  let type ← info.marketCode
  if reqType = 250 then
    let quoteInfo ← updateQuoteProtoByJson env u.template info (← u.type2quoteMap.lookup type)
    some (.pushQuotes, .quote quoteInfo)
  else
    let insInfo ← u.type2insInfoMap.lookup type
    let price ← (← info.get "price").asDouble
    let volume ← info.getInt "volume"
    let time ← timeAdd env (← info.getString "time") 8 0 0
    some (.pushTicks, .tick { insInfo, price, volume, time })

/-- The key of the subscriptions to what a push is about. -/
def Json.subKey (info : Json) (reqType : Int) : Option String := do
  let market ← info.getString "market"
  let code ← info.getString "code"
  some ((if reqType = 250 then "1|" else "2|") ++ market ++ "|" ++ code)

theorem pushOf_eq {env : Env} {res : String} {reqType : Int} {info : Json}
    (h : pushOf env res = some (reqType, info)) : ∃ resJson data infoArry,
      env.parseJson res = some resJson ∧ resReqId resJson = some 0 ∧
      resJson.getInt "reqtype" = some reqType ∧ (reqType = 250 ∨ reqType = 251) ∧
      resJson.get "data" = some data ∧
      data.get (if reqType = 250 then "symbol" else "tick") = some infoArry ∧
      infoArry.isEmpty = false ∧ infoArry.item 0 = some info := by
  simp only [pushOf, Option.bind_eq_bind, Option.bind_eq_some_iff] at h
  obtain ⟨resJson, hParse, reqId, hId, type, hType, h⟩ := h
  split at h
  · rename_i hPush
    simp only [Option.bind_eq_some_iff] at h
    obtain ⟨data, hData, infoArry, hArray, h⟩ := h
    split at h
    · cases h
    · rename_i hFull
      obtain ⟨item, hItem, hEq⟩ := Option.bind_eq_some_iff.mp h
      cases hEq
      rw [hPush.1] at hId
      exact ⟨resJson, data, infoArry, hParse, hId, hType, hPush.2, hData, hArray,
        Bool.eq_false_iff.mpr hFull, hItem⟩
  · cases h

/-- **Conversion**: a push of a known instrument makes a carrier with its meaning, any other push the
carrier as it was made. -/
theorem externalRes_pushed {env : Env} {u u' : ConvertUtils} {resJson data infoArry info : Json}
    {reqType : Int} {msgs : List (MsgCarrier Reply)} (hPush : reqType = 250 ∨ reqType = 251)
    (hData : resJson.get "data" = some data)
    (hArray : data.get (if reqType = 250 then "symbol" else "tick") = some infoArry)
    (hFull : infoArry.isEmpty = false) (hItem : infoArry.item 0 = some info)
    (h : externalRes env u 0 reqType resJson = some (some (msgs, u'))) :
    ∃ type, info.marketCode = some type ∧
      ((u.Knows reqType type ∧ ∃ m, pushed env u reqType info = some m ∧ msgs = [⟨0, .push, m.1, m.2⟩]) ∨
        (¬u.Knows reqType type ∧ msgs = [⟨0, .push, .unknown, .empty⟩])) := by
  rcases hPush with rfl | rfl
  · simp only [if_true] at hArray
    simp only [externalRes, Int.reduceEq, or_self, if_false, if_true, Option.bind_eq_bind,
      Option.bind_eq_some_iff] at h
    obtain ⟨⟨quote, u₁⟩, hQuotes, h⟩ := h
    simp only [pushQuotesRes, hData, hArray, hFull, hItem, Option.bind_eq_bind, Option.bind_some,
      Bool.false_eq_true, if_false, Option.bind_eq_some_iff] at hQuotes
    obtain ⟨type, hType, hQuotes⟩ := hQuotes
    refine ⟨type, hType, ?_⟩
    simp only [ConvertUtils.Knows, if_true, ← AList.lookup_isSome]
    cases hOld : u.type2quoteMap.lookup type with
    | none =>
      rw [hOld] at hQuotes
      cases hQuotes
      cases h
      exact .inr ⟨Bool.false_ne_true, rfl⟩
    | some old =>
      simp only [hOld, Option.bind_eq_some_iff] at hQuotes
      obtain ⟨quoteInfo, hMerged, hQuotes⟩ := hQuotes
      cases hQuotes
      cases h
      refine .inl ⟨rfl, (.pushQuotes, .quote quoteInfo), ?_, rfl⟩
      simp only [pushed, hType, hOld, hMerged, if_true, Option.bind_eq_bind, Option.bind_some]
  · simp only [Int.reduceEq, if_false] at hArray
    simp only [externalRes, Int.reduceEq, or_self, if_false, if_true, Option.bind_eq_bind,
      Option.bind_eq_some_iff] at h
    obtain ⟨tick, hTicks, h⟩ := h
    simp only [pushTicksRes, hData, hArray, hFull, hItem, Option.bind_eq_bind, Option.bind_some,
      Bool.false_eq_true, if_false, Option.bind_eq_some_iff] at hTicks
    obtain ⟨type, hType, hTicks⟩ := hTicks
    refine ⟨type, hType, ?_⟩
    simp only [ConvertUtils.Knows, Int.reduceEq, if_false, ← AList.lookup_isSome]
    cases hIns : u.type2insInfoMap.lookup type with
    | none =>
      rw [hIns] at hTicks
      cases hTicks
      cases h
      exact .inr ⟨Bool.false_ne_true, rfl⟩
    | some insInfo =>
      simp only [hIns, Option.bind_eq_some_iff] at hTicks
      obtain ⟨priceJson, hPriceJson, price, hPrice, volume, hVolume, text, hText, time, hTime, hTicks⟩ :=
        hTicks
      cases hTicks
      cases h
      refine .inl ⟨rfl, (.pushTicks, .tick { insInfo, price, volume, time }), ?_, rfl⟩
      simp only [pushed, hType, hIns, hPriceJson, hPrice, hVolume, hText, hTime, Int.reduceEq, if_false,
        Option.bind_eq_bind, Option.bind_some]

theorem externalRes_accepts {env : Env} {u : ConvertUtils} {resJson : Json} {reqId reqType : Int}
    {x : Option (List (MsgCarrier Reply) × ConvertUtils)} (hPush : reqType = 250 ∨ reqType = 251)
    (h : externalRes env u reqId reqType resJson = some x) : ∃ msgs u', x = some (msgs, u') := by
  rcases hPush with rfl | rfl
  · simp only [externalRes, Int.reduceEq, or_self, if_false, if_true, Option.bind_eq_bind,
      Option.bind_eq_some_iff] at h
    obtain ⟨⟨quote, u₁⟩, -, h⟩ := h
    rcases quote with _ | quoteInfo <;> cases h <;> exact ⟨_, _, rfl⟩
  · simp only [externalRes, Int.reduceEq, or_self, if_false, if_true, Option.bind_eq_bind,
      Option.bind_eq_some_iff] at h
    obtain ⟨tick, -, h⟩ := h
    rcases tick with _ | tickInfo <;> cases h <;> exact ⟨_, _, rfl⟩

/-- **Push step**: one carrier goes to every connection of the key, with the meaning of the push or
empty. -/
theorem step_push {env : Env} {s s' : ConvertService} {res : String} {out : List Out} {reqType : Int}
    {info : Json} (hWf : s.Wf) (hPush : pushOf env res = some (reqType, info))
    (h : step env s (.response res) = some (s', out)) :
    ∃ type key mc, info.marketCode = some type ∧ info.subKey reqType = some key ∧
      out = (s.ctxsOf key).keys.map (fun conn => .send conn mc) ∧
      ((s.utils.Knows reqType type ∧
          ∃ m, pushed env s.utils reqType info = some m ∧ mc = ⟨0, .push, m.1, m.2⟩) ∨
        (¬s.utils.Knows reqType type ∧ mc = ⟨0, .push, .unknown, .empty⟩)) := by
  obtain ⟨resJson, data, infoArry, hParse, hId, hType, hTypes, hData, hArray, hFull, hItem⟩ :=
    pushOf_eq hPush
  have hConvert : jsonRes2ProtoRes env s.utils resJson =
      (externalRes env s.utils 0 reqType resJson).map fun x => x.map fun x => (0, x) := by
    simp only [jsonRes2ProtoRes, hId, hType, Option.bind_eq_bind, Option.bind_some]
    rw [if_neg (by decide), if_neg (by decide)]
    cases externalRes env s.utils 0 reqType resJson <;> rfl
  simp only [step, processRes, hParse, hConvert, Option.bind_eq_bind, Option.bind_eq_some_iff,
    Option.map_eq_some_iff] at h
  obtain ⟨-, ⟨x, hExternal, rfl⟩, h⟩ := h
  obtain ⟨msgs, utils, rfl⟩ := externalRes_accepts hTypes hExternal
  obtain ⟨type, hCode, hCase⟩ := externalRes_pushed hTypes hData hArray hFull hItem hExternal
  obtain ⟨market, code, hMarket, hText⟩ := Json.getString_of_marketCode hCode
  have hKey := pushKey_eq hType hTypes hData hArray hFull hItem hMarket hText
  obtain ⟨mc, rfl, hMc⟩ : ∃ mc, msgs = [mc] ∧ ((s.utils.Knows reqType type ∧
        ∃ m, pushed env s.utils reqType info = some m ∧ mc = ⟨0, .push, m.1, m.2⟩) ∨
      (¬s.utils.Knows reqType type ∧ mc = ⟨0, .push, .unknown, .empty⟩)) := by
    rcases hCase with ⟨hKnows, m, hMeaning, hMsgs⟩ | ⟨hUnknown, hMsgs⟩
    · exact ⟨_, hMsgs, .inl ⟨hKnows, m, hMeaning, rfl⟩⟩
    · exact ⟨_, hMsgs, .inr ⟨hUnknown, rfl⟩⟩
  have hUtils : Follows s { s with utils } [] := follows_of_maps rfl rfl
  obtain ⟨t, hSent⟩ := processPush_one (hUtils hWf).1 hKey mc
  have hOut : processPush { s with utils } resJson [mc] = some (s', out) := h
  rw [hSent] at hOut
  refine ⟨type, _, mc, hCode, ?_, (Prod.mk.inj (Option.some.inj hOut)).2.symm, hMc⟩
  rw [Json.subKey, hMarket, hText]
  rfl

/-! ### What subscribers receive -/

/-- A push sends its meaning, and nothing when its instrument is not known. -/
def Meaningful (env : Env) (s : ConvertService) (ev : Event) : Prop :=
  ∀ res reqType info type, ev = .response res → pushOf env res = some (reqType, info) →
    info.marketCode = some type → ∀ s' out, step env s ev = some (s', out) →
      (∀ conn mc, .send conn mc ∈ out →
        mc.msgType = .push ∧ pushed env s.utils reqType info = some (mc.reqType, mc.data)) ∧
      (¬s.utils.Knows reqType type → out = [])

/-- A push to which a connection is subscribed is about a known instrument. -/
def KnownIfWanted (env : Env) (s : ConvertService) (ev : Event) : Prop :=
  ∀ res reqType info type key, ev = .response res → pushOf env res = some (reqType, info) →
    info.marketCode = some type → info.subKey reqType = some key →
      (∃ conn, (conn, key) ∈ s.subs) → s.utils.Knows reqType type

theorem meaningful_iff {env : Env} {s s' : ConvertService} {ev : Event} {out : List Out} (hWf : s.Wf)
    (h : step env s ev = some (s', out)) : Meaningful env s ev ↔ KnownIfWanted env s ev := by
  constructor
  · rintro hMeaningful res reqType info type key rfl hPush hCode hSubKey ⟨conn, hSub⟩
    obtain ⟨type', key', mc, hCode', hSubKey', hOut, -⟩ := step_push hWf hPush h
    obtain rfl : key' = key := Option.some.inj (hSubKey'.symm.trans hSubKey)
    by_contra hUnknown
    have hNone := (hMeaningful res reqType info type rfl hPush hCode s' out h).2 hUnknown
    rw [hOut, List.map_eq_nil_iff] at hNone
    have hIn : conn ∈ (s.ctxsOf key').keys := AList.mem_keys.mp hSub
    rw [hNone] at hIn
    exact absurd hIn List.not_mem_nil
  · rintro hKnown res reqType info type rfl hPush hCode t out' hStep
    obtain ⟨type', key, mc, hCode', hSubKey, hOut, hCase⟩ := step_push hWf hPush hStep
    obtain rfl : type' = type := Option.some.inj (hCode'.symm.trans hCode)
    have hWanted := hKnown res reqType info type' key rfl hPush hCode hSubKey
    constructor
    · intro conn mc' hSend
      rw [hOut] at hSend
      obtain ⟨conn', hIn, hEq⟩ := List.mem_map.mp hSend
      obtain ⟨rfl, rfl⟩ := Out.send.inj hEq
      rcases hCase with ⟨-, m, hMeaning, rfl⟩ | ⟨hUnknown, -⟩
      · exact ⟨rfl, hMeaning⟩
      · exact absurd (hWanted ⟨conn', AList.mem_keys.mpr hIn⟩) hUnknown
    · intro hUnknown
      rw [hOut, List.map_eq_nil_iff, List.eq_nil_iff_forall_not_mem]
      exact fun conn hIn => hUnknown (hWanted ⟨conn, AList.mem_keys.mpr hIn⟩)

/-- **Meaningful pushes**: in a run every push of quotes or of a tick sends its meaning to the
subscribers, and nothing about an unknown instrument, exactly when no push about an unknown instrument
finds a subscriber. -/
theorem pushes_meaningful_iff {env : Env} {s t : ConvertService} {evs : List Event}
    {log : List Logged} (hStart : s.Unsubscribed) (h : run env s evs = some (t, log)) :
    Along env (Meaningful env) s evs ↔ Along env (KnownIfWanted env) s evs := by
  refine Machine.along_congr (I := ConvertService.Wf) ?_ hStart.wf.1 h
  intro s ev s' x hWf hStep
  have hFirst := (loggedStep_eq.mp hStep).1
  exact ⟨(step_follows hFirst hWf).1, meaningful_iff hWf hFirst⟩

/-- A quote of an instrument, in a response. -/
def quotePage (reqid reqtype : Int) : Json :=
  .obj [("reqid", .int reqid), ("reqtype", .int reqtype), ("data", .obj [("symbol", .arr [
    .obj [("market", .int 2011), ("code", .str "HSI"), ("now", .int 20000)]])])]

/-- A subscription to the quotes of the instrument, the page that lists it, its snapshot, and a push. -/
def quoteEnv : Env :=
  { deafEnv with
    parseCarrier := fun _ => some ⟨7, .req, .subQuotes, []⟩
    parseSubQuotes := fun _ => some [⟨1, 16, "HSI"⟩]
    parseJson := fun s => some (if s = "page" then insPage [insJson 2011 "HSI" ""]
      else if s = "snapshot" then quotePage 12 153 else quotePage 0 250) }

/-- The snapshot comes before the push. -/
def snapshotFirst : List Event :=
  [.response "page", .request 1 [], .response "snapshot", .response "push"]

theorem pushes_meaningful_iff_snapshot : ∃ t log, run quoteEnv .init snapshotFirst = some (t, log) ∧
    (Along quoteEnv (Meaningful quoteEnv) .init snapshotFirst ↔
      Along quoteEnv (KnownIfWanted quoteEnv) .init snapshotFirst) :=
  ⟨_, _, rfl, @pushes_meaningful_iff quoteEnv .init _ snapshotFirst _ ⟨rfl, rfl⟩ rfl⟩

/-- The push comes before the snapshot: the subscriber receives the carrier as it was made. -/
theorem push_of_unknown : ∃ s log s', run quoteEnv .init [.response "page", .request 1 []] = some (s, log) ∧
    step quoteEnv s (.response "push") = some (s', [.send 1 ⟨0, .push, .unknown, .empty⟩]) ∧
      ¬Meaningful quoteEnv s (.response "push") := by
  refine ⟨_, _, _, rfl, rfl, fun hMeaningful => ?_⟩
  have hNone := (hMeaningful "push" 250 _ _ rfl rfl rfl _ _ rfl).2 (by decide)
  cases hNone

end DemoCode.FeedProxy
