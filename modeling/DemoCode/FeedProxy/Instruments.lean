import DemoCode.Lib.Naming
import DemoCode.FeedProxy.Upstream

/-! The names of instruments.  Upstream knows an instrument by its market and code, clients by its
exchange and trade code; the pages of instruments fill one table for each direction, and a request
goes by the one and its response by the other. -/

namespace DemoCode.FeedProxy

/-! ### Keys -/

/-- The number and the text of a key can be told apart. -/
theorem key_inj {a b : Int} {s t : String} (h : toString a ++ "|" ++ s = toString b ++ "|" ++ t) :
    a = b ∧ s = t := by
  have hNumber : ∀ (n : Int) (r : String),
      (toString n ++ "|" ++ r).toList.takeWhile (· ≠ '|') = (toString n).toList := by
    intro n r
    have hInt : ∀ c ∈ (toString n).toList, decide (c ≠ '|') = true :=
      fun c hIn => decide_eq_true (toString_int_ne hIn (by decide))
    rw [String.toList_append, String.toList_append, List.append_assoc,
      List.takeWhile_append_of_pos hInt]
    exact List.append_nil _
  have hText : toString a = toString b := by
    apply String.toList_injective
    rw [← hNumber a s, h, hNumber]
  rw [hText] at h
  exact ⟨toString_int_injective hText, (String.append_right_inj _).mp h⟩

/-! ### Pages -/

/-- The market and the code of an instrument of a page, and its effective trade code. -/
def Json.insListing (info : Json) : Option ((Int × String) × String) := do
  let market ← info.getInt "market"
  let code ← info.getString "code"
  let tradecode ← info.getString "tradecode"
  some ((market, code), if tradecode.isEmpty then code else tradecode)

/-- What a response lists, which is something only for an internal page of instruments. -/
def Json.pageListings (resJson : Json) : List ((Int × String) × String) :=
  let listings := do
    let reqId ← resReqId resJson
    let reqType ← resJson.getInt "reqtype"
    if 0 < reqId ∧ reqId < reqIdStart ∧ reqType = 52 then
      (← (← (← resJson.get "data").get "symbol").elemsFrom 0).mapM Json.insListing
    else
      none
  listings.getD []

theorem pageListings_page {resJson : Json} {reqId : Int} {symbols : List Json}
    {xs : List ((Int × String) × String)} (hId : resReqId resJson = some reqId)
    (hInternal : 0 < reqId ∧ reqId < reqIdStart) (hType : resJson.getInt "reqtype" = some 52)
    (hSymbols : (do (← (← resJson.get "data").get "symbol").elemsFrom 0) = some symbols)
    (hListings : symbols.mapM Json.insListing = some xs) : resJson.pageListings = xs := by
  simp only [Option.bind_eq_bind, Option.bind_eq_some_iff] at hSymbols
  obtain ⟨data, hData, symbol, hSymbol, hSymbols⟩ := hSymbols
  simp only [Json.pageListings, hId, hType, hData, hSymbol, hSymbols, hListings, hInternal.1,
    hInternal.2, Option.bind_eq_bind, Option.bind_some, and_self, if_true, Option.getD_some]

theorem pageListings_other {resJson : Json} {reqId : Int} (hId : resReqId resJson = some reqId)
    (hOther : ∀ reqType, resJson.getInt "reqtype" = some reqType →
      ¬(0 < reqId ∧ reqId < reqIdStart ∧ reqType = 52)) : resJson.pageListings = [] := by
  rcases hType : resJson.getInt "reqtype" with _ | reqType
  · simp only [Json.pageListings, hId, hType, Option.bind_eq_bind, Option.bind_some,
      Option.bind_none, Option.getD_none]
  · simp only [Json.pageListings, hId, hType, Option.bind_eq_bind, Option.bind_some,
      if_neg (hOther reqType hType), Option.getD_none]

def listings (history : List Json) : List ((Int × String) × String) :=
  history.flatMap Json.pageListings

/-- Each market and code is always listed with the same effective trade code. -/
def ListedAlike (history : List Json) : Prop :=
  ∀ x ∈ listings history, ∀ y ∈ listings history, x.1 = y.1 → x.2 = y.2

/-- The tables after a response. -/
def readRes (env : Env) (u : ConvertUtils) (resJson : Json) : Option ConvertUtils :=
  (jsonRes2ProtoRes env u resJson).map fun
    | none => u
    | some x => x.2.2

/-! ### The tables and the names -/

/-- An instrument with the name that clients know it by. -/
def clientName (x : (Int × String) × String) : (Int × String) × (Int × String) :=
  (x.1, (marketId2Exchange x.1.1).toInt, x.2)

/-- The two tables are the two directions of the names. -/
structure ConvertUtils.Names (u : ConvertUtils)
    (named : List ((Int × String) × (Int × String))) : Prop where
  insInfo : ∀ market code, (u.type2insInfoMap.lookup (toString market ++ "|" ++ code)).map
    (fun info => (info.exchange.toInt, info.insId)) = Naming.nameOf named (market, code)
  symbol : ∀ exchange insId, u.symbolOf exchange insId = Naming.itemOf named (exchange, insId)

theorem names_empty : ConvertUtils.Names {} [] := ⟨fun _ _ => rfl, fun _ _ => rfl⟩

section

variable {u u' : ConvertUtils} {named : List ((Int × String) × (Int × String))}

/-- Tables that are the same have the same names. -/
theorem ConvertUtils.Names.congr (h : u.Names named) (hInfo : u'.type2insInfoMap = u.type2insInfoMap)
    (hChange : u'.subChangeMap = u.subChangeMap) : u'.Names named := by
  constructor
  · intro market code
    rw [hInfo]
    exact h.insInfo market code
  · intro exchange insId
    rw [symbolOf, hChange]
    exact h.symbol exchange insId

/-- What one instrument is listed as, and what the tables then have of it. -/
theorem addInsInfo_tables {info : Json} (h : addInsInfo u info = some u') :
    ∃ market code tradecode productCode oneInfo,
      info.insListing = some ((market, code), tradecode) ∧
      u' = { u with
        allInsInfoResProto := u.allInsInfoResProto ++ [oneInfo]
        type2insInfoMap := u.type2insInfoMap.insert (toString market ++ "|" ++ code)
          ⟨marketId2Exchange market, productCode, tradecode⟩
        subChangeMap := u.subChangeMap.insert
          (toString (marketId2Exchange market).toInt ++ "|" ++ tradecode) (market, code) } := by
  simp only [addInsInfo, Option.bind_eq_bind, Option.bind_eq_some_iff, Option.some.injEq] at h
  obtain ⟨market, hMarket, code, hCode, tradecode, hTrade, -, -, -, -, -, -, productCode, -, -, -, -,
    -, -, -, rfl⟩ := h
  refine ⟨market, code, _, productCode, _, ?_, rfl⟩
  rw [Json.insListing, hMarket, hCode, hTrade]
  rfl

/-- **One instrument**: it is listed, and the tables have its name. -/
theorem addInsInfo_names {info : Json} (h : u.Names named) (hAdd : addInsInfo u info = some u') :
    ∃ x, info.insListing = some x ∧ u'.Names (named ++ [clientName x]) := by
  obtain ⟨market, code, tradecode, productCode, oneInfo, hListing, rfl⟩ := addInsInfo_tables hAdd
  refine ⟨((market, code), tradecode), hListing, ?_⟩
  constructor
  · intro market' code'
    rw [Naming.nameOf_concat]
    by_cases hSame : (market, code) = (market', code')
    · cases hSame
      rw [AList.lookup_insert]
      exact (if_pos rfl).symm
    · have hKey : toString market' ++ "|" ++ code' ≠ toString market ++ "|" ++ code :=
        fun hEq => hSame (Prod.ext (key_inj hEq).1.symm (key_inj hEq).2.symm)
      rw [AList.lookup_insert_ne hKey, h.insInfo]
      exact (if_neg hSame).symm
  · intro exchange insId
    rw [Naming.itemOf_concat, ConvertUtils.symbolOf]
    by_cases hSame : ((marketId2Exchange market).toInt, tradecode) = (exchange, insId)
    · cases hSame
      rw [AList.lookup_insert]
      exact (if_pos rfl).symm
    · have hKey : toString exchange ++ "|" ++ insId ≠
          toString (marketId2Exchange market).toInt ++ "|" ++ tradecode :=
        fun hEq => hSame (Prod.ext (key_inj hEq).1.symm (key_inj hEq).2.symm)
      rw [AList.lookup_insert_ne hKey]
      exact (h.symbol exchange insId).trans (if_neg hSame).symm

/-- **A page**: all of its instruments are listed, in their order. -/
theorem foldlM_addInsInfo_names {symbols : List Json} (h : u.Names named)
    (hAdd : symbols.foldlM addInsInfo u = some u') :
    ∃ xs, symbols.mapM Json.insListing = some xs ∧ u'.Names (named ++ xs.map clientName) := by
  induction symbols generalizing u named with
  | nil =>
    cases hAdd
    exact ⟨[], rfl, by rwa [List.map_nil, List.append_nil]⟩
  | cons info symbols ih =>
    rw [List.foldlM_cons, Option.bind_eq_bind, Option.bind_eq_some_iff] at hAdd
    obtain ⟨next, hFirst, hRest⟩ := hAdd
    obtain ⟨x, hListing, hNext⟩ := addInsInfo_names h hFirst
    obtain ⟨xs, hListings, hNames⟩ := ih hNext hRest
    refine ⟨x :: xs, ?_, ?_⟩
    · rw [List.mapM_cons, hListing, hListings]
      rfl
    · rwa [List.map_cons, ← List.singleton_append, ← List.append_assoc]

/-! ### The other responses leave the names alone -/

/-- A pass over a list that may fail keeps what each step keeps. -/
theorem foldlM_keeps {α β : Type} {step : β → α → Option β} {I : β → Prop}
    (hStep : ∀ {b a b'}, I b → step b a = some b' → I b') {as : List α} {b b' : β} (h : I b)
    (hRun : as.foldlM step b = some b') : I b' := by
  induction as generalizing b with
  | nil =>
    cases hRun
    exact h
  | cons a as ih =>
    rw [List.foldlM_cons, Option.bind_eq_bind, Option.bind_eq_some_iff] at hRun
    obtain ⟨next, hFirst, hRest⟩ := hRun
    exact ih (hStep h hFirst) hRest

theorem addMarket_tables {x x' : ConvertUtils × List Exchange} {market : Json}
    (h : addMarket x market = some x') :
    ∃ times dates, x'.1 = { x.1 with market2timeMap := times, tradeDateProto := dates } := by
  simp only [addMarket, Option.bind_eq_bind, Option.bind_eq_some_iff] at h
  obtain ⟨id, -, openClose, -, periods, -, tradeTime, -, h⟩ := h
  split at h
  · cases h
    exact ⟨_, _, rfl⟩
  · simp only [Option.bind_eq_some_iff, Option.some.injEq] at h
    obtain ⟨-, -, -, -, -, -, rfl⟩ := h
    exact ⟨_, _, rfl⟩

theorem quotesRes_tables {env : Env} {reqId : UInt64} {quotes : List Json}
    {x : List (MsgCarrier Reply) × ConvertUtils} (h : quotesRes env u reqId quotes = some x) :
    ∃ map, x.2 = { u with type2quoteMap := map } := by
  refine foldlM_keeps (I := fun y => ∃ map, y.2 = { u with type2quoteMap := map }) ?_ ⟨_, rfl⟩ h
  rintro ⟨msgs, v⟩ quote y' ⟨map, rfl⟩ hStep
  simp only [Option.bind_eq_bind, Option.bind_eq_some_iff, Option.some.injEq] at hStep
  obtain ⟨info, -, type, -, rfl⟩ := hStep
  exact ⟨_, rfl⟩

theorem pushQuotesRes_tables {env : Env} {resJson : Json} {x : Option QuoteInfo × ConvertUtils}
    (h : pushQuotesRes env u resJson = some x) : ∃ map, x.2 = { u with type2quoteMap := map } := by
  simp only [pushQuotesRes, Option.bind_eq_bind, Option.bind_eq_some_iff] at h
  obtain ⟨data, -, symbol, -, h⟩ := h
  split at h
  · cases h
    exact ⟨_, rfl⟩
  simp only [Option.bind_eq_some_iff] at h
  obtain ⟨quote, -, type, -, h⟩ := h
  split at h
  · cases h
    exact ⟨_, rfl⟩
  · simp only [Option.bind_eq_some_iff, Option.some.injEq] at h
    obtain ⟨info, -, rfl⟩ := h
    exact ⟨_, rfl⟩

/-- A single carrier is made without a change. -/
theorem one_tables {α : Type} {x : Option α} {carrier : α → MsgCarrier Reply}
    {msgs : List (MsgCarrier Reply)}
    (h : (x.bind fun a => some (some ([carrier a], u))) = some (some (msgs, u'))) :
    ∃ map, u' = { u with type2quoteMap := map } := by
  obtain ⟨a, -, h⟩ := Option.bind_eq_some_iff.mp h
  cases h
  exact ⟨_, rfl⟩

/-- The responses to requests of clients change the quotes only. -/
theorem externalRes_tables {env : Env} {reqId reqType : Int} {resJson : Json}
    {msgs : List (MsgCarrier Reply)}
    (h : externalRes env u reqId reqType resJson = some (some (msgs, u'))) :
    ∃ map, u' = { u with type2quoteMap := map } := by
  rw [externalRes] at h
  dsimp only at h
  by_cases hBeat : reqType = 1 ∨ reqType = 0
  · rw [if_pos hBeat] at h
    obtain ⟨status, -, h⟩ := Option.bind_eq_some_iff.mp h
    exact one_tables h
  rw [if_neg hBeat] at h
  by_cases hQuery : reqType = 153
  · rw [if_pos hQuery] at h
    simp only [Option.bind_eq_bind, Option.bind_eq_some_iff] at h
    obtain ⟨_, _, _, _, _, _, x, hQuotes, h⟩ := h
    cases h
    exact quotesRes_tables hQuotes
  rw [if_neg hQuery] at h
  by_cases hSub : reqType = 200
  · rw [if_pos hSub] at h
    exact one_tables h
  rw [if_neg hSub] at h
  by_cases hUnsub : reqType = 201
  · rw [if_pos hUnsub] at h
    exact one_tables h
  rw [if_neg hUnsub] at h
  by_cases hLine : reqType = 150
  · rw [if_pos hLine] at h
    exact one_tables h
  rw [if_neg hLine] at h
  by_cases hPushed : reqType = 250
  · rw [if_pos hPushed] at h
    obtain ⟨x, hPush, h⟩ := Option.bind_eq_some_iff.mp h
    have hTables := pushQuotesRes_tables hPush
    split at h <;> cases h <;> exact hTables
  rw [if_neg hPushed] at h
  by_cases hTick : reqType = 251
  · rw [if_pos hTick] at h
    obtain ⟨tick, -, h⟩ := Option.bind_eq_some_iff.mp h
    split at h <;> cases h <;> exact ⟨_, rfl⟩
  rw [if_neg hTick] at h
  by_cases hBroker : reqType = 76
  · rw [if_pos hBroker] at h
    exact one_tables h
  · rw [if_neg hBroker] at h
    cases h

theorem addMarket_names {x x' : ConvertUtils × List Exchange} {market : Json} (h : x.1.Names named)
    (hAdd : addMarket x market = some x') : x'.1.Names named := by
  obtain ⟨times, dates, hTables⟩ := addMarket_tables hAdd
  rw [hTables]
  exact h.congr rfl rfl

theorem externalRes_names {env : Env} {reqId reqType : Int} {resJson : Json}
    {msgs : List (MsgCarrier Reply)} (h : u.Names named)
    (hRes : externalRes env u reqId reqType resJson = some (some (msgs, u'))) : u'.Names named := by
  obtain ⟨map, rfl⟩ := externalRes_tables hRes
  exact h.congr rfl rfl

theorem internalRes_names {reqType : Int} {resJson : Json} (h : u.Names named)
    (hRes : internalRes u reqType resJson = some (some u')) :
    (reqType = 52 ∧ ∃ symbols xs, (do (← (← resJson.get "data").get "symbol").elemsFrom 0) = some symbols ∧
        symbols.mapM Json.insListing = some xs ∧ u'.Names (named ++ xs.map clientName)) ∨
      (reqType ≠ 52 ∧ u'.Names named) := by
  rw [internalRes] at hRes
  split at hRes
  · rename_i hPage
    simp only [Option.bind_eq_bind, Option.bind_eq_some_iff, Option.some.injEq] at hRes
    obtain ⟨data, hData, symbol, hSymbol, symbols, hSymbols, _, hAdd, rfl⟩ := hRes
    obtain ⟨xs, hListings, hNames⟩ := foldlM_addInsInfo_names h hAdd
    refine .inl ⟨hPage, symbols, xs, ?_, hListings, hNames⟩
    simp only [hData, hSymbol, hSymbols, Option.bind_eq_bind, Option.bind_some]
  rename_i hOther
  refine .inr ⟨hOther, ?_⟩
  split at hRes
  · simp only [Option.bind_eq_bind, Option.bind_eq_some_iff, Option.some.injEq] at hRes
    obtain ⟨_, _, _, _, markets, _, x, hAdd, rfl⟩ := hRes
    exact foldlM_keeps (I := fun x => x.1.Names named) addMarket_names h hAdd
  split at hRes
  · cases hRes
    exact h
  · cases hRes

/-- **A response**: what it lists has its names. -/
theorem readRes_names {env : Env} {resJson : Json} (h : u.Names named)
    (hRes : readRes env u resJson = some u') :
    u'.Names (named ++ resJson.pageListings.map clientName) := by
  have hUnlisted : resJson.pageListings = [] → u'.Names named →
      u'.Names (named ++ resJson.pageListings.map clientName) := by
    intro hNone hNames
    rwa [hNone, List.map_nil, List.append_nil]
  obtain ⟨res, hConverted, hAfter⟩ := Option.map_eq_some_iff.mp hRes
  simp only [jsonRes2ProtoRes, Option.bind_eq_bind, Option.bind_eq_some_iff] at hConverted
  obtain ⟨reqId, hId, hConverted⟩ := hConverted
  by_cases hNoId : reqId = -1
  · rw [if_pos hNoId] at hConverted
    cases hConverted
    cases hAfter
    refine hUnlisted (pageListings_other hId fun _ _ hPage => ?_) h
    omega
  rw [if_neg hNoId, Option.bind_eq_some_iff] at hConverted
  obtain ⟨reqType, hType, hConverted⟩ := hConverted
  by_cases hInternal : reqId < reqIdStart ∧ reqId > 0
  · rw [if_pos hInternal, Option.bind_eq_some_iff] at hConverted
    obtain ⟨inner, hInner, hConverted⟩ := hConverted
    cases hConverted
    rcases inner with _ | inner
    · cases hAfter
      refine hUnlisted (pageListings_other hId fun reqType' hType' hPage => ?_) h
      obtain rfl : reqType = reqType' := Option.some.inj (hType.symm.trans hType')
      rw [internalRes, if_pos hPage.2.2] at hInner
      simp only [Option.bind_eq_bind, Option.bind_eq_some_iff, Option.some.injEq, reduceCtorEq,
        and_false, exists_false] at hInner
    · cases hAfter
      rcases internalRes_names h hInner with ⟨rfl, symbols, xs, hSymbols, hListings, hNames⟩ |
        ⟨hOther, hNames⟩
      · rwa [pageListings_page hId hInternal.symm hType hSymbols hListings]
      · refine hUnlisted (pageListings_other hId fun reqType' hType' hPage => hOther ?_) hNames
        rw [← hPage.2.2]
        exact Option.some.inj (hType.symm.trans hType')
  · rw [if_neg hInternal, Option.bind_eq_some_iff] at hConverted
    obtain ⟨outer, hOuter, hConverted⟩ := hConverted
    cases hConverted
    have hNone : resJson.pageListings = [] :=
      pageListings_other hId fun _ _ hPage => hInternal ⟨hPage.2.1, hPage.1⟩
    rcases outer with _ | outer
    · cases hAfter
      exact hUnlisted hNone h
    · cases hAfter
      exact hUnlisted hNone (externalRes_names h hOuter)

/-- **A history**: the tables have the names that all the pages list. -/
theorem foldlM_readRes_names {env : Env} {history : List Json} (h : u.Names named)
    (hRun : history.foldlM (readRes env) u = some u') :
    u'.Names (named ++ (listings history).map clientName) := by
  induction history generalizing u named with
  | nil =>
    cases hRun
    rwa [listings, List.flatMap_nil, List.map_nil, List.append_nil]
  | cons resJson history ih =>
    rw [List.foldlM_cons, Option.bind_eq_bind, Option.bind_eq_some_iff] at hRun
    obtain ⟨next, hFirst, hRest⟩ := hRun
    have hNames := ih (readRes_names h hFirst) hRest
    rwa [List.append_assoc, ← List.map_append] at hNames

end

/-! ### There and back -/

/-- The exchange and the trade code of the instrument that a carrier queries. -/
def queried (env : Env) (mc : MsgCarrier (List UInt8)) : Option (Int × String) :=
  match mc.reqType with
  | .kLine => (env.parseQueryKLine mc.data).map fun q => (q.exchange, q.insId)
  | .brokerInfo => (env.parseQueryBroker mc.data).map fun q => (q.exchange, q.insId)
  | _ => none

/-- The market and the code that an upstream query names. -/
def ReqData.symbol : ReqData → Option (Int × String)
  | .kLine _ _ _ _ _ symbol => symbol
  | .broker _ _ _ symbol => symbol
  | _ => none

/-- The label of the reply to a query. -/
def Reply.insInfo : Reply → Option InsInfo
  | .kLine res => some res.insInfo
  | .broker res => some res.insInfo
  | _ => none

/-- The response to a query, with the data of the instrument. -/
structure Echoes (resJson : Json) (request : ReqJson) (market : Int) (code : String) : Prop where
  reqid : resReqId resJson = some request.reqid
  reqtype : resJson.getInt "reqtype" = some request.data.reqtype
  status : request.data.reqtype = 150 → resJson.getInt "status" = some 0
  data : ∃ data, resJson.get "data" = some data ∧ data.getInt "market" = some market ∧
    data.getString "code" = some code

/-- A query goes upstream with the market and the code that the table has. -/
theorem symbol_of_queried {env : Env} {u : ConvertUtils} {reqid clientId exchange : Int}
    {insId : String} {bytes : List UInt8} {mc : MsgCarrier (List UInt8)} {request : ReqJson}
    (hCarrier : env.parseCarrier bytes = some mc) (hQueried : queried env mc = some (exchange, insId))
    (hMade : protoReq2JsonReq env u reqid bytes = some (some (clientId, request))) :
    request.reqid = reqid ∧ request.data.symbol = u.symbolOf exchange insId ∧
      (request.data.reqtype = 150 ∨ request.data.reqtype = 76) := by
  rw [protoReq2JsonReq, hCarrier] at hMade
  dsimp only at hMade
  split at hMade
  · cases hMade
  obtain ⟨data, hData, hMade⟩ := Option.map_eq_some_iff.mp hMade
  obtain ⟨reqData', rfl, hMade⟩ := Option.map_eq_some_iff.mp hMade
  cases hMade
  refine ⟨rfl, ?_⟩
  rw [queried] at hQueried
  split at hQueried
  · rename_i hLines
    obtain ⟨q, hParse, hEq⟩ := Option.map_eq_some_iff.mp hQueried
    cases hEq
    simp only [reqData, hLines, hParse, Option.bind_eq_bind, Option.bind_eq_some_iff,
      Option.some.injEq] at hData
    obtain ⟨time0, -, time1, -, rfl⟩ := hData
    exact ⟨rfl, .inl rfl⟩
  · rename_i hBroker
    obtain ⟨q, hParse, hEq⟩ := Option.map_eq_some_iff.mp hQueried
    cases hEq
    simp only [reqData, hBroker, hParse, Option.map_some, Option.some.injEq] at hData
    obtain rfl := hData
    exact ⟨rfl, .inr rfl⟩
  · cases hQueried

theorem kLineRes_insInfo {u : ConvertUtils} {resJson data : Json} {key : String} {info : InsInfo}
    {res : QueryKLineResp} (hStatus : resJson.getInt "status" = some 0)
    (hData : resJson.get "data" = some data) (hKey : data.marketCode = some key)
    (hInfo : u.type2insInfoMap.lookup key = some info) (hRes : kLineRes u resJson = some res) :
    res.insInfo = info := by
  simp only [kLineRes, hStatus, hData, hKey, hInfo, Option.bind_eq_bind, Option.bind_some, ne_eq,
    not_true_eq_false, if_false, Option.bind_eq_some_iff, Option.some.injEq] at hRes
  obtain ⟨_, _, _, _, _, _, _, _, rfl⟩ := hRes
  rfl

theorem brokerRes_insInfo {u : ConvertUtils} {resJson data : Json} {key : String} {info : InsInfo}
    {res : QueryBrokerResp} (hData : resJson.get "data" = some data)
    (hKey : data.marketCode = some key) (hInfo : u.type2insInfoMap.lookup key = some info)
    (hRes : brokerRes u resJson = some res) : res.insInfo = info := by
  simp only [brokerRes, hData, hKey, hInfo, Option.bind_eq_bind, Option.bind_some,
    Option.bind_eq_some_iff, Option.some.injEq] at hRes
  obtain ⟨_, _, _, _, _, _, _, _, rfl⟩ := hRes
  rfl

/-- The reply to a query is labelled by what the table has for the market and the code. -/
theorem insInfo_of_echoes {env : Env} {u u' : ConvertUtils} {resJson : Json} {request : ReqJson}
    {market id : Int} {code : String} {msgs : List (MsgCarrier Reply)} {info : InsInfo}
    (hReqid : reqIdStart ≤ request.reqid)
    (hQuery : request.data.reqtype = 150 ∨ request.data.reqtype = 76)
    (hEchoes : Echoes resJson request market code)
    (hInfo : u.type2insInfoMap.lookup (toString market ++ "|" ++ code) = some info)
    (hConverted : jsonRes2ProtoRes env u resJson = some (some (id, msgs, u'))) :
    ∃ carrier, msgs = [carrier] ∧ carrier.data.insInfo = some info := by
  obtain ⟨data, hData, hMarket, hCode⟩ := hEchoes.data
  have hKey : data.marketCode = some (toString market ++ "|" ++ code) := by
    rw [Json.marketCode, hMarket, hCode]
    rfl
  obtain rfl : request.reqid = id :=
    Option.some.inj (hEchoes.reqid.symm.trans (jsonRes2ProtoRes_cases hConverted).1)
  have hOuter : ¬(0 < request.reqid ∧ request.reqid < reqIdStart) := by omega
  obtain ⟨reqType, hType, hExternal⟩ := jsonRes2ProtoRes_external hConverted hOuter
  obtain rfl : request.data.reqtype = reqType := Option.some.inj (hEchoes.reqtype.symm.trans hType)
  rcases hQuery with hLines | hBroker
  · rw [hLines] at hExternal
    obtain ⟨res, hRes, hOne⟩ := Option.bind_eq_some_iff.mp hExternal
    cases hOne
    have hLabel := kLineRes_insInfo (hEchoes.status hLines) hData hKey hInfo hRes
    exact ⟨_, rfl, congrArg some hLabel⟩
  · rw [hBroker] at hExternal
    obtain ⟨res, hRes, hOne⟩ := Option.bind_eq_some_iff.mp hExternal
    cases hOne
    have hLabel := brokerRes_insInfo hData hKey hInfo hRes
    exact ⟨_, rfl, congrArg some hLabel⟩

theorem consistent_of_listedAlike {history : List Json} (h : ListedAlike history) :
    Naming.Consistent ((listings history).map clientName) := by
  intro item name name' hIn hIn'
  obtain ⟨x, hX, hEq⟩ := List.mem_map.mp hIn
  obtain ⟨y, hY, hEq'⟩ := List.mem_map.mp hIn'
  simp only [clientName, Prod.mk.injEq] at hEq hEq'
  obtain ⟨rfl, rfl⟩ := hEq
  obtain ⟨hItem, rfl⟩ := hEq'
  rw [hItem, h x hX y hY hItem.symm]

/-- **There and back**: a query for an instrument that is known goes upstream with a market and a
code, and the response for them comes back with the names of the query, whatever is listed before or
after, as long as no market and code is listed with two effective trade codes. -/
theorem query_there_and_back {env : Env} {pre post : List Json} {u u' : ConvertUtils}
    {reqid clientId exchange : Int} {insId : String} {bytes : List UInt8}
    {mc : MsgCarrier (List UInt8)} {request : ReqJson}
    (hPre : pre.foldlM (readRes env) {} = some u) (hPost : post.foldlM (readRes env) u = some u')
    (hAlike : ListedAlike (pre ++ post)) (hReqid : reqIdStart ≤ reqid)
    (hCarrier : env.parseCarrier bytes = some mc) (hQueried : queried env mc = some (exchange, insId))
    (hKnown : (u.symbolOf exchange insId).isSome)
    (hMade : protoReq2JsonReq env u reqid bytes = some (some (clientId, request))) :
    ∃ market code, request.data.symbol = some (market, code) ∧
      ∀ resJson id msgs u'', Echoes resJson request market code →
        jsonRes2ProtoRes env u' resJson = some (some (id, msgs, u'')) →
        ∃ carrier info, msgs = [carrier] ∧ carrier.data.insInfo = some info ∧
          info.exchange.toInt = exchange ∧ info.insId = insId := by
  obtain ⟨rfl, hSymbol, hQuery⟩ := symbol_of_queried hCarrier hQueried hMade
  obtain ⟨⟨market, code⟩, hItem⟩ := Option.isSome_iff_exists.mp hKnown
  have hNames := foldlM_readRes_names names_empty hPre
  have hLater := foldlM_readRes_names hNames hPost
  rw [List.nil_append] at hNames hLater
  rw [hSymbol]
  refine ⟨market, code, hItem, ?_⟩
  have hConsistent := consistent_of_listedAlike hAlike
  rw [listings, List.flatMap_append, List.map_append] at hConsistent
  rw [hNames.symbol] at hItem
  have hName := (hLater.insInfo market code).trans (Naming.nameOf_of_itemOf hConsistent hItem)
  obtain ⟨info, hInfo, hLabel⟩ := Option.map_eq_some_iff.mp hName
  intro resJson id msgs u'' hEchoes hConverted
  obtain ⟨carrier, hOne, hInsInfo⟩ := insInfo_of_echoes hReqid hQuery hEchoes hInfo hConverted
  exact ⟨carrier, info, hOne, hInsInfo, congrArg Prod.fst hLabel, congrArg Prod.snd hLabel⟩

/-- An instrument of a page. -/
def insJson (market : Int) (code tradecode : String) : Json :=
  .obj [("market", .int market), ("code", .str code), ("tradecode", .str tradecode)]

def insPage (symbols : List Json) : Json :=
  .obj [("reqid", .int 3), ("reqtype", .int 52), ("data", .obj [("symbol", .arr symbols)])]

/-- A client that queries the lines of an instrument in Hong Kong. -/
def queryEnv : Env :=
  { deafEnv with
    parseCarrier := fun _ => some ⟨7, .req, .kLine, []⟩
    parseQueryKLine := fun _ => some ⟨8, 15, "700", "", ""⟩ }

/-- Two instruments of one exchange with one trade code; the first is listed once more after the
query. -/
theorem query_there_and_back_shared :
    ∃ u u' request, [insPage [insJson 2002 "700" "", insJson 2031 "9700" "700"]].foldlM
        (readRes queryEnv) {} = some u ∧
      [insPage [insJson 2002 "700" "700"]].foldlM (readRes queryEnv) u = some u' ∧
      protoReq2JsonReq queryEnv u 10 [] = some (some (7, request)) ∧
      ∃ market code, request.data.symbol = some (market, code) ∧
        ∀ resJson id msgs u'', Echoes resJson request market code →
          jsonRes2ProtoRes queryEnv u' resJson = some (some (id, msgs, u'')) →
          ∃ carrier info, msgs = [carrier] ∧ carrier.data.insInfo = some info ∧
            info.exchange.toInt = 15 ∧ info.insId = "700" := by
  refine ⟨_, _, _, rfl, rfl, rfl, ?_⟩
  refine @query_there_and_back queryEnv [insPage [insJson 2002 "700" "", insJson 2031 "9700" "700"]]
    [insPage [insJson 2002 "700" "700"]] _ _ 10 7 15 "700" [] _ _ rfl rfl ?_ (by decide) rfl rfl rfl rfl
  show ∀ x ∈ listings _, ∀ y ∈ listings _, x.1 = y.1 → x.2 = y.2
  decide

end DemoCode.FeedProxy
