import DemoCode.FeedProxy.Subscriptions

/-! What `ProcessRes` does with a push of quotes or of a tick: the loop over the connections of its
key ends, and has sent to every subscriber once. -/

namespace DemoCode.FeedProxy

/-- What reads as an `int` reads as a text. -/
theorem Json.asString_of_asInt {json : Json} {n : Int} (h : json.asInt = some n) :
    ∃ s, json.asString = some s := by
  cases json with
  | null => exact ⟨_, rfl⟩
  | bool b => exact ⟨_, rfl⟩
  | int m => exact ⟨_, rfl⟩
  | real r => exact ⟨_, rfl⟩
  | str s => cases h
  | arr items => cases h
  | obj members => cases h

/-- An object with a market and a code makes a key. -/
theorem Json.getString_of_marketCode {json : Json} {s : String} (h : json.marketCode = some s) :
    ∃ market code, json.getString "market" = some market ∧ json.getString "code" = some code := by
  simp only [marketCode, getInt, Option.bind_eq_bind, Option.bind_eq_some_iff] at h
  obtain ⟨n, ⟨m, hGet, hInt⟩, code, hCode, -⟩ := h
  obtain ⟨market, hMarket⟩ := asString_of_asInt hInt
  refine ⟨market, code, ?_, hCode⟩
  rw [getString, hGet]
  exact hMarket

/-- The key of the first element of a push. -/
theorem pushKey_eq {resJson data infoArry info : Json} {reqType : Int} {market code : String}
    (hType : resJson.getInt "reqtype" = some reqType) (hPush : reqType = 250 ∨ reqType = 251)
    (hData : resJson.get "data" = some data)
    (hArray : data.get (if reqType = 250 then "symbol" else "tick") = some infoArry)
    (hFull : infoArry.isEmpty = false) (hItem : infoArry.item 0 = some info)
    (hMarket : info.getString "market" = some market) (hCode : info.getString "code" = some code) :
    pushKey resJson =
      some (some ((if reqType = 250 then "1|" else "2|") ++ market ++ "|" ++ code)) := by
  unfold pushKey
  simp only [Option.bind_eq_bind, hType, Option.bind_some, if_pos hPush, hData, hArray, hFull,
    hItem, hMarket, hCode, Bool.false_eq_true, if_false]

/-- A push that is accepted makes one carrier, and its first element a key. -/
theorem externalRes_push {env : Env} {u u' : ConvertUtils} {resJson data infoArry : Json}
    {reqId reqType : Int} {msgs : List (MsgCarrier Reply)}
    (hPush : reqType = 250 ∨ reqType = 251) (hData : resJson.get "data" = some data)
    (hArray : data.get (if reqType = 250 then "symbol" else "tick") = some infoArry)
    (hFull : infoArry.isEmpty = false)
    (h : externalRes env u reqId reqType resJson = some (some (msgs, u'))) :
    (∃ mc, msgs = [mc]) ∧ ∃ info s, infoArry.item 0 = some info ∧ info.marketCode = some s := by
  rcases hPush with rfl | rfl
  · simp only [externalRes, Int.reduceEq, or_self, if_false, if_true, Option.bind_eq_bind,
      Option.bind_eq_some_iff] at h
    obtain ⟨⟨quote, u₁⟩, hQuotes, h⟩ := h
    constructor
    · rcases quote with _ | quoteInfo
      · cases h
        exact ⟨_, rfl⟩
      · cases h
        exact ⟨_, rfl⟩
    · simp only [if_true] at hArray
      simp only [pushQuotesRes, hData, hArray, hFull, Option.bind_eq_bind, Option.bind_some,
        Bool.false_eq_true, if_false, Option.bind_eq_some_iff] at hQuotes
      obtain ⟨info, hItem, s, hCode, -⟩ := hQuotes
      exact ⟨info, s, hItem, hCode⟩
  · simp only [externalRes, Int.reduceEq, or_self, if_false, if_true, Option.bind_eq_bind,
      Option.bind_eq_some_iff] at h
    obtain ⟨tick, hTicks, h⟩ := h
    constructor
    · rcases tick with _ | tickInfo
      · cases h
        exact ⟨_, rfl⟩
      · cases h
        exact ⟨_, rfl⟩
    · simp only [Int.reduceEq, if_false] at hArray
      simp only [pushTicksRes, hData, hArray, hFull, Option.bind_eq_bind, Option.bind_some,
        Bool.false_eq_true, if_false, Option.bind_eq_some_iff] at hTicks
      obtain ⟨info, hItem, s, hCode, -⟩ := hTicks
      exact ⟨info, s, hItem, hCode⟩

theorem sendEach_sends (msgs : List (MsgCarrier Reply)) (it : List (Σ _ : CContext, Option CContext)) :
    ∀ o ∈ (sendEach msgs it).1, ∃ conn, ∃ mc ∈ msgs, o = .send conn mc := by
  induction msgs generalizing it with
  | nil => exact fun o hIn => absurd hIn List.not_mem_nil
  | cons mc msgs ih =>
    rcases it with _ | ⟨⟨c, _ | conn⟩, it⟩
    · exact fun o hIn => absurd hIn List.not_mem_nil
    · exact fun o hIn => absurd hIn List.not_mem_nil
    · intro o hIn
      rcases List.mem_cons.mp hIn with rfl | hRest
      · exact ⟨conn, mc, List.mem_cons_self, rfl⟩
      · obtain ⟨conn', mc', hMc, rfl⟩ := ih it o hRest
        exact ⟨conn', mc', List.mem_cons_of_mem _ hMc, rfl⟩

/-- The loop over the connections hands on nothing but the messages. -/
theorem fanOut_sends {msgs : List (MsgCarrier Reply)} {ctxs ctxs' : Map CContext (Option CContext)}
    {out : List Out} (h : fanOut msgs ctxs = some (ctxs', out)) :
    ∀ o ∈ out, ∃ conn, ∃ mc ∈ msgs, o = .send conn mc := by
  have hPass : ∀ t, ∀ o ∈ (fanOutPass msgs t).out, ∃ conn, ∃ mc ∈ msgs, o = .send conn mc := by
    rintro ⟨ctxs, _ | ⟨⟨c, _ | conn⟩, it⟩⟩
    · exact fun o hIn => absurd hIn List.not_mem_nil
    · exact fun o hIn => absurd hIn List.not_mem_nil
    · have hSends := sendEach_sends msgs (⟨c, some conn⟩ :: it)
      simp only [fanOutPass]
      split
      · rename_i hSend
        rwa [hSend] at hSends
      · rename_i hSend
        rwa [hSend] at hSends
  unfold fanOut at h
  split at h
  · rename_i hRun
    cases h
    exact Loop.run_out hPass hRun
  · cases h

/-- One message goes to every connection once, in the order of the entries. -/
theorem fanOut_one (mc : MsgCarrier Reply) {ctxs : Map CContext (Option CContext)}
    (hOwn : ∀ x ∈ ctxs.entries, x.2 = some x.1) :
    fanOut [mc] ctxs = some (ctxs, ctxs.keys.map fun conn => .send conn mc) := by
  have hRun : ∀ it : List (Σ _ : CContext, Option CContext), (∀ x ∈ it, x.2 = some x.1) →
      Loop.run (fanOutPass [mc]) (it.length + 1) (ctxs, it) =
        some (it.map fun x => .send x.1 mc, some ctxs) := by
    intro it
    induction it with
    | nil =>
      intro hIt
      rfl
    | cons x it ih =>
      intro hIt
      obtain ⟨conn, ptr⟩ := x
      have hPtr : ptr = some conn := hIt ⟨conn, ptr⟩ List.mem_cons_self
      subst hPtr
      have hRest := ih fun x hx => hIt x (List.mem_cons_of_mem _ hx)
      rw [List.length_cons]
      simp only [Loop.run, fanOutPass, sendEach] at hRest ⊢
      rw [hRest]
      rfl
  unfold fanOut
  rw [hRun ctxs.entries hOwn, AList.keys, List.keys, List.map_map]
  rfl

/-- A push with one message goes to the connections of its key, and to no other. -/
theorem processPush_one {s : ConvertService} (hWf : s.Wf) {resJson : Json} {key : String}
    (hKey : pushKey resJson = some (some key)) (mc : MsgCarrier Reply) :
    ∃ s', processPush s resJson [mc] =
      some (s', (s.ctxsOf key).keys.map fun conn => .send conn mc) := by
  have hOwn := hWf.own_entries key
  unfold processPush
  rw [hKey]
  cases hLookup : s.type2ctxsMap.lookup key with
  | none =>
    rw [ctxsOf_of_none hLookup]
    exact ⟨s, by simp [hLookup]⟩
  | some ctxs =>
    rw [ctxsOf_of_lookup hLookup] at hOwn ⊢
    refine ⟨{ s with type2ctxsMap := s.type2ctxsMap.insert key ctxs }, ?_⟩
    simp [hLookup, fanOut_one mc hOwn]

/-- **Push fan-out is exact**: after any run, an accepted push of quotes or of a tick that is not
empty is sent once to every connection whose latest action for its key is a subscription, and to
no other connection. -/
theorem processRes_fanOut {env : Env} {s t : ConvertService} {evs : List Event}
    {log : List Logged} {res : String} {resJson data infoArry : Json} {reqType : Int}
    {msgs : List (MsgCarrier Reply)} {utils : ConvertUtils} (hStart : s.Unsubscribed)
    (hRun : run env s evs = some (t, log)) (hParse : env.parseJson res = some resJson)
    (hType : resJson.getInt "reqtype" = some reqType) (hPush : reqType = 250 ∨ reqType = 251)
    (hData : resJson.get "data" = some data)
    (hArray : data.get (if reqType = 250 then "symbol" else "tick") = some infoArry)
    (hFull : infoArry.isEmpty = false)
    (hAccepts : jsonRes2ProtoRes env t.utils resJson = some (some (0, msgs, utils))) :
    ∃ (info : Json) (market code : String) (mc : MsgCarrier Reply) (conns : List CContext)
      (t' : ConvertService), infoArry.item 0 = some info ∧
      info.getString "market" = some market ∧ info.getString "code" = some code ∧
      processRes env t res = some (t', conns.map fun conn => .send conn mc) ∧ conns.Nodup ∧
      ∀ conn, conn ∈ conns ↔ PubSub.LatestIsSub (log.flatMap Logged.acts) conn
        ((if reqType = 250 then "1|" else "2|") ++ market ++ "|" ++ code) := by
  obtain ⟨reqType', hType', hExternal⟩ := jsonRes2ProtoRes_external hAccepts (by omega)
  obtain rfl : reqType = reqType' := Option.some.inj (hType.symm.trans hType')
  obtain ⟨⟨mc, rfl⟩, info, s₁, hItem, hMarketCode⟩ :=
    externalRes_push hPush hData hArray hFull hExternal
  obtain ⟨market, code, hMarket, hCode⟩ := Json.getString_of_marketCode hMarketCode
  have hKey := pushKey_eq hType hPush hData hArray hFull hItem hMarket hCode
  obtain ⟨key, hEq⟩ : ∃ key, (if reqType = 250 then "1|" else "2|") ++ market ++ "|" ++ code = key :=
    ⟨_, rfl⟩
  rw [hEq] at hKey
  have hUtils : Follows t { t with utils } [] := follows_of_maps rfl rfl
  have hWf := (hUtils (run_follows hRun hStart.wf.1).1).1
  obtain ⟨t', hSent⟩ := processPush_one hWf hKey mc
  refine ⟨info, market, code, mc, (t.ctxsOf key).keys, t', hItem, hMarket, hCode, ?_,
    AList.keys_nodup _, ?_⟩
  · simp only [processRes, hParse, hAccepts, Option.bind_eq_bind, Option.bind_some]
    exact hSent
  · intro conn
    rw [← AList.mem_keys, hEq, ← mem_subs_run hStart hRun]
    rfl

/-- The push of a tick. -/
def tickPush : Json :=
  .obj [("reqid", .int 0), ("reqtype", .int 251),
    ("data", .obj [("tick", .arr [.obj [("market", .int 2011), ("code", .str "HSI")]])])]

/-- A subscription to the tick of one instrument parses, and the push of the tick. -/
def tickEnv : Env :=
  { deafEnv with
    parseCarrier := fun b => if b = [0x01] then some ⟨7, .req, .subQuotes, []⟩ else none
    parseSubQuotes := fun b => if b = [] then some [⟨2, 16, "HSI"⟩] else none
    parseJson := fun s => if s = "tick" then some tickPush else none }

/-- The instrument is known. -/
def tickStart : ConvertService :=
  { utils := { subChangeMap := AList.insert "16|HSI" (2011, "HSI") ∅ } }

/-- Two connections subscribe, and one of them goes. -/
def tickEvents : List Event := [.request 1 [0x01], .request 2 [0x01], .disconnect 1]

theorem processRes_fanOut_tick :
    ∃ t log, run tickEnv tickStart tickEvents = some (t, log) ∧
      ∃ (info : Json) (market code : String) (mc : MsgCarrier Reply) (conns : List CContext)
        (t' : ConvertService), (Json.arr [.obj [("market", .int 2011), ("code", .str "HSI")]]).item 0 =
          some info ∧
        info.getString "market" = some market ∧ info.getString "code" = some code ∧
        processRes tickEnv t "tick" = some (t', conns.map fun conn => .send conn mc) ∧
        conns.Nodup ∧ ∀ conn, conn ∈ conns ↔ PubSub.LatestIsSub (log.flatMap Logged.acts) conn
          ((if (251 : Int) = 250 then "1|" else "2|") ++ market ++ "|" ++ code) :=
  ⟨_, _, rfl, @processRes_fanOut tickEnv tickStart _ tickEvents _ "tick" _ _ _ _ _ _ ⟨rfl, rfl⟩ rfl
    rfl rfl (.inr rfl) rfl rfl rfl rfl⟩

end DemoCode.FeedProxy
