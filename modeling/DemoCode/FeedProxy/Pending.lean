import DemoCode.FeedProxy.QueryWs
import DemoCode.FeedProxy.Replies

/-! `ConvertService` over `UwsClient`: what the one hands to `SendReq` is what the other takes, written
as JSON and read again.  An id that a request leaves pending has gone upstream in a message when the
request changes what upstream is subscribed to, or is a query. -/

namespace DemoCode.FeedProxy

/-! ### Requests as JSON -/

def SubEntry.json (e : SubEntry) : Json :=
  .obj [("type", .int e.type), ("market", .int e.market), ("code", .str e.code)]

/-- `["market"]` and `["code"]`. -/
def symbolMembers (symbol : Option (Int × String)) : List (String × Json) :=
  match symbol with
  | none => []
  | some (market, code) => [("market", .int market), ("code", .str code)]

def ReqData.json : ReqData → Json
  | .heartbeat connectionid => .obj [("connectionid", .int connectionid)]
  | .tradeDate => .null
  | .allInsInfo => .null
  | .sub data => .arr (data.map SubEntry.json)
  | .unsub data => .arr (data.map SubEntry.json)
  | .kLine weight timetype klinetype time0 time1 symbol =>
    .obj ([("weight", .int weight), ("timetype", .int timetype), ("klinetype", .int klinetype),
      ("time0", .str time0), ("time1", .str time1)] ++ symbolMembers symbol)
  | .broker pushflag codecount language symbol =>
    .obj ([("pushflag", .int pushflag), ("codecount", .int codecount),
      ("language", .int language)] ++ symbolMembers symbol)

def requestJson (reqtype reqid : Int) (session : String) (data : Json) : Json :=
  .obj [("reqtype", .int reqtype), ("reqid", .int reqid), ("session", .str session), ("data", data)]

/-- What `SendReq` reads, when it can read it. -/
def UpMsg.json (env : Env) : UpMsg → Option Json
  | .req reqJson =>
    some (requestJson reqJson.data.reqtype reqJson.reqid reqJson.session reqJson.data.json)
  | .queryQuotes reqid getsyminfo symbol =>
    some (requestJson 153 reqid "" (.obj [("getsyminfo", .int getsyminfo),
      ("symbol", .arr (symbol.map fun x => .obj [("market", .int x.1), ("code", .str x.2)]))]))
  | .queryMarket reqid data =>
    some (requestJson 50 reqid "" (.arr (data.map fun market => .obj [("market", .int market)])))
  | .text msg => env.parseJson msg

/-! ### The service over the client -/

structure Proxy where
  service : ConvertService := {}
  client : UwsClient := {}

/-- What upstream gets of what a callback hands on. -/
def UwsClient.deliver (env : Env) (freed : Ws → Ws) :
    List Out → UwsClient → Option (UwsClient × List Written)
  | [], u => some (u, [])
  | .sendReq msg :: outs, u =>
    match msg.json env with
    | none => deliver env freed outs u
    | some reqJson => do
      let (u, written, _) ← u.sendReq freed reqJson
      let (u, written') ← deliver env freed outs u
      some (u, written ++ written')
  | _ :: outs, u => deliver env freed outs u

/-- An event of the service, a connection of the hub, or the timer for subscriptions; no connection is
dropped. -/
inductive ProxyEvent where
  | service (ev : Event)
  | connection (ws : Ws)
  | resubTimer
  deriving DecidableEq, Repr

/-- What a step does: the ids that `ProcessReq` keeps, and what is written. -/
structure Sent where
  pending : List Int
  written : List Written

/-- The ids that `ProcessReq` keeps with what it hands on. -/
def pendingOf : Event → List Out → List Int
  | .request .., out => issuedBy out
  | _, _ => []

def Proxy.step (env : Env) (freed : Ws → Ws) (p : Proxy) : ProxyEvent → Option (Proxy × Sent)
  | .service ev => do
    let (service, out) ← FeedProxy.step env p.service ev
    let (client, written) ← p.client.deliver env freed out
    some (⟨service, client⟩, ⟨pendingOf ev out, written⟩)
  | .connection ws => do
    let (client, written) ← p.client.step freed (.connection ws)
    some ({ p with client }, ⟨[], written⟩)
  | .resubTimer => do
    let (client, written) ← p.client.step freed .resubTimer
    some ({ p with client }, ⟨[], written⟩)

/-- Every id that is kept has gone upstream in a message. -/
def Sent.Covered (x : Sent) : Prop :=
  ∀ i ∈ x.pending, ∃ w ∈ x.written, w.msg.getInt "reqid" = some i

/-- A connection has room for a symbol. -/
def UwsClient.HasRoom (u : UwsClient) : Prop :=
  ∃ it ∈ u.allWsMap.entries, ∃ ptr conn, it.2 = some ptr ∧ u.conns[ptr]? = some conn ∧
    conn.counts < perWsCodeNums

/-- A request finds room. -/
def FindsRoom (p : Proxy) : ProxyEvent → Prop
  | .service (.request _ _) => p.client.HasRoom
  | _ => True

/-- A connection is the only one that is subscribed to a key. -/
def ConvertService.OnlyOne (s : ConvertService) (conn : CContext) (key : String) : Prop :=
  ∃ ctxs, s.type2ctxsMap.lookup key = some ctxs ∧ conn ∈ ctxs ∧ (ctxs.erase conn).entries = []

/-- What a request means upstream: a subscription names a key that is not known yet, the end of one a
key that the client is the last for and upstream is subscribed to. -/
def ReqData.MovesUpstream (p : Proxy) (conn : CContext) : ReqData → Prop
  | .sub data => ∃ e ∈ data, e.key ∉ p.service.type2ctxsMap
  | .unsub data => ∃ e ∈ data, p.service.OnlyOne conn e.key ∧ e.key ∈ p.client.symbol2conMap
  | _ => True

def MovesUpstream (env : Env) (p : Proxy) : ProxyEvent → Prop
  | .service (.request conn reqStr) => ∀ ret reqJson,
      protoReq2JsonReq env p.service.utils (nextReqId p.service.reqId) reqStr =
        some (some (ret, reqJson)) → 0 ≤ ret → reqJson.data.MovesUpstream p conn
  | _ => True

/-! ### Reading what was written -/

/-- A value of type `int`. -/
def IsInt (n : Int) : Prop := intMin ≤ n ∧ n ≤ intMax

section

variable {reqtype reqid : Int} {session : String} {data : Json}

theorem requestJson_reqtype (h : IsInt reqtype) :
    (requestJson reqtype reqid session data).getInt "reqtype" = some reqtype := if_pos h

theorem requestJson_reqid (h : IsInt reqid) :
    (requestJson reqtype reqid session data).getInt "reqid" = some reqid := if_pos h

theorem requestJson_data : (requestJson reqtype reqid session data).get "data" = some data := rfl

theorem subMsg_reqid (h : IsInt reqid) (reqtype : Int) (data : List Json) :
    (subMsg reqtype (some reqid) data).getInt "reqid" = some reqid := if_pos h

end

theorem SubEntry.entryKey_json (e : SubEntry) : e.json.entryKey = some e.key := rfl

theorem Json.items_arr (items : List Json) : (Json.arr items).items = items.map some := by
  apply List.ext_getElem?
  intro i
  rw [Json.items, List.getElem?_map, List.getElem?_map, Json.size]
  by_cases hLess : i < items.length
  · rw [List.getElem?_range hLess, List.getElem?_eq_getElem hLess]
    show some (some (items.getD i .null)) = some (some items[i])
    rw [List.getD_eq_getElem _ _ hLess]
  · rw [List.getElem?_eq_none (by rwa [List.length_range, ← not_lt]),
      List.getElem?_eq_none (not_lt.mp hLess)]
    rfl

/-! ### What the client writes -/

namespace UwsClient

theorem sendTo_open {u : UwsClient} {ws : Ws} (h : ws ∈ u.openWs) (msg : Json) :
    u.sendTo ws msg = [⟨ws, msg⟩] := if_pos h

/-- A message that is neither a subscription nor the end of one, nor a heartbeat, goes to the connection
for queries alone. -/
theorem sendReq_query {freed : Ws → Ws} {u u' : UwsClient} {reqJson : Json} {reqtype : Int}
    {ws : Ws} {out : List Written} {ret : Option Int} (hType : reqJson.getInt "reqtype" = some reqtype)
    (hOther : reqtype ∉ [1, 200, 201]) (hQuery : u.queryWs = some ws) (hOpen : ws ∈ u.openWs)
    (h : u.sendReq freed reqJson = some (u', out, ret)) : u' = u ∧ out = [⟨ws, reqJson⟩] := by
  have hNe : ∀ other ∈ [1, 200, 201], reqJson.getInt "reqtype" ≠ some other := by
    intro other hIn hSame
    rw [hType] at hSame
    cases hSame
    exact hOther hIn
  rcases sendReq_cases h with ⟨-, -, -, hSub, -⟩ | ⟨-, -, hUnsub, -⟩ | ⟨rfl, beats, rfl, hBeats⟩
  · exact absurd hSub (hNe 200 (by decide))
  · exact absurd hUnsub (hNe 201 (by decide))
  · refine ⟨rfl, ?_⟩
    rw [hBeats (hNe 1 (by decide)), sendQuery, hQuery]
    exact sendTo_open hOpen reqJson

/-- A subscription is the loop over the connections. -/
theorem sendReq_sub {freed : Ws → Ws} {u u' : UwsClient} {reqJson data : Json} {out : List Written}
    {ret : Option Int} (hType : reqJson.getInt "reqtype" = some 200)
    (hData : reqJson.get "data" = some data) (h : u.sendReq freed reqJson = some (u', out, ret)) :
    ∃ todo, u.subLoop (reqJson.getInt "reqid") u.allWsMap.entries data.items =
      some (u', out, todo) := by
  simp only [sendReq, hType, hData, Option.bind_eq_bind, Option.bind_some, if_true,
    Option.bind_eq_some_iff, Prod.exists] at h
  obtain ⟨u'', out', todo, hLoop, h⟩ := h
  cases h
  exact ⟨todo, hLoop⟩

/-- The end of a subscription is the loop over its elements. -/
theorem sendReq_unsub {freed : Ws → Ws} {u u' : UwsClient} {reqJson data : Json} {out : List Written}
    {ret : Option Int} (hType : reqJson.getInt "reqtype" = some 201)
    (hData : reqJson.get "data" = some data) (h : u.sendReq freed reqJson = some (u', out, ret)) :
    u.unsubLoop freed (reqJson.getInt "reqid") data.items = some (u', out) := by
  simp only [sendReq, hType, hData, Option.bind_eq_bind, Option.bind_some, Int.reduceEq, if_false,
    if_true, Option.bind_eq_some_iff, Prod.exists] at h
  obtain ⟨u'', out', hLoop, h⟩ := h
  cases h
  exact hLoop

/-- All connections are open. -/
def AllOpen (u : UwsClient) : Prop := ∀ ws ∈ u.allWsMap, ws ∈ u.openWs

/-- A connection that has room writes what it takes, and one that has none does nothing. -/
theorem Inv.subOn_writes {u u' : UwsClient} {ws : Ws} {con : Option Nat} {reqid : Int}
    {todo todo' : List (Option Json)} {out : List Written} (hInv : u.Inv) (hOpen : u.AllOpen)
    (hStored : u.allWsMap.lookup ws = some con) (hReqid : IsInt reqid)
    (h : u.subOn (some reqid) con todo = some (u', out, todo')) :
    (∃ w ∈ out, w.msg.getInt "reqid" = some reqid) ∨
      (u' = u ∧ todo' = todo ∧ ∀ ptr conn, con = some ptr → u.conns[ptr]? = some conn →
        ¬conn.counts < perWsCodeNums) := by
  obtain ⟨ptr, rfl, hAt⟩ := hInv.allWs ws con hStored
  simp only [UwsClient.subOn, Option.bind_eq_bind, Option.bind_some, Option.bind_eq_some_iff] at h
  obtain ⟨conn, hConn, h⟩ := h
  split at h
  · rename_i hFull
    cases h
    refine .inr ⟨rfl, rfl, ?_⟩
    rintro ptr' conn' hPtr hConn'
    cases hPtr
    obtain rfl : conn = conn' := Option.some.inj (hConn.symm.trans hConn')
    omega
  · simp only [Option.bind_eq_some_iff, Prod.exists] at h
    obtain ⟨u'', data, hTakes, h⟩ := h
    cases h
    have hWs : conn.ws ∈ u'.openWs := by
      have hSame : conn.ws = ws := by
        rw [wsAt, hConn] at hAt
        exact Option.some.inj hAt
      rw [(subTakes_kept hTakes).openWs, hSame]
      exact hOpen ws (AList.lookup_isSome.mp (Option.isSome_iff_exists.mpr ⟨_, hStored⟩))
    refine .inl ⟨⟨conn.ws, subMsg 200 (some reqid) data⟩, ?_, subMsg_reqid hReqid 200 data⟩
    rw [sendTo_open hWs]
    exact List.mem_cons_self

/-- **A subscription** of something is written when a connection has room. -/
theorem Inv.subLoop_writes {its : List (Σ _ : Ws, Option Nat)} {u u' : UwsClient} {reqid : Int}
    {todo todo' : List (Option Json)} {out : List Written} (hInv : u.Inv) (hOpen : u.AllOpen)
    (hIts : ∀ it ∈ its, u.allWsMap.lookup it.1 = some it.2) (hReqid : IsInt reqid)
    (hTodo : todo ≠ [])
    (hRoom : ∃ it ∈ its, ∃ ptr conn, it.2 = some ptr ∧ u.conns[ptr]? = some conn ∧
      conn.counts < perWsCodeNums)
    (h : u.subLoop (some reqid) its todo = some (u', out, todo')) :
    ∃ w ∈ out, w.msg.getInt "reqid" = some reqid := by
  induction its generalizing out with
  | nil =>
    obtain ⟨it, hIn, -⟩ := hRoom
    exact absurd hIn List.not_mem_nil
  | cons it its ih =>
    rw [UwsClient.subLoop, if_neg (by rwa [List.isEmpty_iff])] at h
    simp only [Option.bind_eq_bind, Option.bind_eq_some_iff, Prod.exists] at h
    obtain ⟨next, out₁, todo₁, hOn, u'', out₂, todo₂, hRest, h⟩ := h
    cases h
    rcases hInv.subOn_writes hOpen (hIts it List.mem_cons_self) hReqid hOn with
      ⟨w, hIn, hId⟩ | ⟨rfl, rfl, hFull⟩
    · exact ⟨w, List.mem_append_left _ hIn, hId⟩
    · have hLater : ∃ it ∈ its, ∃ ptr conn, it.2 = some ptr ∧ next.conns[ptr]? = some conn ∧
          conn.counts < perWsCodeNums := by
        obtain ⟨it', hIn, ptr, conn, hPtr, hConn, hLess⟩ := hRoom
        rcases List.mem_cons.mp hIn with rfl | hIn
        · exact absurd hLess (hFull ptr conn hPtr hConn)
        · exact ⟨it', hIn, ptr, conn, hPtr, hConn, hLess⟩
      obtain ⟨w, hIn, hId⟩ := ih (fun it hIn => hIts it (List.mem_cons_of_mem _ hIn)) hLater hRest
      exact ⟨w, List.mem_append_right _ hIn, hId⟩

theorem subLoop_nil (reqid : Option Int) (its : List (Σ _ : Ws, Option Nat)) (u : UwsClient) :
    u.subLoop reqid its [] = some (u, [], []) := by
  cases its <;> rfl

/-- **The end of a subscription** is written when one of its keys has a connection. -/
theorem Inv.unsubLoop_writes {freed : Ws → Ws} {es : List SubEntry} {u u' : UwsClient} {reqid : Int}
    {out : List Written} (hInv : u.Inv) (hOpen : u.AllOpen) (hReqid : IsInt reqid)
    (h : u.unsubLoop freed (some reqid) (es.map fun e => some e.json) = some (u', out)) :
    (∃ w ∈ out, w.msg.getInt "reqid" = some reqid) ↔ ∃ e ∈ es, e.key ∈ u.symbol2conMap := by
  induction es generalizing u out with
  | nil =>
    cases h
    simp
  | cons e es ih =>
    simp only [List.map_cons, UwsClient.unsubLoop, Option.bind_eq_bind, Option.bind_eq_some_iff,
      Prod.exists, Option.some.injEq, Prod.mk.injEq] at h
    obtain ⟨next, out₁, hTake, u'', out₂, hRest, rfl, rfl⟩ := h
    have hKept := unsubTake_kept hTake
    have hNext := hInv.unsubTake hTake
    have hStill : next.AllOpen := by
      rw [AllOpen, hKept.allWsMap, hKept.openWs]
      exact hOpen
    simp only [UwsClient.unsubTake, e.entryKey_json, Option.bind_eq_bind, Option.bind_some] at hTake
    by_cases hKey : e.key ∈ u.symbol2conMap
    · obtain ⟨con, hCon⟩ := Option.isSome_iff_exists.mp (AList.lookup_isSome.mpr hKey)
      obtain ⟨ptr, ws, rfl, hAt, hStored, -⟩ := hInv.symbols e.key con hCon
      obtain ⟨conn, hConn, rfl⟩ := Option.map_eq_some_iff.mp hAt
      have hWs : conn.ws ∈ u.openWs :=
        hOpen conn.ws (AList.lookup_isSome.mp (Option.isSome_iff_exists.mpr ⟨_, hStored⟩))
      rw [hCon] at hTake
      simp only [Option.bind_some, hConn, sendTo_open hWs, Option.some.injEq, Prod.mk.injEq] at hTake
      obtain ⟨-, rfl⟩ := hTake
      exact iff_of_true ⟨_, List.mem_cons_self, subMsg_reqid hReqid 201 _⟩
        ⟨e, List.mem_cons_self, hKey⟩
    · rw [AList.lookup_eq_none.mpr hKey] at hTake
      cases hTake
      rw [List.nil_append, List.exists_mem_cons_iff, or_iff_right hKey]
      exact ih hInv hOpen hRest

/-- What upstream gets leaves the connections in their places and keeps the tables. -/
theorem Inv.deliver {env : Env} {freed : Ws → Ws} {outs : List Out} {u u' : UwsClient}
    {written : List Written} (hInv : u.Inv)
    (h : UwsClient.deliver env freed outs u = some (u', written)) : u'.Inv ∧ Kept u u' := by
  induction outs generalizing u written with
  | nil =>
    cases h
    exact ⟨hInv, .refl _⟩
  | cons out outs ih =>
    cases out with
    | sendReq msg =>
      rw [UwsClient.deliver] at h
      split at h
      · exact ih hInv h
      · simp only [Option.bind_eq_bind, Option.bind_eq_some_iff, Prod.exists, Option.some.injEq,
          Prod.mk.injEq] at h
        obtain ⟨next, out, ret, hSend, u'', written', hRest, rfl, -⟩ := h
        obtain ⟨hLast, hKept⟩ := ih (hInv.sendReq hSend) hRest
        exact ⟨hLast, (sendReq_kept hSend).trans hKept⟩
    | send conn mc => exact ih hInv h
    | close conn => exact ih hInv h

end UwsClient

namespace UwsClient

/-- All connections are open, that for queries as well. -/
structure Ready (u : UwsClient) : Prop where
  inv : u.Inv
  allOpen : u.AllOpen
  query : ∃ ws, u.queryWs = some ws ∧ ws ∈ u.openWs

/-- The client writes something for the data of a request. -/
def Takes (u : UwsClient) : ReqData → Prop
  | .sub data => data ≠ []
  | .unsub data => ∃ e ∈ data, e.key ∈ u.symbol2conMap
  | _ => True

theorem forwarded_isInt {reqtype : Int} (h : reqtype ∈ forwardedTypes) : IsInt reqtype := by
  simp only [forwardedTypes, List.mem_cons, List.not_mem_nil, or_false] at h
  unfold IsInt intMin intMax
  omega

/-- **Request**: a message with the id is written exactly if the client takes something of the data. -/
theorem Ready.sendReq {env : Env} {freed : Ws → Ws} {u u' : UwsClient} {reqJson : ReqJson}
    {json : Json} {out : List Written} {ret : Option Int} (hReady : u.Ready) (hRoom : u.HasRoom)
    (hReqid : IsInt reqJson.reqid) (hForwarded : reqJson.data.reqtype ∈ forwardedTypes)
    (hJson : (UpMsg.req reqJson).json env = some json)
    (h : u.sendReq freed json = some (u', out, ret)) :
    (∃ w ∈ out, w.msg.getInt "reqid" = some reqJson.reqid) ↔ u.Takes reqJson.data := by
  obtain ⟨reqid, session, data⟩ := reqJson
  cases hJson
  dsimp only at hReqid hForwarded h ⊢
  have hType : (requestJson data.reqtype reqid session data.json).getInt "reqtype" =
      some data.reqtype :=
    requestJson_reqtype (forwarded_isInt hForwarded)
  have hId : (requestJson data.reqtype reqid session data.json).getInt "reqid" = some reqid :=
    requestJson_reqid hReqid
  have hQuery : data.reqtype ∉ [1, 200, 201] → u.Takes data →
      ((∃ w ∈ out, w.msg.getInt "reqid" = some reqid) ↔ u.Takes data) := by
    intro hOther hTakes
    obtain ⟨ws, hWs, hOpen⟩ := hReady.query
    obtain ⟨-, rfl⟩ := sendReq_query hType hOther hWs hOpen h
    exact iff_of_true ⟨_, List.mem_cons_self, hId⟩ hTakes
  cases data with
  | heartbeat connectionid => exact absurd hForwarded (by simp [ReqData.reqtype, forwardedTypes])
  | tradeDate => exact absurd hForwarded (by decide)
  | allInsInfo => exact absurd hForwarded (by decide)
  | sub es =>
    obtain ⟨todo, hLoop⟩ := sendReq_sub hType requestJson_data h
    rw [hId, ReqData.json, Json.items_arr, List.map_map] at hLoop
    by_cases hNone : es = []
    · subst hNone
      rw [List.map_nil, subLoop_nil] at hLoop
      cases hLoop
      exact iff_of_false (by simp) (not_not.mpr rfl)
    · have hWritten := hReady.inv.subLoop_writes hReady.allOpen
        (fun it hIn => AList.mem_lookup_iff.mpr hIn) hReqid (by simpa using hNone) hRoom hLoop
      exact iff_of_true hWritten hNone
  | unsub es =>
    have hLoop := sendReq_unsub hType requestJson_data h
    rw [hId, ReqData.json, Json.items_arr, List.map_map] at hLoop
    exact hReady.inv.unsubLoop_writes hReady.allOpen hReqid hLoop
  | kLine weight timetype klinetype time0 time1 symbol =>
    exact hQuery (by simp [ReqData.reqtype]) trivial
  | broker pushflag codecount language symbol =>
    exact hQuery (by simp [ReqData.reqtype]) trivial

end UwsClient

/-! ### What the service hands on -/

/-- Something is handed on of a subscription exactly if a key is not known. -/
theorem realArray_sub_ne_nil (conn : CContext) (s : ConvertService) (es : List SubEntry) :
    (realArray (subOne conn) s es).2 ≠ [] ↔ ∃ e ∈ es, e.key ∉ s.type2ctxsMap := by
  induction es generalizing s with
  | nil => simp [realArray]
  | cons e es ih =>
    rw [List.exists_mem_cons_iff]
    by_cases hKey : e.key ∈ s.type2ctxsMap
    · have hKeys : ∀ key, key ∈ (subOne conn s e).1.type2ctxsMap ↔ key ∈ s.type2ctxsMap := by
        intro key
        show key ∈ s.type2ctxsMap.insert e.key _ ↔ _
        rw [AList.mem_insert]
        exact or_iff_right_of_imp fun hSame => hSame ▸ hKey
      have hRest := ih (subOne conn s e).1
      simp only [hKeys] at hRest
      rw [realArray, or_iff_right (not_not.mpr hKey), ← hRest, subOne, if_pos hKey, List.nil_append]
    · refine iff_of_true ?_ (.inl hKey)
      rw [realArray, subOne, if_neg hKey]
      exact List.cons_ne_nil _ _

/-- The end of a subscription is handed on when the connection is the only one that has it, which it
then no longer is. -/
theorem unsubOne_onlyOne (conn : CContext) (s : ConvertService) (e : SubEntry) :
    (∀ key, (unsubOne conn s e).1.OnlyOne conn key ↔ key ≠ e.key ∧ s.OnlyOne conn key) ∧
      ∀ e', e' ∈ (unsubOne conn s e).2 ↔ e' = e ∧ s.OnlyOne conn e.key := by
  have hSame : ¬s.OnlyOne conn e.key → ∀ key, s.OnlyOne conn key ↔
      key ≠ e.key ∧ s.OnlyOne conn key := by
    intro hNot key
    refine (and_iff_right_of_imp ?_).symm
    rintro hOnly rfl
    exact hNot hOnly
  have hNone : ¬s.OnlyOne conn e.key → ∀ e', e' ∈ ([] : List SubEntry) ↔
      e' = e ∧ s.OnlyOne conn e.key := by
    intro hNot e'
    exact iff_of_false List.not_mem_nil fun h => hNot h.2
  unfold unsubOne
  rcases hLookup : s.type2ctxsMap.lookup e.key with _ | ctxs
  · have hNot : ¬s.OnlyOne conn e.key := by
      rintro ⟨ctxs, hSome, -⟩
      rw [hLookup] at hSome
      cases hSome
    exact ⟨hSame hNot, hNone hNot⟩
  have hOnly : s.OnlyOne conn e.key ↔ conn ∈ ctxs ∧ (ctxs.erase conn).entries = [] := by
    constructor
    · rintro ⟨ctxs', hSome, hIn⟩
      cases hLookup.symm.trans hSome
      exact hIn
    · exact fun hIn => ⟨ctxs, hLookup, hIn⟩
  dsimp only
  by_cases hIn : conn ∈ ctxs
  · rw [if_pos hIn]
    by_cases hEmpty : (ctxs.erase conn).entries = []
    · rw [if_pos hEmpty]
      refine ⟨fun key => ?_, fun e' => ?_⟩
      · by_cases hKey : key = e.key
        · subst hKey
          refine iff_of_false ?_ fun h => h.1 rfl
          rintro ⟨ctxs', hSome, -⟩
          rw [AList.lookup_erase] at hSome
          cases hSome
        · rw [and_iff_right hKey, ConvertService.OnlyOne, AList.lookup_erase_ne hKey]
          rfl
      · rw [List.mem_singleton, and_iff_left (hOnly.mpr ⟨hIn, hEmpty⟩)]
    · rw [if_neg hEmpty]
      have hNot : ¬s.OnlyOne conn e.key := fun h => hEmpty (hOnly.mp h).2
      refine ⟨fun key => ?_, hNone hNot⟩
      by_cases hKey : key = e.key
      · subst hKey
        refine iff_of_false ?_ fun h => h.1 rfl
        rintro ⟨ctxs', hSome, hStill, -⟩
        rw [AList.lookup_insert] at hSome
        cases hSome
        exact (AList.mem_erase.mp hStill).1 rfl
      · rw [and_iff_right hKey, ConvertService.OnlyOne, AList.lookup_insert_ne hKey]
        rfl
  · rw [if_neg hIn]
    have hNot : ¬s.OnlyOne conn e.key := fun h => hIn (hOnly.mp h).1
    exact ⟨hSame hNot, hNone hNot⟩

/-- Something that has a property is handed on of the end of a subscription exactly if the client is the
last for such a key. -/
theorem realArray_unsub_mem (conn : CContext) (s : ConvertService) (es : List SubEntry)
    (P : String → Prop) :
    (∃ e ∈ (realArray (unsubOne conn) s es).2, P e.key) ↔
      ∃ e ∈ es, s.OnlyOne conn e.key ∧ P e.key := by
  induction es generalizing s with
  | nil => simp [realArray]
  | cons e es ih =>
    obtain ⟨hLeft, hOut⟩ := unsubOne_onlyOne conn s e
    have hRest := ih (unsubOne conn s e).1
    simp only [hLeft] at hRest
    rw [List.exists_mem_cons_iff]
    constructor
    · rintro ⟨e', hIn, hP⟩
      rcases List.mem_append.mp hIn with hFirst | hLater
      · obtain ⟨rfl, hOnly⟩ := (hOut e').mp hFirst
        exact .inl ⟨hOnly, hP⟩
      · obtain ⟨e'', hIn', ⟨-, hOnly⟩, hP'⟩ := hRest.mp ⟨e', hLater, hP⟩
        exact .inr ⟨e'', hIn', hOnly, hP'⟩
    · have hHere : s.OnlyOne conn e.key → P e.key →
          ∃ e' ∈ (realArray (unsubOne conn) s (e :: es)).2, P e'.key := fun hOnly hP =>
        ⟨e, List.mem_append_left _ ((hOut e).mpr ⟨rfl, hOnly⟩), hP⟩
      rintro (⟨hOnly, hP⟩ | ⟨e', hIn, hOnly, hP⟩)
      · exact hHere hOnly hP
      -- a key that comes again has gone with its first element
      by_cases hKey : e'.key = e.key
      · rw [hKey] at hOnly hP
        exact hHere hOnly hP
      · obtain ⟨e'', hIn', hP'⟩ := hRest.mpr ⟨e', hIn, ⟨hKey, hOnly⟩, hP⟩
        exact ⟨e'', List.mem_append_right _ hIn', hP'⟩

theorem isInt_wrap32 (n : Int) : IsInt (wrap32 n) := by
  have hLow := le_wrap32 n
  have hHigh := wrap32_lt n
  unfold IsInt intMin intMax
  omega

theorem wrap32_succ_ne {n : Int} (h : IsInt n) : wrap32 (n + 1) ≠ n := by
  unfold IsInt intMin intMax at h
  by_cases hMax : n + 1 < 2 ^ 31
  · rw [wrap32_of_range (by omega) hMax]
    omega
  · have hLow : wrap32 (n + 1) = -2 ^ 31 := by
      rw [show n + 1 = 2 ^ 31 by omega]
      decide
    omega

/-- A query of quotes under an id of its own, or nothing. -/
def QuotesFirst (reqid : Int) (outs : List Out) : Prop :=
  outs = [] ∨ ∃ id getsyminfo symbol, outs = [.sendReq (.queryQuotes id getsyminfo symbol)] ∧
    IsInt id ∧ id ≠ reqid

theorem queryQuotes_first (conn : CContext) {s : ConvertService} (h : IsInt s.reqId) :
    QuotesFirst s.reqId (queryQuotes conn s).2 := by
  unfold queryQuotes
  split
  · exact .inl rfl
  · exact .inr ⟨_, _, _, rfl, isInt_wrap32 _, wrap32_succ_ne h⟩

/-- **A request that is forwarded**: its ids have gone upstream exactly if the client takes something of
its data. -/
theorem UwsClient.Ready.deliver_forwarded {env : Env} {freed : Ws → Ws} {u u' : UwsClient}
    {reqJson : ReqJson} {outs : List Out} {written : List Written} (hReady : u.Ready)
    (hRoom : u.HasRoom) (hReqid : IsInt reqJson.reqid)
    (hForwarded : reqJson.data.reqtype ∈ forwardedTypes) (hFirst : QuotesFirst reqJson.reqid outs)
    (h : UwsClient.deliver env freed (outs ++ [.sendReq (.req reqJson)]) u = some (u', written)) :
    Sent.Covered ⟨issuedBy (outs ++ [.sendReq (.req reqJson)]), written⟩ ↔ u.Takes reqJson.data := by
  rcases hFirst with rfl | ⟨id, getsyminfo, symbol, rfl, hId, hNe⟩
  · simp only [List.nil_append, UwsClient.deliver, UpMsg.json, Option.bind_eq_bind,
      Option.bind_eq_some_iff, Prod.exists, Option.some.injEq, Prod.mk.injEq] at h
    obtain ⟨next, out, ret, hSend, _, _, ⟨-, rfl⟩, -, rfl⟩ := h
    have hIff := @UwsClient.Ready.sendReq env _ _ _ _ _ _ _ hReady hRoom hReqid hForwarded rfl hSend
    rw [← hIff, List.append_nil]
    exact List.forall_mem_singleton
  · simp only [List.cons_append, List.nil_append, UwsClient.deliver, UpMsg.json, Option.bind_eq_bind,
      Option.bind_eq_some_iff, Prod.exists, Option.some.injEq, Prod.mk.injEq] at h
    obtain ⟨next, first, ret, hQuotes, _, _, ⟨_, out, ret', hSend, _, _, ⟨-, rfl⟩, -, rfl⟩, -, rfl⟩ := h
    obtain ⟨ws, hWs, hOpen⟩ := hReady.query
    obtain ⟨rfl, rfl⟩ := UwsClient.sendReq_query (requestJson_reqtype ⟨by decide, by decide⟩)
      (by decide) hWs hOpen hQuotes
    have hIff := @UwsClient.Ready.sendReq env _ _ _ _ _ _ _ hReady hRoom hReqid hForwarded rfl hSend
    rw [← hIff, List.append_nil]
    have hFirst : (requestJson 153 id "" (.obj [("getsyminfo", .int getsyminfo),
        ("symbol", .arr (symbol.map fun x => .obj [("market", .int x.1), ("code", .str x.2)]))])).getInt
          "reqid" = some id := requestJson_reqid hId
    constructor
    · intro hCovered
      obtain ⟨w, hIn, hW⟩ := hCovered reqJson.reqid
        (List.mem_cons_of_mem id List.mem_cons_self)
      rcases List.mem_cons.mp hIn with rfl | hLater
      · exact absurd (Option.some.inj (hFirst.symm.trans hW)) hNe
      · exact ⟨w, hLater, hW⟩
    · rintro ⟨w, hIn, hW⟩ i hI
      rcases List.mem_cons.mp hI with rfl | hI
      · exact ⟨_, List.mem_cons_self, hFirst⟩
      · rw [List.mem_singleton.mp hI]
        exact ⟨w, List.mem_cons_of_mem _ hIn, hW⟩

/-- What keeps no id is covered. -/
theorem Sent.covered_of_pending {x : Sent} (h : x.pending = []) : x.Covered := by
  intro i hIn
  rw [h] at hIn
  exact absurd hIn List.not_mem_nil

/-- **A request that is handled**: its ids have gone upstream exactly if it moves something there. -/
theorem UwsClient.Ready.deliver_handled {env : Env} {freed : Ws → Ws} {s : ConvertService}
    {u u' : UwsClient} {conn : CContext} {ret : UInt64} {reqJson : ReqJson} {written : List Written}
    (hReady : u.Ready) (hRoom : u.HasRoom) (hReqid : IsInt s.reqId) (hSame : reqJson.reqid = s.reqId)
    (h : UwsClient.deliver env freed (handleReq s conn ret reqJson).2 u = some (u', written)) :
    Sent.Covered ⟨issuedBy (handleReq s conn ret reqJson).2, written⟩ ↔
      reqJson.data.MovesUpstream ⟨s, u⟩ conn := by
  obtain ⟨reqid, session, data⟩ := reqJson
  obtain rfl : reqid = s.reqId := hSame
  cases data with
  | heartbeat connectionid => exact iff_of_true (Sent.covered_of_pending rfl) trivial
  | tradeDate => exact iff_of_true (Sent.covered_of_pending rfl) trivial
  | allInsInfo => exact iff_of_true (Sent.covered_of_pending rfl) trivial
  | sub es =>
    have hId : (realArray (subOne conn) s es).1.reqId = s.reqId :=
      realArray_keeps (f := ConvertService.reqId) (fun _ _ => rfl) s es
    have hFirst := queryQuotes_first conn (s := (realArray (subOne conn) s es).1) (hId ▸ hReqid)
    rw [hId] at hFirst
    exact (hReady.deliver_forwarded hRoom hReqid List.mem_cons_self hFirst h).trans
      (realArray_sub_ne_nil conn s es)
  | unsub es =>
    have hId : (realArray (unsubOne conn) s es).1.reqId = s.reqId :=
      realArray_keeps (f := ConvertService.reqId)
        (fun s e => (Prod.mk.inj (unsubOne_ids conn s e)).1) s es
    have hFirst := queryQuotes_first conn (s := (realArray (unsubOne conn) s es).1) (hId ▸ hReqid)
    rw [hId] at hFirst
    exact (hReady.deliver_forwarded hRoom hReqid (by simp [ReqData.reqtype, forwardedTypes]) hFirst
      h).trans (realArray_unsub_mem conn s es (· ∈ u.symbol2conMap))
  | kLine weight timetype klinetype time0 time1 symbol =>
    exact hReady.deliver_forwarded hRoom hReqid (by simp [ReqData.reqtype, forwardedTypes])
      (.inl rfl) h
  | broker pushflag codecount language symbol =>
    exact hReady.deliver_forwarded hRoom hReqid (by simp [ReqData.reqtype, forwardedTypes])
      (.inl rfl) h

/-! ### Steps -/

section

variable {env : Env} {freed : Ws → Ws} {p p' : Proxy} {x : Sent}

theorem Proxy.step_service {ev : Event} (h : p.step env freed (.service ev) = some (p', x)) :
    ∃ out, FeedProxy.step env p.service ev = some (p'.service, out) ∧
      p.client.deliver env freed out = some (p'.client, x.written) ∧ x.pending = pendingOf ev out := by
  simp only [Proxy.step, Option.bind_eq_bind, Option.bind_eq_some_iff, Prod.exists,
    Option.some.injEq, Prod.mk.injEq] at h
  obtain ⟨service, out, hStep, client, written, hDeliver, rfl, rfl⟩ := h
  exact ⟨out, hStep, hDeliver, rfl⟩

theorem Proxy.step_connection {ws : Ws} (h : p.step env freed (.connection ws) = some (p', x)) :
    p'.service = p.service ∧ p.client.step freed (.connection ws) = some (p'.client, x.written) ∧
      x.pending = [] := by
  simp only [Proxy.step, Option.bind_eq_bind, Option.bind_eq_some_iff, Prod.exists,
    Option.some.injEq, Prod.mk.injEq] at h
  obtain ⟨client, written, hStep, rfl, rfl⟩ := h
  exact ⟨rfl, hStep, rfl⟩

theorem Proxy.step_resubTimer (h : p.step env freed .resubTimer = some (p', x)) :
    p' = p ∧ x.pending = [] := by
  simp only [Proxy.step, Option.bind_eq_bind, Option.bind_eq_some_iff, Prod.exists,
    Option.some.injEq, Prod.mk.injEq] at h
  obtain ⟨client, written, hStep, rfl, rfl⟩ := h
  rw [UwsClient.step_resubTimer hStep]
  exact ⟨rfl, rfl⟩

end

/-- What holds of the service over the client as long as no connection is dropped. -/
structure Proxy.Inv (p : Proxy) : Prop where
  counter : p.service.CounterOk
  client : p.client.Inv
  query : p.client.QueryInv
  dropped : p.client.disconWsQue = []

theorem Proxy.Inv.ready {p : Proxy} (hInv : p.Inv) (hRoom : p.client.HasRoom) : p.client.Ready := by
  refine ⟨hInv.client, ?_, ?_⟩
  · intro ws hIn
    rcases hInv.client.dropped ws hIn with hOpen | hDropped
    · exact hOpen
    · rw [hInv.dropped] at hDropped
      exact absurd hDropped List.not_mem_nil
  · obtain ⟨it, hIn, -⟩ := hRoom
    have hKey : it.1 ∈ p.client.allWsMap := List.mem_map_of_mem hIn
    have hQuery : p.client.queryWs ≠ none := fun hNone => (hInv.query.first hNone).2.2 it.1 hKey
    obtain ⟨ws, hWs⟩ := Option.ne_none_iff_exists'.mp hQuery
    exact ⟨ws, hWs, hInv.query.opened ws hWs⟩

theorem UwsClient.onConnection_que {u : UwsClient} (hQue : u.disconWsQue = []) (ws : Ws) :
    (u.onConnection ws).1.disconWsQue = [] := by
  rcases hQuery : u.queryWs with _ | queryWs
  · rw [UwsClient.onConnection_query hQue hQuery]
    exact hQue
  · rw [UwsClient.onConnection_first hQue hQuery]
    exact hQue

/-- **Step**: the invariant is kept. -/
theorem Proxy.Inv.step {env : Env} {freed : Ws → Ws} {p p' : Proxy} {ev : ProxyEvent} {x : Sent}
    (hInv : p.Inv) (h : p.step env freed ev = some (p', x)) : p'.Inv := by
  cases ev with
  | service ev =>
    obtain ⟨out, hStep, hDeliver, -⟩ := Proxy.step_service h
    obtain ⟨hClient, hKept⟩ := hInv.client.deliver hDeliver
    exact ⟨step_counterOk hInv.counter hStep, hClient, hInv.query.of_kept hKept,
      hKept.disconWsQue.trans hInv.dropped⟩
  | connection ws =>
    obtain ⟨hService, hStep, -⟩ := Proxy.step_connection h
    have hIdle : p.client.ReplacesIdle (.connection ws) := by
      intro disWs hHead
      rw [hInv.dropped] at hHead
      cases hHead
    have hKeeps : p.client.KeepsQuery (.connection ws) := trivial
    refine ⟨hService ▸ hInv.counter, hInv.client.step hIdle hStep, hInv.query.step hKeeps hStep, ?_⟩
    rw [(UwsClient.step_connection hStep).2]
    exact UwsClient.onConnection_que (u := { p.client with openWs := ws :: p.client.openWs })
      hInv.dropped ws
  | resubTimer =>
    obtain ⟨rfl, -⟩ := Proxy.step_resubTimer h
    exact hInv

/-- A request that has been converted is handled. -/
theorem processReq_handled {env : Env} {s s' : ConvertService} {conn : CContext}
    {reqStr : List UInt8} {out : List Out} {ret id : Int} {reqJson : ReqJson}
    (h : processReq env s conn reqStr = some (s', out, ret))
    (hConverted : protoReq2JsonReq env s.utils (nextReqId s.reqId) reqStr = some (some (id, reqJson)))
    (hPos : 0 ≤ id) :
    handleReq { s with reqId := nextReqId s.reqId } conn (UInt64.ofInt id) reqJson = (s', out) := by
  simp only [processReq, hConverted, if_neg (not_lt.mpr hPos), Option.some.injEq,
    Prod.mk.injEq] at h
  exact Prod.ext h.1 h.2.1

/-- What a request means upstream does not depend on the counter. -/
theorem movesUpstream_reqId (p : Proxy) (reqId : Int) (conn : CContext) (data : ReqData) :
    data.MovesUpstream ⟨{ p.service with reqId }, p.client⟩ conn ↔ data.MovesUpstream p conn := by
  cases data <;> rfl

theorem isInt_nextReqId {s : ConvertService} (h : s.CounterOk) : IsInt (nextReqId s.reqId) := by
  obtain ⟨hLow, hHigh⟩ := nextReqId_range h
  unfold reqIdStart at hLow
  unfold IsInt intMin intMax
  omega

/-- **Step**: what a request keeps has gone upstream exactly if the request moves something there. -/
theorem Proxy.Inv.step_covered {env : Env} {freed : Ws → Ws} {p p' : Proxy} {ev : ProxyEvent}
    {x : Sent} (hInv : p.Inv) (hRoom : FindsRoom p ev) (h : p.step env freed ev = some (p', x)) :
    x.Covered ↔ MovesUpstream env p ev := by
  cases ev with
  | service ev =>
    obtain ⟨out, hStep, hDeliver, hPending⟩ := Proxy.step_service h
    cases ev with
    | request conn reqStr =>
      simp only [FeedProxy.step, Option.map_eq_some_iff, Prod.exists] at hStep
      obtain ⟨service, out', ret, hReq, hEq⟩ := hStep
      obtain ⟨-, rfl⟩ := Prod.mk.inj hEq
      by_cases hConverted : ∃ id reqJson, protoReq2JsonReq env p.service.utils
          (nextReqId p.service.reqId) reqStr = some (some (id, reqJson)) ∧ 0 ≤ id
      · obtain ⟨id, reqJson, hConverted, hPos⟩ := hConverted
        obtain ⟨-, -, -, hReqid⟩ := protoReq2JsonReq_cases hConverted
        have hHandle := processReq_handled hReq hConverted hPos
        obtain rfl := congrArg Prod.snd hHandle
        have hIff := (hInv.ready hRoom).deliver_handled hRoom
          (s := { p.service with reqId := nextReqId p.service.reqId })
          (isInt_nextReqId hInv.counter) hReqid hDeliver
        rw [Sent.Covered, hPending]
        refine hIff.trans ((movesUpstream_reqId p _ conn reqJson.data).trans ?_)
        refine ⟨?_, fun h => h id reqJson hConverted hPos⟩
        intro hMoves id' reqJson' hConverted' _
        cases hConverted.symm.trans hConverted'
        exact hMoves
      · rcases processReq_cases hReq with ⟨-, rfl, -⟩ | ⟨id, reqJson, hHandled, hPos, -⟩
        · apply iff_of_true (Sent.covered_of_pending hPending)
          exact fun id reqJson hHandled hPos => absurd ⟨id, reqJson, hHandled, hPos⟩ hConverted
        · exact absurd ⟨id, reqJson, hHandled, hPos⟩ hConverted
    | _ => exact iff_of_true (Sent.covered_of_pending hPending) trivial
  | connection ws =>
    obtain ⟨-, -, hPending⟩ := Proxy.step_connection h
    exact iff_of_true (Sent.covered_of_pending hPending) trivial
  | resubTimer =>
    obtain ⟨-, hPending⟩ := Proxy.step_resubTimer h
    exact iff_of_true (Sent.covered_of_pending hPending) trivial

/-! ### Runs -/

/-- The ids that a request leaves pending are those that `m_id2ctxMap` gets for its connection. -/
def Records (env : Env) (freed : Ws → Ws) (p : Proxy) : ProxyEvent → Prop
  | .service (.request conn reqStr) =>
    ∀ p' x, p.step env freed (.service (.request conn reqStr)) = some (p', x) →
      ∀ i, p'.service.id2ctxMap.lookup i =
        if i ∈ x.pending then some (some conn) else p.service.id2ctxMap.lookup i
  | _ => True

theorem records (env : Env) (freed : Ws → Ws) (p : Proxy) (ev : ProxyEvent) :
    Records env freed p ev := by
  rcases ev with ev | ws | _
  · cases ev with
    | request conn reqStr =>
      intro p' x h i
      obtain ⟨out, hStep, -, hPending⟩ := Proxy.step_service h
      rw [hPending]
      exact (step_request hStep).1.pending i
    | _ => trivial
  · trivial
  · trivial

theorem Proxy.Inv.empty : Proxy.Inv {} :=
  ⟨.inl ⟨Int.le_refl _, by decide⟩, .empty, .empty, rfl⟩

/-- **Pending requests**: in a run that finds room at every request, every id that is kept has gone
upstream exactly if every request moves something there. -/
theorem run_pending {env : Env} {freed : Ws → Ws} {evs : List ProxyEvent} {p : Proxy}
    {outs : List Sent} (hRun : Machine.run (Proxy.step env freed) {} evs = some (p, outs))
    (hRoom : Machine.Along (Proxy.step env freed) FindsRoom {} evs) :
    Machine.Along (Proxy.step env freed) (Records env freed) {} evs ∧
      ((∀ x ∈ outs, x.Covered) ↔
        Machine.Along (Proxy.step env freed) (MovesUpstream env) {} evs) := by
  refine ⟨Machine.along_of_forall (records env freed), ?_⟩
  refine Machine.run_outputs (fun hInv hRoom hStep => ?_) Proxy.Inv.empty hRoom hRun
  exact ⟨hInv.step hStep, hInv.step_covered hRoom hStep⟩

/-- A page that lists an instrument, and its text. -/
def pageJson : Json :=
  .obj [("reqid", .int 3), ("reqtype", .int 52), ("data", .obj [("symbol", .arr [.obj
    [("market", .int 2011), ("code", .str "HSI"), ("tradecode", .str "HSI")]])])]

def pageText : String :=
  "\x7b\"reqid\":3,\"reqtype\":52,\"data\":\x7b\"symbol\":[\x7b\"market\":2011,\"code\":\"HSI\"," ++
    "\"tradecode\":\"HSI\"\x7d]\x7d\x7d"

/-- What is asked for after the page. -/
def nextPageJson : Json :=
  requestJson 52 3 "" (.obj [("marketid", .int 2015), ("idtype", .int 1), ("beginpos", .int 0),
    ("count", .int 1000), ("getquote", .int 0)])

/-- A subscription to the ticks of the instrument, and the carrier with it. -/
def ticksBytes : List UInt8 := [0x0A, 0x09, 0x08, 0x02, 0x10, 0x10, 0x1A, 0x03, 0x48, 0x53, 0x49]

def carrierBytes : List UInt8 := [0x08, 0x07, 0x18, 0x03, 0x4A, 0x0B] ++ ticksBytes

def pendingEnv : Env :=
  { deafEnv with
    parseCarrier := fun b => if b = carrierBytes then some ⟨7, .req, .subQuotes, ticksBytes⟩ else none
    parseSubQuotes := fun b => if b = ticksBytes then some [⟨2, 16, "HSI"⟩] else none
    parseJson := fun s =>
      if s = pageText then some pageJson
      else if s = queryInsFormat 2015 0 then some nextPageJson
      else none }

/-- A client that subscribes once the instrument is listed. -/
def oneClient : List ProxyEvent :=
  [.connection 1, .connection 2, .service (.response pageText), .service (.request 1 carrierBytes)]

theorem roomFor (ws ptr : Nat) {p : Proxy} {ev : ProxyEvent} {conn : WsConnections}
    (hStored : p.client.allWsMap.lookup ws = some (some ptr)) (hConn : p.client.conns[ptr]? = some conn)
    (hLess : conn.counts < perWsCodeNums) : FindsRoom p ev := by
  have hRoom : p.client.HasRoom :=
    ⟨⟨ws, some ptr⟩, AList.mem_lookup_iff.mp hStored, ptr, conn, rfl, hConn, hLess⟩
  unfold FindsRoom
  split
  · exact hRoom
  · trivial

-- the text of the page is compared character by character
set_option maxRecDepth 20000 in
theorem oneClient_room :
    Machine.Along (Proxy.step pendingEnv id) FindsRoom {}
      (oneClient ++ [.service (.request 2 carrierBytes)]) := by
  refine Machine.along_cons trivial rfl (Machine.along_cons trivial rfl (Machine.along_cons trivial rfl
    (Machine.along_cons ?_ rfl (Machine.along_cons ?_ rfl trivial))))
  · exact roomFor 2 0 rfl rfl (by decide)
  · exact roomFor 2 0 rfl rfl (by decide)

set_option maxRecDepth 20000 in
theorem run_pending_first :
    ∃ p outs, Machine.run (Proxy.step pendingEnv id) {} oneClient = some (p, outs) ∧
      Machine.Along (Proxy.step pendingEnv id) (Records pendingEnv id) {} oneClient ∧
      ((∀ x ∈ outs, x.Covered) ↔
        Machine.Along (Proxy.step pendingEnv id) (MovesUpstream pendingEnv) {} oneClient) := by
  exact ⟨_, _, rfl, @run_pending pendingEnv id oneClient _ _ rfl (Machine.along_append oneClient_room)⟩

set_option maxRecDepth 20000 in
/-- A second client subscribes to the same: nothing goes upstream. -/
theorem run_pending_second :
    ¬∀ (env : Env) (freed : Ws → Ws) (evs : List ProxyEvent) (p : Proxy) (outs : List Sent),
      Machine.run (Proxy.step env freed) {} evs = some (p, outs) →
      Machine.Along (Proxy.step env freed) FindsRoom {} evs → ∀ x ∈ outs, x.Covered := by
  intro h
  have hCovered := h pendingEnv id (oneClient ++ [.service (.request 2 carrierBytes)]) _ _ rfl
    oneClient_room ⟨[12], []⟩ (List.mem_of_getElem? (i := 4) rfl)
  obtain ⟨w, hIn, -⟩ := hCovered 12 List.mem_cons_self
  exact absurd hIn List.not_mem_nil

end DemoCode.FeedProxy
