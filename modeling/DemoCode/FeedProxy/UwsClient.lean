import DemoCode.Lib.Machine
import DemoCode.FeedProxy.Upstream

/-! `UwsClient` of `uws_client_multi_recon.h`: requests are spread over connections to the same
server, and a new connection takes the place of one that was dropped.  Its tables hold pointers to
shared connections, which are known by the order in which they were made; what the hub keeps open is
part of the state, and an access to a null pointer is `none`.  The end of a subscription in `SendReq` has
no `return`; it is taken to return there, without a value. -/

namespace DemoCode.FeedProxy

/-- `uWS::WebSocket`, known by its address. -/
abbrev Ws := Nat

structure WsConnections where
  ws : Ws
  counts : Int
  deriving DecidableEq, Repr

/-- A message written to a connection. -/
structure Written where
  ws : Ws
  msg : Json

/-- The tables, `subTemplate["reqid"]`, the connections made so far, and those the hub has open. -/
structure UwsClient where
  symbol2conMap : Map String (Option Nat) := ∅
  con2symbolMap : Map Ws (List String) := ∅
  allWsMap : Map Ws (Option Nat) := ∅
  disconWsQue : List Ws := []
  queryWs : Option Ws := none
  subReqid : Option Int := none
  conns : List WsConnections := []
  openWs : List Ws := []

/-- `PER_WS_CODE_NUMS`. -/
def perWsCodeNums : Int := 8

/-- `subTemplate`, `resubTemplate` and `unsubTemplate`. -/
def subMsg (reqtype : Int) (reqid : Option Int) (data : List Json) : Json :=
  .obj (("data", .arr data) :: ("reqtype", .int reqtype) ::
    (reqid.map fun reqid => ("reqid", .int reqid)).toList)

/-- What a loop up to `size()` reads. -/
def Json.items (json : Json) : List (Option Json) := (List.range json.size).map json.item

/-- The element that a key was made of; a key of less than three parts has none. -/
def keyJson (key : String) : Option Json :=
  match splitKey [] key.toList with
  | type :: market :: code :: _ =>
    some (.obj [("type", .int (atoi type)), ("market", .int (atoi market)), ("code", .str code)])
  | _ => none

namespace UwsClient

/-- `SendReq` of a connection that is there. -/
def sendTo (u : UwsClient) (ws : Ws) (msg : Json) : List Written :=
  if ws ∈ u.openWs then [⟨ws, msg⟩] else []

/-- What a connection holds. -/
def symbolsOf (u : UwsClient) (ws : Ws) : List String := (u.con2symbolMap.lookup ws).getD []

def addCounts (u : UwsClient) (ptr : Nat) (n : Int) : UwsClient :=
  { u with conns := u.conns.modify ptr fun conn => { conn with counts := conn.counts + n } }

/-! ### Requests -/

/-- One element of a subscription, on a connection. -/
def subTake (ptr : Nat) (info : Json) (u : UwsClient) : Option UwsClient := do
  let conn ← u.conns[ptr]?
  let symbol ← info.entryKey
  some { u.addCounts ptr 1 with
    symbol2conMap := u.symbol2conMap.insert symbol (some ptr)
    con2symbolMap := u.con2symbolMap.insert conn.ws ((u.symbolsOf conn.ws).insert symbol) }

/-- The elements of a subscription that a connection takes. -/
def subTakes (ptr : Nat) : List (Option Json) → UwsClient → Option (UwsClient × List Json)
  | [], u => some (u, [])
  | info :: rest, u => do
    let info ← info
    let (u, data) ← subTakes ptr rest (← u.subTake ptr info)
    some (u, info :: data)

/-- One connection in the loop of a subscription, with the elements that are left. -/
def subOn (reqid : Option Int) (con : Option Nat) (todo : List (Option Json)) (u : UwsClient) :
    Option (UwsClient × List Written × List (Option Json)) := do
  let ptr ← con
  let conn ← u.conns[ptr]?
  let canSubNums := perWsCodeNums - conn.counts
  if canSubNums ≤ 0 then
    some (u, [], todo)
  else
    let reqid ← reqid
    let (u, data) ← subTakes ptr (todo.take canSubNums.toNat) { u with subReqid := some reqid }
    some (u, u.sendTo conn.ws (subMsg 200 reqid data), todo.drop canSubNums.toNat)

/-- The loop of a subscription over the connections. -/
def subLoop (reqid : Option Int) : List (Σ _ : Ws, Option Nat) → List (Option Json) → UwsClient →
    Option (UwsClient × List Written × List (Option Json))
  | [], todo, u => some (u, [], todo)
  | it :: its, todo, u =>
    if todo.isEmpty then
      some (u, [], todo)
    else do
      let (u, out, todo) ← u.subOn reqid it.2 todo
      let (u, out', todo) ← subLoop reqid its todo u
      some (u, out ++ out', todo)

/-- One element of the end of a subscription.  The connection is read once more after the entry that
holds it has been erased; `freed` is the address that is found then. -/
def unsubTake (freed : Ws → Ws) (reqid : Option Int) (info : Option Json) (u : UwsClient) :
    Option (UwsClient × List Written) := do
  let info ← info
  let symbol ← info.entryKey
  match u.symbol2conMap.lookup symbol with
  | none => some (u, [])
  | some con =>
    let reqid ← reqid
    let ptr ← con
    let conn ← u.conns[ptr]?
    let ws := freed conn.ws
    some ({ u.addCounts ptr (-1) with
      symbol2conMap := u.symbol2conMap.erase symbol
      con2symbolMap := match u.con2symbolMap.lookup ws with
        | none => u.con2symbolMap
        | some symbols => u.con2symbolMap.insert ws (symbols.erase symbol) },
      u.sendTo conn.ws (subMsg 201 reqid [info]))

/-- The loop of the end of a subscription. -/
def unsubLoop (freed : Ws → Ws) (reqid : Option Int) : List (Option Json) → UwsClient →
    Option (UwsClient × List Written)
  | [], u => some (u, [])
  | info :: rest, u => do
    let (u, out) ← u.unsubTake freed reqid info
    let (u, out') ← unsubLoop freed reqid rest u
    some (u, out ++ out')

/-- The same message to every connection. -/
def sendAll (u : UwsClient) (msg : Json) : List (Option Nat) → Option (List Written)
  | [] => some []
  | con :: cons => do
    let ptr ← con
    let conn ← u.conns[ptr]?
    some (u.sendTo conn.ws msg ++ (← u.sendAll msg cons))

/-- A message to `queryWs`. -/
def sendQuery (u : UwsClient) (msg : Json) : List Written :=
  match u.queryWs with
  | none => []
  | some ws => u.sendTo ws msg

/-- `SendReq`, with what it returns; the end of a subscription returns nothing. -/
def sendReq (freed : Ws → Ws) (u : UwsClient) (reqJson : Json) :
    Option (UwsClient × List Written × Option Int) := do
  let reqType ← reqJson.getInt "reqtype"
  if reqType = 200 then
    let data ← reqJson.get "data"
    let (u, out, todo) ← u.subLoop (reqJson.getInt "reqid") u.allWsMap.entries data.items
    some (u, out, some (if todo.isEmpty then 0 else -1))
  else if reqType = 201 then
    let data ← reqJson.get "data"
    let (u, out) ← u.unsubLoop freed (reqJson.getInt "reqid") data.items
    some (u, out, none)
  else
    let beats ← if reqType = 1 then u.sendAll reqJson (u.allWsMap.entries.map Sigma.snd) else some []
    let query := u.sendQuery reqJson
    some (u, beats ++ query, some (if query.isEmpty then -1 else 0))

/-- `Resub`. -/
def resub (u : UwsClient) : List (Σ _ : String, Option Nat) → Option (List Written)
  | [] => some []
  | it :: its =>
    match keyJson it.1 with
    | none => u.resub its
    | some info => do
      let ptr ← it.2
      let conn ← u.conns[ptr]?
      some (u.sendTo conn.ws (subMsg 200 (some 5) [info]) ++ (← u.resub its))

/-! ### Connections -/

/-- `std::make_shared<WsConnections>(ws, counts)`, put into `allWsMap` unless there is one. -/
def insertWs (u : UwsClient) (ws : Ws) (counts : Int) : UwsClient :=
  { u with
    conns := u.conns ++ [⟨ws, counts⟩]
    allWsMap := Map.emplace u.allWsMap ws (some u.conns.length) }

/-- One symbol of a dropped connection; `allWsMap[ws]` makes a null entry where there is none. -/
def moveSymbol (ws : Ws) (u : UwsClient) (symbol : String) : UwsClient :=
  let allWsMap := Map.emplace u.allWsMap ws none
  { u with
    allWsMap
    symbol2conMap := u.symbol2conMap.insert symbol ((allWsMap.lookup ws).getD none) }

/-- The subscription of a symbol on the new connection. -/
def moveMsg (u : UwsClient) (ws : Ws) (symbol : String) : Option Written :=
  (keyJson symbol).map fun info => ⟨ws, subMsg 200 u.subReqid [info]⟩

/-- The callback of `onConnection`. -/
def onConnection (u : UwsClient) (ws : Ws) : UwsClient × List Written :=
  match u.disconWsQue with
  | [] =>
    match u.queryWs with
    | none => ({ u with queryWs := some ws }, [])
    | some _ => (u.insertWs ws 0, [])
  | disWs :: rest =>
    let tempSet := u.symbolsOf disWs
    let popped := { u with disconWsQue := rest, con2symbolMap := u.con2symbolMap.erase disWs }
    let moved := tempSet.foldl (moveSymbol ws) popped
    let erased := { moved with
      con2symbolMap := moved.con2symbolMap.insert ws tempSet
      allWsMap := moved.allWsMap.erase disWs }
    (erased.insertWs ws tempSet.length, tempSet.filterMap (u.moveMsg ws))

/-- The callback of `onDisconnection`. -/
def onDisconnection (u : UwsClient) (ws : Ws) : UwsClient :=
  { u with disconWsQue := u.disconWsQue ++ [ws] }

end UwsClient

/-- What happens to a client: the hub connects an address that is not in use, or drops one that is,
a request comes, or the timer for subscriptions. -/
inductive ClientEvent where
  | connection (ws : Ws)
  | disconnection (ws : Ws)
  | request (reqJson : Json)
  | resubTimer

/-- A step, with what is written. -/
def UwsClient.step (freed : Ws → Ws) (u : UwsClient) :
    ClientEvent → Option (UwsClient × List Written)
  | .connection ws =>
    if ws ∈ u.openWs then none else some ({ u with openWs := ws :: u.openWs }.onConnection ws)
  | .disconnection ws =>
    if ws ∈ u.openWs then
      some ({ u with openWs := u.openWs.erase ws }.onDisconnection ws, [])
    else
      none
  | .request reqJson => (u.sendReq freed reqJson).map fun x => (x.1, x.2.1)
  | .resubTimer => (u.resub u.symbol2conMap.entries).map fun out => (u, out)

/-! ### What a step can do -/

namespace UwsClient

variable {freed : Ws → Ws} {u u' : UwsClient} {out : List Written}

theorem step_connection {ws : Ws} (h : u.step freed (.connection ws) = some (u', out)) :
    ws ∉ u.openWs ∧ u' = ({ u with openWs := ws :: u.openWs }.onConnection ws).1 := by
  rw [UwsClient.step] at h
  split at h
  · cases h
  · rename_i hClosed
    exact ⟨hClosed, (congrArg Prod.fst (Option.some.inj h)).symm⟩

theorem step_disconnection {ws : Ws} (h : u.step freed (.disconnection ws) = some (u', out)) :
    ws ∈ u.openWs ∧ u' = { u with openWs := u.openWs.erase ws }.onDisconnection ws := by
  rw [UwsClient.step] at h
  split at h
  · rename_i hOpen
    exact ⟨hOpen, (congrArg Prod.fst (Option.some.inj h)).symm⟩
  · cases h

theorem step_request {reqJson : Json} (h : u.step freed (.request reqJson) = some (u', out)) :
    ∃ ret, u.sendReq freed reqJson = some (u', out, ret) := by
  obtain ⟨⟨u'', out', ret⟩, hSend, hEq⟩ := Option.map_eq_some_iff.mp h
  cases hEq
  exact ⟨ret, hSend⟩

theorem step_resubTimer (h : u.step freed .resubTimer = some (u', out)) : u' = u := by
  obtain ⟨out', -, hEq⟩ := Option.map_eq_some_iff.mp h
  cases hEq
  rfl

end UwsClient

end DemoCode.FeedProxy
