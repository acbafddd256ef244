import DemoCode.Lib.Loop
import DemoCode.FeedProxy.CommonHdr
import DemoCode.FeedProxy.ConvertUtils

/-! `ConvertService` of `convert_service.cpp`: its members, and its callbacks as functions that give
the members after the call and what was handed to `SendReq`, `Send` and `Close`.  A call that
throws, leaves an array or does not return is `none`.  `ProcessRes` ends without a `return`; it is
taken to return there, and what it returns is not used. -/

namespace DemoCode.FeedProxy

/-- A connection, known by its address. -/
abbrev CContext := Nat

/-- A text or JSON value handed to `SendReq`. -/
inductive UpMsg where
  | req (reqJson : ReqJson)
  | queryQuotes (reqid getsyminfo : Int) (symbol : List (Int × String))
  | queryMarket (reqid : Int) (data : List Int)
  | text (msg : String)
  deriving DecidableEq, Repr

inductive Out where
  | sendReq (msg : UpMsg)
  | send (conn : CContext) (mc : MsgCarrier Reply)
  | close (conn : CContext)
  deriving DecidableEq, Repr

structure ConvertService where
  lastMsg : List UInt8 := []
  reqId : Int := reqIdStart
  id2ctxMap : Map Int (Option CContext) := ∅
  id2originalId : Map Int UInt64 := ∅
  vecPos : Nat := 0
  type2ctxsMap : Map String (Map CContext (Option CContext)) := ∅
  ctx2typeMap : Map CContext (List String) := ∅
  ctx2isLiveMap : Map CContext Bool := ∅
  utils : ConvertUtils := {}

/-- `Init`, as far as it is about the members: the template gets its levels. -/
def ConvertService.init : ConvertService where
  utils := { template := { bids := List.replicate 10 {}, asks := List.replicate 10 {} } }

/-- `m_marketVec`. -/
def marketVec : List Int :=
  [2011, 2015, 2009, 2010, 2002, 2031, 2005, 2003, 2004, 2000, 2001, 40007, 40001, 40002, 40003,
    40004, 40005, 40006, 50000, 50001, 50002, 50003, 50004, 50005, 50101, 50102, 50103, 50104,
    50105, 50106, 50107, 50108, 50109, 50110, 51201, 51202, 51203, 51204, 51205, 51206, 52301,
    52302, 52303, 52304, 53401, 53402, 53403, 53404, 54501, 54502, 54503, 54504, 54505, 54506,
    54507, 54508, 54509, 54510, 55601, 55602, 55603]

/-- `insert`, which keeps the value of a key that is there. -/
def Map.emplace {κ β : Type*} [DecidableEq κ] (m : Map κ β) (k : κ) (v : β) : Map κ β :=
  if k ∈ m then m else m.insert k v

/-! ### Texts -/

/-- The characters of a text that fit a number of bytes. -/
def truncated : Nat → List Char → List Char
  | _, [] => []
  | size, c :: cs => if c.utf8Size ≤ size then c :: truncated (size - c.utf8Size) cs else []

/-- `snprintf` to a buffer of 1024 bytes. -/
def snprintf1024 (s : String) : String := String.ofList (truncated 1023 s.toList)

/-- `%s` of the characters at `data()`, up to the first NUL. -/
def cStr (s : String) : String := String.ofList (s.toList.takeWhile (· ≠ '\x00'))

def heartbeatFormat : String :=
  "\x7b\"reqtype\":1,\"reqid\":1,\"session\":\"\",\"data\":\x7b\"connectionid\":1\x7d\x7d"

/-- `UN_SUB_FORMATS`. -/
def unSubFormat (market code type : String) : String :=
  "\x7b\"reqtype\":201,\"reqid\":2,\"session\":\"\",\"data\":[\x7b\"market\":" ++ market ++
    ",\"code\":\"" ++ code ++ "\",\"type\":" ++ type ++ "\x7d]\x7d"

/-- `QUERY_INS_FORMATS`. -/
def queryInsFormat (market beginpos : Int) : String :=
  "\x7b\"reqtype\":52,\"reqid\":3,\"session\":\"\",\"data\":\x7b\"marketid\":" ++ toString market ++
    ",\"idtype\":1,\"beginpos\":" ++ toString beginpos ++ ",\"count\":1000,\"getquote\":0\x7d\x7d"

def queryInsMsg (market beginpos : Int) : Out :=
  .sendReq (.text (snprintf1024 (queryInsFormat market beginpos)))

/-! ### Requests of clients -/

/-- `++m_reqId`, from the start again when it overflows. -/
def nextReqId (reqId : Int) : Int :=
  if wrap32 (reqId + 1) < 0 then reqIdStart else wrap32 (reqId + 1)

/-- `type|market|code`. -/
def SubEntry.key (e : SubEntry) : String :=
  toString e.type ++ "|" ++ toString e.market ++ "|" ++ e.code

/-- One element of a subscription, and the element again when upstream has to be told. -/
def subOne (conn : CContext) (s : ConvertService) (e : SubEntry) :
    ConvertService × List SubEntry :=
  let symbol := s.utils.queryQuotesSymbol
  let ctxs := (s.type2ctxsMap.lookup e.key).getD ∅
  ({ s with
    utils := { s.utils with
      queryQuotesSymbol := if toString e.type = "1" then symbol ++ [(e.market, e.code)] else symbol }
    type2ctxsMap := s.type2ctxsMap.insert e.key (Map.emplace ctxs conn (some conn))
    ctx2typeMap := s.ctx2typeMap.insert conn ((s.ctx2typeMap.lookup conn).getD [] ++ [e.key]) },
    if e.key ∈ s.type2ctxsMap then [] else [e])

/-- One element of the end of a subscription. -/
def unsubOne (conn : CContext) (s : ConvertService) (e : SubEntry) :
    ConvertService × List SubEntry :=
  match s.type2ctxsMap.lookup e.key with
  | none => (s, [])
  | some ctxs =>
    if conn ∈ ctxs then
      if (ctxs.erase conn).entries = [] then
        ({ s with type2ctxsMap := s.type2ctxsMap.erase e.key }, [e])
      else
        ({ s with type2ctxsMap := s.type2ctxsMap.insert e.key (ctxs.erase conn) }, [])
    else
      (s, [])

/-- The loop over the elements, with `realArray`. -/
def realArray (one : ConvertService → SubEntry → ConvertService × List SubEntry)
    (s : ConvertService) : List SubEntry → ConvertService × List SubEntry
  | [] => (s, [])
  | e :: es =>
    let rest := realArray one (one s e).1 es
    (rest.1, (one s e).2 ++ rest.2)

/-- The query of quotes that goes before a subscription, under the id after the next one. -/
def queryQuotes (conn : CContext) (s : ConvertService) : ConvertService × List Out :=
  if s.utils.queryQuotesSymbol = [] then
    (s, [])
  else
    let id := wrap32 (s.reqId + 1)
    ({ s with
      id2ctxMap := s.id2ctxMap.insert id (some conn)
      utils := { s.utils with queryQuotesSymbol := [] } },
      [.sendReq (.queryQuotes id 1 s.utils.queryQuotesSymbol)])

/-- The request goes upstream, and its id is kept with the connection. -/
def forward (conn : CContext) (ret : UInt64) (reqJson : ReqJson) (s : ConvertService) :
    ConvertService × List Out :=
  ({ s with
    id2ctxMap := s.id2ctxMap.insert s.reqId (some conn)
    id2originalId := s.id2originalId.insert s.reqId ret },
    [.sendReq (.req reqJson)])

/-- A subscription or the end of one, with the elements that upstream has to be told. -/
def forwardSub (conn : CContext) (ret : UInt64) (reqJson : ReqJson) (s : ConvertService) :
    ConvertService × List Out :=
  let quotes := queryQuotes conn s
  let sent := forward conn ret reqJson quotes.1
  (if quotes.2 = [] then sent.1 else { sent.1 with reqId := wrap32 (sent.1.reqId + 1) },
    quotes.2 ++ sent.2)

def localReply (conn : CContext) (ret : UInt64) (reqType : ReqType) (data : Reply) : List Out :=
  [.send conn ⟨ret, .resp, reqType, data⟩]

/-- What `ProcessReq` does with a request that has been converted. -/
def handleReq (s : ConvertService) (conn : CContext) (ret : UInt64) (reqJson : ReqJson) :
    ConvertService × List Out :=
  match reqJson.data with
  | .heartbeat _ => ({ s with ctx2isLiveMap := s.ctx2isLiveMap.insert conn true }, [])
  | .tradeDate => (s, localReply conn ret .tradeDate (.tradeDate s.utils.tradeDateProto))
  | .allInsInfo =>
    let data := if s.utils.queryAllInsResStr = [] then
        Reply.allInsInfo (-1) "Server has not query all instrument info" []
      else
        .allInsInfo 0 "" s.utils.queryAllInsResStr
    (s, localReply conn ret .allInsInfo data)
  | .sub data =>
    let real := realArray (subOne conn) s data
    forwardSub conn ret { reqJson with data := .sub real.2 } real.1
  | .unsub data =>
    let real := realArray (unsubOne conn) s data
    forwardSub conn ret { reqJson with data := .unsub real.2 } real.1
  | .kLine .. => forward conn ret reqJson s
  | .broker .. => forward conn ret reqJson s

/-- `ProcessReq`, with the value it returns. -/
def processReq (env : Env) (s : ConvertService) (conn : CContext) (reqStr : List UInt8) :
    Option (ConvertService × List Out × Int) :=
  let s := { s with reqId := nextReqId s.reqId }
  match protoReq2JsonReq env s.utils s.reqId reqStr with
  | none => none
  | some none => some (s, [], -1)
  | some (some (ret, reqJson)) =>
    if ret < 0 then
      some (s, [], -1)
    else
      let handled := handleReq s conn (UInt64.ofInt ret) reqJson
      some (handled.1, handled.2, 0)

/-! ### Reading -/

/-- What `OnLevReadDone` does as it reads: the header from a number of buffered bytes, a body of a
length from as many, the call of `ProcessReq`, and what that hands on. -/
inductive ReadStep where
  | header (buffered : Nat)
  | body (buffered : Nat) (dataLen : Int)
  | request (reqStr : List UInt8)
  | out (o : Out)
  deriving DecidableEq, Repr

/-- How reading goes wrong: a header is read past the end of the buffer, a string throws
`length_error`, or `ProcessReq` does not return. -/
inductive Fault where
  | overread
  | lengthError
  | handler
  deriving DecidableEq, Repr

/-- The comparison that ends the loop: the body is not there yet. -/
def bodyMissing (dataLen : Int) (size : Nat) : Bool :=
  decide (sizeT (wrap32 (dataLen + commonHdrLen)) > size)

/-- A body is taken out of the buffer and handed to `ProcessReq`. -/
def takeBody (env : Env) (conn : CContext) (s : ConvertService) (dataLen : Nat) :
    Loop.Pass ConvertService ReadStep (Except Fault ConvertService) :=
  let size := s.lastMsg.length
  let reqStr := (s.lastMsg.drop commonHdrLen).take dataLen
  let steps := [.header size, .body size dataLen, .request reqStr]
  match processReq env s conn reqStr with
  | none => .leave steps (.error .handler)
  | some (s', out, ret) =>
    let s'' := { s' with lastMsg := s'.lastMsg.drop (commonHdrLen + dataLen) }
    if ret < 0 then
      .leave (steps ++ out.map .out) (.ok { s' with lastMsg := [] })
    else if s''.lastMsg.length < commonHdrLen then
      .leave (steps ++ out.map .out) (.ok s'')
    else
      .again (steps ++ out.map .out) s''

/-- One pass of the `while (true)` of `OnLevReadDone`. -/
def readPass (env : Env) (conn : CContext) (s : ConvertService) :
    Loop.Pass ConvertService ReadStep (Except Fault ConvertService) :=
  let size := s.lastMsg.length
  let dataLen := (CommonHdr.read s.lastMsg).intLen
  if size < commonHdrLen then
    .leave [.header size] (.error .overread)
  else if bodyMissing dataLen size then
    .leave [.header size] (.ok s)
  else if dataLen < 0 then
    .leave [.header size, .body size dataLen] (.error .lengthError)
  else
    takeBody env conn s dataLen.toNat

theorem realArray_keeps {β : Type*} {f : ConvertService → β}
    {one : ConvertService → SubEntry → ConvertService × List SubEntry}
    (hOne : ∀ s e, f (one s e).1 = f s) (s : ConvertService) (es : List SubEntry) :
    f (realArray one s es).1 = f s := by
  induction es generalizing s with
  | nil => rfl
  | cons e es ih =>
    show f (realArray one (one s e).1 es).1 = f s
    rw [ih, hOne]

/-- The end of a subscription touches the subscriptions of keys only. -/
theorem unsubOne_keeps {β : Type*} {f : ConvertService → β}
    (hf : ∀ s m, f { s with type2ctxsMap := m } = f s) (conn : CContext) (s : ConvertService)
    (e : SubEntry) : f (unsubOne conn s e).1 = f s := by
  unfold unsubOne
  split
  · rfl
  split
  · split
    · exact hf _ _
    · exact hf _ _
  · rfl

theorem forwardSub_lastMsg (conn : CContext) (ret : UInt64) (reqJson : ReqJson)
    (s : ConvertService) : (forwardSub conn ret reqJson s).1.lastMsg = s.lastMsg := by
  unfold forwardSub queryQuotes
  split <;> simp [forward]

theorem handleReq_lastMsg (s : ConvertService) (conn : CContext) (ret : UInt64)
    (reqJson : ReqJson) : (handleReq s conn ret reqJson).1.lastMsg = s.lastMsg := by
  unfold handleReq
  split
  · rfl
  · rfl
  · rfl
  · rw [forwardSub_lastMsg]
    exact realArray_keeps (fun _ _ => rfl) _ _
  · rw [forwardSub_lastMsg]
    exact realArray_keeps (unsubOne_keeps (fun _ _ => rfl) conn) _ _
  · rfl
  · rfl

/-- `ProcessReq` does not touch the reassembly buffer. -/
theorem processReq_lastMsg {env : Env} {s s' : ConvertService} {conn : CContext}
    {reqStr : List UInt8} {out : List Out} {ret : Int}
    (h : processReq env s conn reqStr = some (s', out, ret)) : s'.lastMsg = s.lastMsg := by
  unfold processReq at h
  dsimp only at h
  split at h
  · cases h
  · cases h
    rfl
  split at h
  · cases h
    rfl
  · cases h
    exact handleReq_lastMsg _ _ _ _

theorem takeBody_again {env : Env} {conn : CContext} {s s' : ConvertService} {dataLen : Nat}
    {out : List ReadStep} (h : takeBody env conn s dataLen = .again out s') :
    s'.lastMsg = s.lastMsg.drop (commonHdrLen + dataLen) := by
  unfold takeBody at h
  dsimp only at h
  split at h
  · cases h
  rename_i hReq
  split at h
  · cases h
  split at h
  · cases h
  · cases h
    rw [processReq_lastMsg hReq]

theorem readPass_again {env : Env} {conn : CContext} {s s' : ConvertService} {out : List ReadStep}
    (h : readPass env conn s = .again out s') : s'.lastMsg.length < s.lastMsg.length := by
  unfold readPass at h
  dsimp only at h
  split at h
  · cases h
  rename_i hSize
  split at h
  · cases h
  split at h
  · cases h
  · rw [takeBody_again h, List.length_drop]
    unfold commonHdrLen at hSize ⊢
    omega

def readLoop (env : Env) (conn : CContext) :
    Loop.Body ConvertService ReadStep (Except Fault ConvertService) where
  pass := readPass env conn
  measure s := s.lastMsg.length
  lowers := readPass_again

/-- The bytes of a read event; their number is that of `evbuffer_get_length`, in 32 bits. -/
abbrev RecvData := {data : List UInt8 // data.length < 2 ^ 32}

/-- `max_size` of `std::string`. -/
def stringMaxSize : Nat := 2 ^ 63 - 2

/-- `OnLevReadDone`. -/
def onLevReadDone (env : Env) (s : ConvertService) (conn : CContext) (recvData : RecvData) :
    List ReadStep × Except Fault ConvertService :=
  if stringMaxSize < (s.lastMsg ++ recvData.val).length then
    ([], .error .lengthError)
  else
    (readLoop env conn).exec { s with lastMsg := s.lastMsg ++ recvData.val }

/-! ### Disconnects and timers -/

/-- The parts of a key, cut at every `|`. -/
def splitKey (start : List Char) : List Char → List String
  | [] => [String.ofList start]
  | c :: cs => if c = '|' then String.ofList start :: splitKey [] cs else splitKey (start ++ [c]) cs

/-- The text that ends a subscription upstream. -/
def unsubMsg (key : String) : List Out :=
  match splitKey [] key.toList with
  | type :: market :: code :: _ =>
    [.sendReq (.text (snprintf1024 (unSubFormat (cStr market) (cStr code) (cStr type))))]
  | _ => []

/-- One key of the list of a connection that is gone. -/
def disconnectKey (conn : CContext) (s : ConvertService) (key : String) :
    ConvertService × List Out :=
  match s.type2ctxsMap.lookup key with
  | none => (s, [])
  | some ctxs =>
    ({ s with type2ctxsMap := s.type2ctxsMap.insert key (ctxs.erase conn) },
      if (ctxs.erase conn).entries = [] then unsubMsg key else [])

/-- The loop over a list, with what is handed on at each element. -/
def eachOut {α : Type} (one : ConvertService → α → ConvertService × List Out) (s : ConvertService) :
    List α → ConvertService × List Out
  | [] => (s, [])
  | x :: xs => ((eachOut one (one s x).1 xs).1, (one s x).2 ++ (eachOut one (one s x).1 xs).2)

theorem eachOut_keeps {α : Type} {β : Type*} {f : ConvertService → β}
    {one : ConvertService → α → ConvertService × List Out} (hOne : ∀ s x, f (one s x).1 = f s)
    (s : ConvertService) (xs : List α) : f (eachOut one s xs).1 = f s := by
  induction xs generalizing s with
  | nil => rfl
  | cons x xs ih =>
    show f (eachOut one (one s x).1 xs).1 = f s
    rw [ih, hOne]

theorem eachOut_forall {α : Type} {P : Out → Prop}
    {one : ConvertService → α → ConvertService × List Out} (hOne : ∀ s x, ∀ o ∈ (one s x).2, P o)
    (s : ConvertService) (xs : List α) : ∀ o ∈ (eachOut one s xs).2, P o := by
  induction xs generalizing s with
  | nil => exact fun o hIn => absurd hIn List.not_mem_nil
  | cons x xs ih =>
    intro o hIn
    rcases List.mem_append.mp hIn with hFirst | hRest
    · exact hOne s x o hFirst
    · exact ih _ o hRest

/-- `OnLevDisConnect`. -/
def onLevDisConnect (s : ConvertService) (conn : CContext) : ConvertService × List Out :=
  match s.ctx2typeMap.lookup conn with
  | none => (s, [])
  | some keyVec => eachOut (disconnectKey conn) s keyVec

/-- `OnLevAccept`. -/
def onLevAccept (s : ConvertService) (conn : CContext) : ConvertService :=
  { s with ctx2isLiveMap := s.ctx2isLiveMap.insert conn true }

/-- One connection in `CheckClientAlive`. -/
def checkOne (s : ConvertService) (it : Σ _ : CContext, Bool) : ConvertService × List Out :=
  if it.2 then
    ({ s with ctx2isLiveMap := s.ctx2isLiveMap.insert it.1 false }, [])
  else
    let gone := onLevDisConnect s it.1
    ({ gone.1 with
      id2ctxMap := gone.1.id2ctxMap.erase it.1
      ctx2isLiveMap := gone.1.ctx2isLiveMap.erase it.1 },
      gone.2 ++ [.close it.1])

/-- `CheckClientAlive`. -/
def checkClientAlive (s : ConvertService) : ConvertService × List Out :=
  eachOut checkOne s s.ctx2isLiveMap.entries

/-- `OnSendHeartbeatTimer`. -/
def onSendHeartbeatTimer (s : ConvertService) : ConvertService × List Out :=
  ((checkClientAlive s).1, (checkClientAlive s).2 ++ [.sendReq (.text heartbeatFormat)])

/-- `OnQueryInsInfoTimer`. -/
def onQueryInsInfoTimer : List Out :=
  [.sendReq (.queryMarket 4 marketVec), queryInsMsg 2011 0]

/-! ### Responses from upstream -/

/-- The inner loop over the converted messages, which also moves on among the connections; past
their end there is nothing to go on from. -/
def sendEach : List (MsgCarrier Reply) → List (Σ _ : CContext, Option CContext) →
    List Out × Option (List (Σ _ : CContext, Option CContext))
  | [], it => ([], some it)
  | mc :: msgs, ⟨_, some conn⟩ :: it => (.send conn mc :: (sendEach msgs it).1, (sendEach msgs it).2)
  | _ :: _, _ => ([], none)

/-- One pass of the loop over the connections of a key. -/
def fanOutPass (msgs : List (MsgCarrier Reply))
    (t : Map CContext (Option CContext) × List (Σ _ : CContext, Option CContext)) :
    Loop.Pass (Map CContext (Option CContext) × List (Σ _ : CContext, Option CContext)) Out
      (Option (Map CContext (Option CContext))) :=
  match t with
  | (ctxs, []) => .leave [] (some ctxs)
  | (ctxs, ⟨ctx, none⟩ :: it) => .again [] (ctxs.erase ctx, it)
  | (ctxs, it) =>
    match sendEach msgs it with
    | (out, none) => .leave out none
    | (out, some it') => .again out (ctxs, it')

/-- The loop over the connections of a key. -/
def fanOut (msgs : List (MsgCarrier Reply)) (ctxs : Map CContext (Option CContext)) :
    Option (Map CContext (Option CContext) × List Out) :=
  match Loop.run (fanOutPass msgs) (ctxs.entries.length + 1) (ctxs, ctxs.entries) with
  | some (out, some ctxs') => some (ctxs', out)
  | _ => none

/-- The key of a push, or nothing when its array is empty. -/
def pushKey (resJson : Json) : Option (Option String) := do
  let reqType ← resJson.getInt "reqtype"
  let keyOf (prefixed : String) (info : Json) := do
    let market ← info.getString "market"
    let code ← info.getString "code"
    some (some (prefixed ++ market ++ "|" ++ code))
  if reqType = 250 ∨ reqType = 251 then
    let infoArry ← (← resJson.get "data").get (if reqType = 250 then "symbol" else "tick")
    if infoArry.isEmpty then some none
    else keyOf (if reqType = 250 then "1|" else "2|") (← infoArry.item 0)
  else if reqType = 252 then
    keyOf "4|" (← resJson.get "data")
  else
    some (some "")

def processPush (s : ConvertService) (resJson : Json) (msgs : List (MsgCarrier Reply)) :
    Option (ConvertService × List Out) := do
  match ← pushKey resJson with
  | none => some (s, [])
  | some key =>
    match s.type2ctxsMap.lookup key with
    | none => some (s, [])
    | some ctxs =>
      let (ctxs', out) ← fanOut msgs ctxs
      some ({ s with type2ctxsMap := s.type2ctxsMap.insert key ctxs' }, out)

/-- A page of instruments asks for the next one, in this market or the next. -/
def processInsRes (s : ConvertService) (resJson : Json) : Option (ConvertService × List Out) := do
  if s.vecPos < marketVec.length then
    let data ← resJson.get "data"
    let beginpos ← data.getInt "beginpos"
    let totalCount ← data.getInt "totalcount"
    if wrap32 (beginpos + 1000) ≥ totalCount then
      let market ← marketVec[s.vecPos + 1]?
      some ({ s with vecPos := s.vecPos + 1 }, [queryInsMsg market 0])
    else
      let market ← marketVec[s.vecPos]?
      some (s, [queryInsMsg market (wrap32 (beginpos + 1000))])
  else
    some ({ s with utils :=
      { s.utils with queryAllInsResStr := s.utils.allInsInfoResProto } }, [])

/-- The reply to a request goes to the connection that is kept with its id. -/
def processReply (s : ConvertService) (reqId : Int) (msgs : List (MsgCarrier Reply)) :
    ConvertService × List Out :=
  match s.id2ctxMap.lookup reqId with
  | none => (s, [])
  | some ctx =>
    ({ s with id2ctxMap := s.id2ctxMap.erase reqId },
      match ctx with
      | none => []
      | some conn => msgs.map (.send conn))

/-- `ProcessRes`. -/
def processRes (env : Env) (s : ConvertService) (res : String) :
    Option (ConvertService × List Out) :=
  match env.parseJson res with
  | none => some (s, [])
  | some resJson => do
    match ← jsonRes2ProtoRes env s.utils resJson with
    | none => some (s, [])
    | some (reqId, msgs, utils) =>
      let s := { s with utils }
      if reqId = 1 ∨ reqId = 2 then some (s, [])
      else if reqId = 3 then processInsRes s resJson
      else if reqId = 4 ∨ reqId = 5 then some (s, [])
      else if reqId = 0 then processPush s resJson msgs
      else some (processReply s reqId msgs)

end DemoCode.FeedProxy
