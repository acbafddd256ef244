import DemoCode.FeedProxy.Messages

/-! `ConvertUtils` of `convert_utils.h`: requests of clients become upstream requests, upstream
responses become carriers for clients.  The generated parsers, the JSON reader and the time
functions of the C library are the environment; an access that throws or leaves an array is
`none`.  The time zone has no daylight saving time: in one that has it, `mktime` would also read the
`tm_isdst` that the call before left in `timeInfo`. -/

namespace DemoCode.FeedProxy

/-- `tm`, as far as it is used. -/
structure Tm where
  tmYear : Int
  tmMon : Int
  tmMday : Int
  tmHour : Int
  tmMin : Int
  tmSec : Int
  deriving DecidableEq, Repr

/-- What the program takes from the libraries it uses.  Without daylight saving time `mktime` is a
function of the six fields. -/
structure Env where
  parseCarrier : List UInt8 → Option (MsgCarrier (List UInt8))
  parseHeartbeat : List UInt8 → Option Int
  parseSubQuotes : List UInt8 → Option (List CodeInfo)
  parseUnSubQuotes : List UInt8 → Option (List CodeInfo)
  parseQueryKLine : List UInt8 → Option QueryKLine
  parseQueryBroker : List UInt8 → Option QueryBroker
  parseJson : String → Option Json
  mktime : Tm → Int
  localtime : Int → Tm

/-- An environment in which nothing parses. -/
def deafEnv : Env where
  parseCarrier _ := none
  parseHeartbeat _ := none
  parseSubQuotes _ := none
  parseUnSubQuotes _ := none
  parseQueryKLine _ := none
  parseQueryBroker _ := none
  parseJson _ := none
  mktime _ := 0
  localtime _ := ⟨0, 0, 0, 0, 0, 0⟩

/-- 0 is push data, 1-9 are reserved for internal requests. -/
def reqIdStart : Int := 10

/-- The static members of `ConvertUtils`; a serialized message is kept as the message. -/
structure ConvertUtils where
  queryQuotesSymbol : List (Int × String) := []
  allInsInfoResProto : List QuoteBasicInfo := []
  queryAllInsResStr : List QuoteBasicInfo := []
  subChangeMap : Map String (Int × String) := ∅
  template : QuoteInfo := {}
  type2quoteMap : Map String QuoteInfo := ∅
  tradeDateProto : List TradeDateInfo := []
  market2timeMap : Map Int (List TimeSpin) := ∅
  type2insInfoMap : Map String InsInfo := ∅

/-! ### Conversions of single values -/

def marketId2Exchange (market : Int) : Exchange :=
  if market ∈ [2011, 2015, 2009, 2010] then .hkfe
  else if market ∈ [2002, 2031, 2005, 2003, 2004, 2000, 2001] then .sehk
  else if market ∈ [40001, 40002, 40003, 40004, 40005, 40006, 40007] then .ase
  else if market ∈ [50000, 50101, 50102, 50103, 50104, 50105, 50106, 50107, 50108, 50109, 50110] then
    .cbot
  else if market ∈ [50001, 51201, 51202, 51203, 51204, 51205, 51206] then .comex
  else if market ∈ [50002, 52301, 52302, 52303, 52304] then .nymex
  else if market ∈ [50003, 50004, 53401, 53402, 53403, 53404, 54501, 54502, 54503, 54504, 54505,
      54506, 54507, 54508, 54509, 54510] then .cme
  else if market ∈ [50005, 55601, 55602, 55603] then .sgx
  else .unknown

def marketId2ProductType (market : Int) : ProductType :=
  if market = 2015 then .etfFuture
  else if market = 2009 then .currencyFuture
  else if market = 2010 then .hkStockFuture
  else if market ∈ [2002, 2031, 2005, 2003, 2004, 2001, 40001, 40002, 40003, 40004, 40006, 40007] then
    .stock
  else if market ∈ [2000, 40005] then .etf
  else if market ∈ [2011, 50000, 50101, 50102, 50103, 50104, 50105, 50106, 50107, 50108, 50109,
      50110, 50001, 51201, 51202, 51203, 51204, 51205, 51206, 50002, 52301, 52302, 52303, 52304,
      50003, 50004, 53401, 53402, 53403, 53404, 54501, 54502, 54503, 54504, 54505, 54506, 54507,
      54508, 54509, 54510, 50005, 55601, 55602, 55603] then .future
  else .unknown

def currencyCode2type (currencyCode : String) : Currency :=
  if currencyCode = "CNY" then .cny
  else if currencyCode = "USD" then .usd
  else if currencyCode = "HKD" then .hkd
  else if currencyCode = "EUR" then .eur
  else if currencyCode = "GBP" then .gbp
  else if currencyCode = "JPY" then .jpy
  else .unknown

/-- The k-line types of the protocol with those of upstream. -/
def klineTypes : List (Int × Int) :=
  [(8, 1), (10, 4), (11, 2), (13, 5), (14, 6), (15, 3), (16, 7), (18, 10), (19, 11), (20, 20),
    (21, 21), (22, 30)]

def klineTypeConvert (type : Int) (direction : Int) : Int :=
  if direction = 0 then (klineTypes.lookup type).getD 0
  else ((klineTypes.map Prod.swap).lookup type).getD 0

/-- Minutes from midnight, eight hours on, as HHMMSS. -/
def calHumanTime (time : Int) : Int :=
  if time > 0 then
    (8 + time.tdiv 60).tmod 24 * 10000 + time.tmod 60 * 100
  else if time < 0 then
    let nowHour := 8 + time.tdiv 60
    let nowMin := time.tmod 60
    let nowHour := if nowHour < 0 then nowHour.tmod 24 + 24 else nowHour
    if nowMin ≠ 0 then
      let nowHour := if nowHour - 1 < 0 then nowHour - 1 + 24 else nowHour - 1
      nowHour * 10000 + (nowMin + 60) * 100
    else
      nowHour * 10000 + nowMin * 100
  else
    80000

/-- A number in a field of a width, as `%0*d` writes it. -/
def padded (pad : Char) (width : Nat) (n : Int) : String :=
  let digits := (toString n.natAbs).toList
  let sign := if n < 0 then ['-'] else []
  let fill := List.replicate (width - (sign.length + digits.length)) pad
  String.ofList (if pad = '0' then sign ++ fill ++ digits else fill ++ sign ++ digits)

/-- The positions that `TimeAdd` writes to `symbolPos`. -/
def symbolPositions (time : List Char) : List Nat :=
  (time.zipIdx.filter fun x => x.1 = '-' || x.1 = ' ' || x.1 = ':').map Prod.snd

/-- The result of an operation on `int`s; there is none when it overflows. -/
def intResult (n : Int) : Option Int := if intMin ≤ n ∧ n ≤ intMax then some n else none

/-- `addSeconds + addMinutes * 60 + addHours * 60 * 60`. -/
def addedSeconds (addHours addMinutes addSeconds : Int) : Option Int := do
  let minutes ← intResult (addMinutes * 60)
  let sum ← intResult (addSeconds + minutes)
  let hours ← intResult (addHours * 60)
  let hours ← intResult (hours * 60)
  intResult (sum + hours)

/-- A number of seconds that `system_clock` can hold: it counts nanoseconds in an `int64_t`. -/
def OnClock (t : Int) : Prop := -2 ^ 63 ≤ t * 10 ^ 9 ∧ t * 10 ^ 9 < 2 ^ 63

instance (t : Int) : Decidable (OnClock t) := inferInstanceAs (Decidable (_ ∧ _))

/-- The `time_point` of a number of seconds; there is none when it overflows. -/
def clockTime (t : Int) : Option Int := if OnClock t then some t else none

/-- `TimeAdd`, of a time YYYY-MM-DD HH:MM:SS; `symbolPos` has five places. -/
def timeAdd (env : Env) (time : String) (addHours addMinutes addSeconds : Int) : Option String :=
  let cs := time.toList
  match symbolPositions cs with
  | [p0, p1, p2, p3, p4] => do
    let field (start stop : Nat) : Int := atoi (String.ofList ((cs.take stop).drop start))
    let tmYear ← intResult (field 0 p0 - 1900)
    let tmMon ← intResult (field (p0 + 1) p1 - 1)
    let tp ← clockTime (env.mktime
      { tmYear
        tmMon
        tmMday := field (p1 + 1) p2
        tmHour := field (p2 + 1) p3
        tmMin := field (p3 + 1) p4
        tmSec := field (p4 + 1) cs.length })
    let seconds ← addedSeconds addHours addMinutes addSeconds
    let tt ← clockTime (tp + seconds)
    let localTm := env.localtime tt
    let sbuffer := padded ' ' 4 (localTm.tmYear + 1900) ++ "-" ++ padded '0' 2 (localTm.tmMon + 1) ++
      "-" ++ padded '0' 2 localTm.tmMday ++ " " ++ padded '0' 2 localTm.tmHour ++ ":" ++
      padded '0' 2 localTm.tmMin ++ ":" ++ padded '0' 2 localTm.tmSec
    some (String.ofList (sbuffer.toList.take 24))
  | ps => if ps.length < 5 then some "" else none

/-! ### Requests -/

/-- One element of the data of a subscription. -/
structure SubEntry where
  type : Int
  market : Int
  code : String
  deriving DecidableEq, Repr

/-- The data of an upstream request that a client's request is made into. -/
inductive ReqData where
  | heartbeat (connectionid : Int)
  | tradeDate
  | allInsInfo
  | sub (data : List SubEntry)
  | unsub (data : List SubEntry)
  | kLine (weight timetype klinetype : Int) (time0 time1 : String) (symbol : Option (Int × String))
  | broker (pushflag codecount language : Int) (symbol : Option (Int × String))
  deriving DecidableEq, Repr

/-- `reqJson["reqtype"]`. -/
def ReqData.reqtype : ReqData → Int
  | .heartbeat _ => 1
  | .tradeDate => 50
  | .allInsInfo => 52
  | .sub _ => 200
  | .unsub _ => 201
  | .kLine .. => 150
  | .broker .. => 76

structure ReqJson where
  reqid : Int
  session : String
  data : ReqData
  deriving DecidableEq, Repr

/-- The market and the code of an instrument that a client names. -/
def ConvertUtils.symbolOf (u : ConvertUtils) (exchange : Int) (insId : String) :
    Option (Int × String) :=
  u.subChangeMap.lookup (toString exchange ++ "|" ++ insId)

/-- The elements for the known ones of the named instruments. -/
def ConvertUtils.subEntries (u : ConvertUtils) (info : List CodeInfo) : List SubEntry :=
  info.filterMap fun i => (u.symbolOf i.exchange i.insId).map fun x => ⟨i.type, x.1, x.2⟩

/-- The data of the request that a carrier makes; `some none` is the return of -1. -/
def reqData (env : Env) (u : ConvertUtils) (mc : MsgCarrier (List UInt8)) :
    Option (Option ReqData) :=
  match mc.reqType with
  | .heartbeat => some ((env.parseHeartbeat mc.data).map .heartbeat)
  | .allInsInfo => some (some .allInsInfo)
  | .subQuotes => some ((env.parseSubQuotes mc.data).map fun info => .sub (u.subEntries info))
  | .unsubQuotes => some ((env.parseUnSubQuotes mc.data).map fun info => .unsub (u.subEntries info))
  | .kLine =>
    match env.parseQueryKLine mc.data with
    | none => some none
    | some q => do
      let time0 ← timeAdd env q.startTime (-8) 0 0
      let time1 ← timeAdd env q.endTime (-8) 0 0
      some (some (.kLine 0 0 (klineTypeConvert q.type 0) time0 time1 (u.symbolOf q.exchange q.insId)))
  | .brokerInfo =>
    some ((env.parseQueryBroker mc.data).map fun q =>
      .broker 0 1 (q.language - 1) (u.symbolOf q.exchange q.insId))
  | .tradeDate => some (some .tradeDate)
  | _ => some none

/-- `ProtoReq2JsonReq`: the request made, and the id that the client chose as an `int64_t`;
`some none` is the return of -1. -/
def protoReq2JsonReq (env : Env) (u : ConvertUtils) (reqid : Int) (reqProtoStr : List UInt8) :
    Option (Option (Int × ReqJson)) :=
  match env.parseCarrier reqProtoStr with
  | none => some none
  | some msgCarrier =>
    if msgCarrier.msgType ≠ .req then
      some none
    else
      (reqData env u msgCarrier).map fun data =>
        data.map fun data => (msgCarrier.reqId.toInt64.toInt, ⟨reqid, "", data⟩)

/-! ### Quotes -/

/-- `if(quoteJson.isMember(key)) quoteProto.set_…(quoteJson[key].as…())`. -/
def setMember {α β : Type} (quoteJson : Json) (key : String) (read : Json → Option α)
    (set : β → α → Option β) (proto : β) : Option β := do
  if ← quoteJson.isMember key then
    let value ← read (← quoteJson.get key)
    set proto value
  else
    some proto

/-- Set a price or a volume of a level, which has to be there. -/
def setLevel (i : Nat) (set : PriceEntry → Num → PriceEntry) (levels : List PriceEntry) (n : Num) :
    Option (List PriceEntry) :=
  if i < levels.length then some (levels.modify i fun level => set level n) else none

/-- The ten levels of one side of the book. -/
def setLevels (quoteJson : Json) (priceKey volKey : String) (levels : List PriceEntry) :
    Option (List PriceEntry) :=
  (List.range 10).foldlM (fun levels i => do
    let levels ← setMember quoteJson (priceKey ++ toString i) Json.asDouble
      (setLevel i fun level n => { level with price := n }) levels
    setMember quoteJson (volKey ++ toString i) Json.asDouble
      (setLevel i fun level n => { level with volume := n }) levels) levels

/-- The fields of a quote outside the book, in the order in which they are set. -/
def quoteFields (env : Env) (quoteJson : Json) : List (QuoteInfo → Option QuoteInfo) :=
  let double (key : String) (set : QuoteInfo → Num → QuoteInfo) :=
    setMember quoteJson key Json.asDouble fun q n => some (set q n)
  let string (key : String) (set : QuoteInfo → String → QuoteInfo) :=
    setMember quoteJson key Json.asString fun q s => some (set q s)
  let int (key : String) (set : QuoteInfo → Int → QuoteInfo) :=
    setMember quoteJson key Json.asInt fun q n => some (set q n)
  [int "market" fun q n => { q with insInfo := { q.insInfo with exchange := marketId2Exchange n } },
    string "commoditycode" fun q s => { q with insInfo := { q.insInfo with productCode := s } },
    string "name" fun q s => { q with insName := s },
    string "enname" fun q s => { q with insEnName := s },
    double "raiselimit" fun q n => { q with raiseLimit := n },
    double "downlimit" fun q n => { q with downLimit := n },
    double "lastclose" fun q n => { q with lastClose := n },
    double "lastsettle" fun q n => { q with preSettlePrice := n },
    double "open" fun q n => { q with «open» := n },
    double "high" fun q n => { q with high := n },
    double "low" fun q n => { q with low := n },
    double "now" fun q n => { q with close := n },
    double "now" fun q n => { q with lastPrice := n },
    double "amount" fun q n => { q with totalAmount := n },
    double "volume" fun q n => { q with totalVolume := n },
    double "avg" fun q n => { q with avgPrice := n },
    setMember quoteJson "time" Json.asString fun q s => do
      let time ← timeAdd env s 8 0 0
      some { q with time },
    int "millisecond" fun q n => { q with millisecond := n },
    double "hold" fun q n => { q with hold := n },
    double "lasthold" fun q n => { q with lastHold := n },
    double "settle" fun q n => { q with settlePrice := n },
    double "buyvolume" fun q n => { q with buyVolume := n },
    double "sellvolume" fun q n => { q with sellVolume := n }]

/-- `UpdateQuoteProtoByJson`. -/
def updateQuoteProtoByJson (env : Env) (template : QuoteInfo) (quoteJson : Json)
    (quoteProto : QuoteInfo) : Option QuoteInfo := do
  let quoteProto ←
    if quoteProto.bids.length < 10 ∨ quoteProto.asks.length < 10 then do
      let key := if ← quoteJson.isMember "tradecode" then "tradecode" else "code"
      let insId ← (← quoteJson.get key).asString
      some { template with insInfo := { template.insInfo with insId } }
    else
      some quoteProto
  let quoteProto ← (quoteFields env quoteJson).foldlM (fun q set => set q) quoteProto
  let bids ← setLevels quoteJson "buyprice" "buyvol" quoteProto.bids
  let asks ← setLevels quoteJson "sellprice" "sellvol" quoteProto.asks
  some { quoteProto with bids, asks }

/-! ### Responses -/

/-- `json[key].asInt()` and the like. -/
def Json.getInt (json : Json) (key : String) : Option Int := do (← json.get key).asInt

def Json.getString (json : Json) (key : String) : Option String := do (← json.get key).asString

/-- The elements that a loop from `start` up to `size()` visits. -/
def Json.elemsFrom (start : Nat) (json : Json) : Option (List Json) :=
  if json.size ≤ start then some []
  else
    match json with
    | .arr items => some (items.drop start)
    | _ => none

/-- `market|code`, from the members of an object. -/
def Json.marketCode (json : Json) : Option String := do
  let market ← json.getInt "market"
  let code ← json.getString "code"
  some (toString market ++ "|" ++ code)

/-- One instrument of an internal response to a query of instruments. -/
def addInsInfo (u : ConvertUtils) (info : Json) : Option ConvertUtils := do
  let market ← info.getInt "market"
  let code ← info.getString "code"
  let exchange := marketId2Exchange market
  let tradecode ← info.getString "tradecode"
  let tradecode := if tradecode.isEmpty then code else tradecode
  let insName ← info.getString "name"
  let insEnName ← info.getString "enname"
  let currency ← info.getString "currencycode"
  let productCode ← info.getString "commoditycode"
  let lotSize ← info.getInt "lotsize"
  let listingDate ← info.getString "listingdate"
  let expireDate ← info.getInt "expiredate"
  let oneInfo : QuoteBasicInfo :=
    { productType := marketId2ProductType market
      exchange
      insId := tradecode
      insName
      insEnName
      settleCurrency := currencyCode2type currency
      tradeCurrency := currencyCode2type currency
      productCode
      tradingTime := u.market2timeMap.lookup market
      lotSize
      listingDate
      deliveryYear := expireDate.tdiv 10000
      deliveryMouth := (expireDate.tmod 10000).tdiv 100
      startDeliveryDate := toString expireDate }
  some { u with
    allInsInfoResProto := u.allInsInfoResProto ++ [oneInfo]
    type2insInfoMap := u.type2insInfoMap.insert (toString market ++ "|" ++ code)
      ⟨exchange, productCode, tradecode⟩
    subChangeMap := u.subChangeMap.insert (toString exchange.toInt ++ "|" ++ tradecode)
      (market, code) }

/-- The numbers that stand before a `-` or a blank. -/
def dateVec (start : List Char) : List Char → List Int
  | [] => []
  | c :: cs =>
    if c = '-' ∨ c = ' ' then atoi (String.ofList start) :: dateVec [] cs
    else dateVec (start ++ [c]) cs

/-- One market of an internal response to a query of markets, and the exchanges that have their
trade dates already. -/
def addMarket (x : ConvertUtils × List Exchange) (market : Json) :
    Option (ConvertUtils × List Exchange) := do
  let (u, isWrite) := x
  let id ← market.getInt "market"
  let tradeTime ← (← (← market.get "openclosetime").elemsFrom 0).mapM fun period => do
    let start ← period.getInt "open"
    let stop ← period.getInt "close"
    some (⟨calHumanTime start, calHumanTime stop⟩ : TimeSpin)
  let u := { u with market2timeMap := u.market2timeMap.insert id tradeTime }
  let exchange := marketId2Exchange id
  if exchange ∈ isWrite then
    some (u, isWrite)
  else
    let dates ← (← (← market.get "tradetime").elemsFrom 0).mapM Json.asString
    let date := dates.filterMap fun s =>
      match dateVec [] s.toList with
      | y :: m :: d :: _ => some (wrap32 (y * 10000 + m * 100 + d))
      | _ => none
    some ({ u with tradeDateProto := u.tradeDateProto ++ [⟨exchange, date⟩] }, exchange :: isWrite)

/-- The response to an internal request; `some none` is the return of -1. -/
def internalRes (u : ConvertUtils) (reqType : Int) (resJson : Json) :
    Option (Option ConvertUtils) := do
  if reqType = 52 then
    let symbols ← (← (← resJson.get "data").get "symbol").elemsFrom 0
    some (some (← symbols.foldlM addInsInfo u))
  else if reqType = 50 then
    let markets ← (← (← resJson.get "data").get "market").elemsFrom 0
    some (some (← markets.foldlM addMarket (u, [])).1)
  else if reqType = 0 ∨ reqType = 200 ∨ reqType = 201 then
    some (some u)
  else
    some none

/-- The quotes that a client asked for, each of them a push of its own. -/
def quotesRes (env : Env) (u : ConvertUtils) (reqId : UInt64) (quotes : List Json) :
    Option (List (MsgCarrier Reply) × ConvertUtils) :=
  quotes.foldlM (fun (x : List (MsgCarrier Reply) × ConvertUtils) quote => do
    let quoteInfo ← updateQuoteProtoByJson env x.2.template quote {}
    let type ← quote.marketCode
    some (x.1 ++ [⟨reqId, .push, .pushQuotes, .quote quoteInfo⟩],
      { x.2 with type2quoteMap := x.2.type2quoteMap.insert type quoteInfo })) ([], u)

/-- One line of a k-line response; a short one is left empty. -/
def kLineInfo (dataArray : Json) : Option KLineInfo :=
  if dataArray.size < 7 then
    some {}
  else do
    some {
      time := ← (← dataArray.item 0).asString
      «open» := ← (← dataArray.item 1).asDouble
      high := ← (← dataArray.item 2).asDouble
      low := ← (← dataArray.item 3).asDouble
      close := ← (← dataArray.item 4).asDouble
      totalVolume := ← (← dataArray.item 5).asDouble
      totalAmount := ← (← dataArray.item 6).asDouble }

def kLineRes (u : ConvertUtils) (resJson : Json) : Option QueryKLineResp := do
  let status ← resJson.getInt "status"
  if status ≠ 0 then
    some { errorCode := status, errorMsg := ← resJson.getString "msg" }
  else
    let data ← resJson.get "data"
    match u.type2insInfoMap.lookup (← data.marketCode) with
    | none => some {}
    | some insInfo =>
      let type := klineTypeConvert (← data.getInt "klinetype") 1
      let lines ← (← data.get "kline").elemsFrom 1
      some { insInfo, type, data := ← lines.mapM kLineInfo }

/-- The brokers of one side of the queue. -/
def brokersRes (brokerArray : Json) : Option (List Brokers) := do
  (← brokerArray.elemsFrom 0).mapM fun oneLevel => do
    let level ← oneLevel.getInt "level"
    let info ← (← (← oneLevel.get "list").elemsFrom 0).mapM fun oneCode => do
      let code ← oneCode.getString "code"
      let name ← oneCode.getString "name"
      some (⟨code, name⟩ : BrokerInfo)
    some ⟨level, info⟩

def brokerRes (u : ConvertUtils) (resJson : Json) : Option QueryBrokerResp := do
  let data ← resJson.get "data"
  match u.type2insInfoMap.lookup (← data.marketCode) with
  | none => some {}
  | some insInfo =>
    some { insInfo, buy := ← brokersRes (← data.get "buy"), sell := ← brokersRes (← data.get "sell") }

/-- What a push of quotes carries: the merged quote, or nothing when the quote is unknown. -/
def pushQuotesRes (env : Env) (u : ConvertUtils) (resJson : Json) :
    Option (Option QuoteInfo × ConvertUtils) := do
  let symbol ← (← resJson.get "data").get "symbol"
  if symbol.isEmpty then
    some (none, u)
  else
    let oneQuoteInfo ← symbol.item 0
    let type ← oneQuoteInfo.marketCode
    match u.type2quoteMap.lookup type with
    | none => some (none, u)
    | some old =>
      let quoteInfo ← updateQuoteProtoByJson env u.template oneQuoteInfo old
      some (some quoteInfo, { u with type2quoteMap := u.type2quoteMap.insert type quoteInfo })

/-- What a push of a tick carries. -/
def pushTicksRes (env : Env) (u : ConvertUtils) (resJson : Json) : Option (Option TickInfo) := do
  let tick ← (← resJson.get "data").get "tick"
  if tick.isEmpty then
    some none
  else
    let oneTickInfo ← tick.item 0
    match u.type2insInfoMap.lookup (← oneTickInfo.marketCode) with
    | none => some none
    | some insInfo =>
      let price ← (← oneTickInfo.get "price").asDouble
      let volume ← oneTickInfo.getInt "volume"
      let time ← timeAdd env (← oneTickInfo.getString "time") 8 0 0
      some (some { insInfo, price, volume, time })

/-- The error code of the response to a subscription. -/
def subRet (resJson : Json) : Option Int := do
  some (atoi (← (← resJson.get "data").getString "ret"))

/-- The response to a request of a client, or a push; `some none` is the return of -1. -/
def externalRes (env : Env) (u : ConvertUtils) (reqId : Int) (reqType : Int) (resJson : Json) :
    Option (Option (List (MsgCarrier Reply) × ConvertUtils)) :=
  let id := UInt64.ofInt reqId
  let msgType : MsgType := if reqId = 0 then .push else .resp
  let one (mc : MsgCarrier Reply) (u : ConvertUtils) := some (some ([mc], u))
  if reqType = 1 ∨ reqType = 0 then do
    let status ← resJson.getInt "status"
    let serverTime ← resJson.getString "servertime"
    one ⟨id, msgType, .heartbeat, .heartbeat status "" serverTime⟩ u
  else if reqType = 153 then do
    let quotes ← (← (← resJson.get "data").get "symbol").elemsFrom 0
    some (some (← quotesRes env u id quotes))
  else if reqType = 200 then do
    one ⟨id, msgType, .subQuotes, .subQuotes (← subRet resJson)⟩ u
  else if reqType = 201 then do
    one ⟨id, msgType, .unsubQuotes, .unSubQuotes (← subRet resJson)⟩ u
  else if reqType = 150 then do
    one ⟨id, msgType, .kLine, .kLine (← kLineRes u resJson)⟩ u
  else if reqType = 250 then do
    match ← pushQuotesRes env u resJson with
    | (none, u) => one ⟨id, msgType, .unknown, .empty⟩ u
    | (some quoteInfo, u) => one ⟨id, .push, .pushQuotes, .quote quoteInfo⟩ u
  else if reqType = 251 then do
    match ← pushTicksRes env u resJson with
    | none => one ⟨id, msgType, .unknown, .empty⟩ u
    | some tickInfo => one ⟨id, .push, .pushTicks, .tick tickInfo⟩ u
  else if reqType = 76 then do
    one ⟨id, msgType, .brokerInfo, .broker (← brokerRes u resJson)⟩ u
  else
    some none

/-- The id that a response states, -1 when it states none. -/
def resReqId (resJson : Json) : Option Int := do
  if ← resJson.isMember "reqid" then
    let reqid ← resJson.get "reqid"
    if reqid.isInt then reqid.asInt else some (-1)
  else
    some (-1)

/-- `JsonRes2ProtoRes`: the id, the carriers, and the tables after it; `some none` is the return
of -1. -/
def jsonRes2ProtoRes (env : Env) (u : ConvertUtils) (resJson : Json) :
    Option (Option (Int × List (MsgCarrier Reply) × ConvertUtils)) := do
  let reqId ← resReqId resJson
  if reqId = -1 then
    some none
  else
    let reqType ← resJson.getInt "reqtype"
    if reqId < reqIdStart ∧ reqId > 0 then
      some ((← internalRes u reqType resJson).map fun u => (reqId, [], u))
    else
      some ((← externalRes env u reqId reqType resJson).map fun x => (reqId, x))

/-- What is converted has the id that it states; a reserved one makes no carriers, any other is a
push or the response to a request of a client. -/
theorem jsonRes2ProtoRes_cases {env : Env} {u u' : ConvertUtils} {resJson : Json} {reqId : Int}
    {msgs : List (MsgCarrier Reply)}
    (h : jsonRes2ProtoRes env u resJson = some (some (reqId, msgs, u'))) :
    resReqId resJson = some reqId ∧
      ((0 < reqId ∧ reqId < reqIdStart ∧ msgs = []) ∨
        (¬(0 < reqId ∧ reqId < reqIdStart) ∧ ∃ reqType, resJson.getInt "reqtype" = some reqType ∧
          externalRes env u reqId reqType resJson = some (some (msgs, u')))) := by
  simp only [jsonRes2ProtoRes, Option.bind_eq_bind, Option.bind_eq_some_iff] at h
  obtain ⟨id, hId, h⟩ := h
  by_cases hNone : id = -1
  · rw [if_pos hNone] at h
    cases h
  rw [if_neg hNone, Option.bind_eq_some_iff] at h
  obtain ⟨reqType, hType, h⟩ := h
  by_cases hInternal : id < reqIdStart ∧ id > 0
  · rw [if_pos hInternal, Option.bind_eq_some_iff] at h
    obtain ⟨inner, -, h⟩ := h
    simp only [Option.some.injEq, Option.map_eq_some_iff, Prod.mk.injEq] at h
    obtain ⟨-, -, rfl, rfl, -⟩ := h
    exact ⟨hId, .inl ⟨hInternal.2, hInternal.1, rfl⟩⟩
  · rw [if_neg hInternal, Option.bind_eq_some_iff] at h
    obtain ⟨outer, hOuter, h⟩ := h
    simp only [Option.some.injEq, Option.map_eq_some_iff, Prod.mk.injEq] at h
    obtain ⟨x, rfl, rfl, rfl⟩ := h
    exact ⟨hId, .inr ⟨fun hRange => hInternal ⟨hRange.2, hRange.1⟩, reqType, hType, hOuter⟩⟩

theorem jsonRes2ProtoRes_external {env : Env} {u u' : ConvertUtils} {resJson : Json} {reqId : Int}
    {msgs : List (MsgCarrier Reply)}
    (h : jsonRes2ProtoRes env u resJson = some (some (reqId, msgs, u')))
    (hReserved : ¬(0 < reqId ∧ reqId < reqIdStart)) :
    ∃ reqType, resJson.getInt "reqtype" = some reqType ∧
      externalRes env u reqId reqType resJson = some (some (msgs, u')) := by
  rcases (jsonRes2ProtoRes_cases h).2 with ⟨hPos, hLt, -⟩ | ⟨-, hExternal⟩
  · exact absurd ⟨hPos, hLt⟩ hReserved
  · exact hExternal

end DemoCode.FeedProxy
