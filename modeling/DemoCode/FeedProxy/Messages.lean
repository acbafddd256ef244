import DemoCode.FeedProxy.Json

/-! The messages of the `proto` files.  An enumeration that a client fills in is open, so what is
parsed keeps its number; the data of a carrier is bytes when it arrives, and the message that it
serializes when it is sent.  Fields that no conversion sets are left out. -/

namespace DemoCode.FeedProxy

inductive MsgType where
  | req
  | resp
  | push
  | other (n : Int)
  deriving DecidableEq, Repr

inductive ReqType where
  | unknown
  | heartbeat
  | allInsInfo
  | subQuotes
  | unsubQuotes
  | kLine
  | brokerInfo
  | tradeDate
  | pushQuotes
  | pushTicks
  | other (n : Int)
  deriving DecidableEq, Repr

/-- `MsgCarrier`. -/
structure MsgCarrier (δ : Type) where
  reqId : UInt64
  msgType : MsgType
  reqType : ReqType
  data : δ
  deriving DecidableEq, Repr

inductive Exchange where
  | unknown
  | shfe
  | dce
  | czce
  | cffex
  | ine
  | sse
  | szse
  | boce
  | sge
  | nymex
  | comex
  | cbot
  | cme
  | sgx
  | sehk
  | hkfe
  | ase
  deriving DecidableEq, Repr

def Exchange.toInt : Exchange → Int
  | .unknown => 0
  | .shfe => 1
  | .dce => 2
  | .czce => 3
  | .cffex => 4
  | .ine => 5
  | .sse => 6
  | .szse => 7
  | .boce => 8
  | .sge => 9
  | .nymex => 10
  | .comex => 11
  | .cbot => 12
  | .cme => 13
  | .sgx => 14
  | .sehk => 15
  | .hkfe => 16
  | .ase => 17

/-- The product types that `MarketId2ProductType` gives. -/
inductive ProductType where
  | unknown
  | stock
  | future
  | etf
  | currencyFuture
  | hkStockFuture
  | etfFuture
  deriving DecidableEq, Repr

inductive Currency where
  | unknown
  | cny
  | usd
  | hkd
  | eur
  | gbp
  | jpy
  deriving DecidableEq, Repr

/-! ### Requests -/

/-- `CodeInfo`. -/
structure CodeInfo where
  type : Int
  exchange : Int
  insId : String
  deriving DecidableEq, Repr

structure QueryKLine where
  type : Int
  exchange : Int
  insId : String
  startTime : String
  endTime : String
  deriving DecidableEq, Repr

structure QueryBroker where
  exchange : Int
  insId : String
  language : Int
  deriving DecidableEq, Repr

/-! ### Replies and pushes -/

structure InsInfo where
  exchange : Exchange := .unknown
  productCode : String := ""
  insId : String := ""
  deriving DecidableEq, Repr

structure PriceEntry where
  price : Num := 0
  volume : Num := 0
  deriving DecidableEq, Repr

structure QuoteInfo where
  insInfo : InsInfo := {}
  insName : String := ""
  insEnName : String := ""
  raiseLimit : Num := 0
  downLimit : Num := 0
  lastClose : Num := 0
  preSettlePrice : Num := 0
  lastHold : Num := 0
  «open» : Num := 0
  high : Num := 0
  low : Num := 0
  close : Num := 0
  lastPrice : Num := 0
  totalAmount : Num := 0
  totalVolume : Num := 0
  avgPrice : Num := 0
  time : String := ""
  millisecond : Int := 0
  hold : Num := 0
  settlePrice : Num := 0
  buyVolume : Num := 0
  sellVolume : Num := 0
  bids : List PriceEntry := []
  asks : List PriceEntry := []
  deriving DecidableEq, Repr

structure TickInfo where
  insInfo : InsInfo := {}
  price : Num := 0
  volume : Int := 0
  time : String := ""
  deriving DecidableEq, Repr

/-- `timeSpin`. -/
structure TimeSpin where
  start : Int
  «end» : Int
  deriving DecidableEq, Repr

/-- `QuoteBasicInfo`. -/
structure QuoteBasicInfo where
  productType : ProductType
  exchange : Exchange
  insId : String
  insName : String
  insEnName : String
  settleCurrency : Currency
  tradeCurrency : Currency
  productCode : String
  tradingTime : Option (List TimeSpin)
  lotSize : Int
  listingDate : String
  deliveryYear : Int
  deliveryMouth : Int
  startDeliveryDate : String
  deriving DecidableEq, Repr

structure KLineInfo where
  time : String := ""
  «open» : Num := 0
  high : Num := 0
  low : Num := 0
  close : Num := 0
  totalAmount : Num := 0
  totalVolume : Num := 0
  deriving DecidableEq, Repr

structure QueryKLineResp where
  errorCode : Int := 0
  errorMsg : String := ""
  insInfo : InsInfo := {}
  type : Int := 0
  data : List KLineInfo := []
  deriving DecidableEq, Repr

structure BrokerInfo where
  code : String
  name : String
  deriving DecidableEq, Repr

structure Brokers where
  level : Int
  info : List BrokerInfo
  deriving DecidableEq, Repr

structure QueryBrokerResp where
  insInfo : InsInfo := {}
  buy : List Brokers := []
  sell : List Brokers := []
  deriving DecidableEq, Repr

structure TradeDateInfo where
  exchange : Exchange
  date : List Int
  deriving DecidableEq, Repr

/-- The data of a carrier that is sent. -/
inductive Reply where
  | empty
  | heartbeat (errorCode : Int) (errorMsg serverTime : String)
  | subQuotes (errorCode : Int)
  | unSubQuotes (errorCode : Int)
  | kLine (res : QueryKLineResp)
  | quote (info : QuoteInfo)
  | tick (info : TickInfo)
  | broker (res : QueryBrokerResp)
  | tradeDate (data : List TradeDateInfo)
  | allInsInfo (errorCode : Int) (errorMsg : String) (data : List QuoteBasicInfo)
  deriving DecidableEq, Repr

end DemoCode.FeedProxy
