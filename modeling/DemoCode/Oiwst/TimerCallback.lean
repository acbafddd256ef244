import DemoCode.FeedProxy.Json
import DemoCode.Lib.Machine

/-! `TimerCallback` of `oiwst`: on every tick it reads the table of orders, and for each order that was
not sent yet it updates the status, inserts a confirmation, and inserts the deals, each with a command
of its own.  It returns at the first command that fails. -/

namespace DemoCode.Oiwst

open FeedProxy (atoi intMax)

/-- A row of `ashare_ordwth`; `rec_num` is a number. -/
structure Ordwth where
  recNum : Int
  date : String
  time : String
  reff : String
  acc : String
  stock : String
  bs : String
  price : String
  qty : String
  status : String
  owflag : String
  ordrec : String
  firmid : String
  branchid : String
  checkord : String
  deriving DecidableEq

/-- A row of `ashare_ordwth2`. -/
structure Ordwth2 where
  recNum : Int
  date : String := ""
  time : String := ""
  reff : String := ""
  acc : String := ""
  stock : String := ""
  bs : String := ""
  price : String := ""
  qty : String := ""
  status : String := ""
  qty2 : String := ""
  remark : String := ""
  status1 : String := ""
  teordernum : String := ""
  owflag : String := ""
  ordrec : String := ""
  firmid : String := ""
  branchid : String := ""
  checkord : String := ""
  deriving DecidableEq

/-- A row of `ashare_cjhb`; `cjbh` is the number of the deal. -/
structure Cjhb where
  gddm : String := ""
  gdxm : String := ""
  bcrq : String := ""
  cjbh : Int := 0
  gsdm : String := ""
  cjsl : String := ""
  bcye : String := ""
  zqdm : String := ""
  sbsj : String := ""
  cjsj : String := ""
  cjjg : String := ""
  cjje : String := ""
  sqbh : String := ""
  bs : String := ""
  mjbh : String := ""
  deriving DecidableEq

/-- What the callback depends on: which commands fail, the clock at each of them, and the texts of
floating-point numbers, that of a price and that of a price times a volume. -/
structure Env where
  fails : ℕ → Bool
  curTimeStr : ℕ → String
  curTime : ℕ → Int
  cjjg : String → String
  cjje : String → Int → String

/-- The database, `dealNumberSatrt`, and how many commands were executed. -/
structure Tables where
  ordwth : List Ordwth := []
  ordwth2 : List Ordwth2 := []
  cjhb : List Cjhb := []
  dealNumberSatrt : Int := 1
  commands : ℕ := 0

/-- The kind of the command that failed. -/
inductive Fault where
  | query
  | update
  | insert
  deriving DecidableEq, Repr

/-- `Ordwth2DefaultData`. -/
def ordwth2DefaultData (order : Ordwth) : Ordwth2 where
  recNum := order.recNum
  date := order.date
  reff := order.reff
  acc := order.acc
  stock := order.stock
  bs := order.bs
  price := order.price
  qty := order.qty
  owflag := order.owflag
  firmid := order.firmid
  branchid := order.branchid
  checkord := order.checkord

/-- `CjhbDefaultData`. -/
def cjhbDefaultData (confirm : Ordwth2) : Cjhb where
  gddm := confirm.acc
  bcrq := confirm.date
  gsdm := confirm.firmid
  zqdm := confirm.stock
  cjjg := confirm.price
  bs := confirm.bs

/-- The confirmation of an order but for its time, and the volumes of its deals. -/
def judge (order : Ordwth) : Ordwth2 × List Int :=
  let confirm := ordwth2DefaultData order
  if order.owflag = "WTH" then
    ({ confirm with status := "W", qty2 := order.qty, ordrec := order.ordrec }, [])
  else
    let orderVolume := atoi order.qty
    if orderVolume = 1000 ∨ orderVolume < 0 then
      ({ confirm with status := "F" }, [])
    else if orderVolume = 900 then
      ({ confirm with status := "O" }, [])
    else if orderVolume = 600 then
      ({ confirm with status := "O" }, [200])
    else if orderVolume > 1000 then
      ({ confirm with status := "O" }, [400, 600, orderVolume - 1000])
    else
      ({ confirm with status := "O" }, [orderVolume])

/-- The row of a deal. -/
def dealRow (env : Env) (order : Ordwth) (confirm : Ordwth2) (cjbh volume : Int) (cjsj : String) :
    Cjhb :=
  { cjhbDefaultData confirm with
    cjbh
    cjsl := toString volume
    cjjg := env.cjjg confirm.price
    cjje := env.cjje confirm.price volume
    sqbh := confirm.reff
    sbsj := String.ofList (order.time.toList.filter (· ≠ ':'))
    cjsj }

namespace Tables

/-- `Cmd`, with whether it succeeded; a command that fails changes nothing. -/
def cmd (env : Env) (s : Tables) (change : Tables → Tables) : Tables × Bool :=
  if env.fails s.commands then
    ({ s with commands := s.commands + 1 }, false)
  else
    ({ change s with commands := s.commands + 1 }, true)

theorem cmd_fails {env : Env} {s : Tables} (h : env.fails s.commands = true)
    (change : Tables → Tables) :
    cmd env s change = ({ s with commands := s.commands + 1 }, false) := if_pos h

theorem cmd_succeeds {env : Env} {s : Tables} (h : env.fails s.commands = false)
    (change : Tables → Tables) :
    cmd env s change = ({ change s with commands := s.commands + 1 }, true) :=
  if_neg (by simp [h])

/-- `update ... set status = 'P' where rec_num = ...`. -/
def updateStatus (recNum : Int) (s : Tables) : Tables :=
  { s with
    ordwth := s.ordwth.map fun o => if o.recNum = recNum then { o with status := "P" } else o }

/-- `insert into ...ordwth2`, which writes 0 as the last value. -/
def insertOrdwth2 (row : Ordwth2) (s : Tables) : Tables :=
  { s with ordwth2 := s.ordwth2 ++ [{ row with checkord := "0" }] }

/-- `insert into ...cjhb`. -/
def insertCjhb (row : Cjhb) (s : Tables) : Tables := { s with cjhb := s.cjhb ++ [row] }

/-- The loop over the volumes; no behaviour is defined when the number of a deal overflows. -/
def insertDeals (env : Env) (order : Ordwth) (confirm : Ordwth2) (s : Tables) :
    List Int → Option (Tables × Option Fault)
  | [] => some (s, none)
  | volume :: rest =>
    if s.dealNumberSatrt = intMax then
      none
    else
      let row := dealRow env order confirm s.dealNumberSatrt volume (toString (env.curTime s.commands))
      let (s', ok) := cmd env { s with dealNumberSatrt := s.dealNumberSatrt + 1 } (insertCjhb row)
      if ok then insertDeals env order confirm s' rest else some (s', some .insert)

/-- One round of the loop over the orders. -/
def processOrder (env : Env) (s : Tables) (order : Ordwth) : Option (Tables × Option Fault) :=
  if order.status = "P" then
    some (s, none)
  else
    let (s₁, ok) := cmd env s (updateStatus order.recNum)
    if ok then
      let (confirm, dealVolume) := judge order
      let (s₂, ok) :=
        cmd env s₁ (insertOrdwth2 { confirm with time := env.curTimeStr s₁.commands })
      if ok then insertDeals env order confirm s₂ dealVolume else some (s₂, some .insert)
    else
      some (s₁, some .update)

def processOrders (env : Env) (s : Tables) : List Ordwth → Option (Tables × Option Fault)
  | [] => some (s, none)
  | order :: rest =>
    match processOrder env s order with
    | none => none
    | some (s', some fault) => some (s', some fault)
    | some (s', none) => processOrders env s' rest

/-- `TimerCallback`. -/
def timerCallback (env : Env) (s : Tables) : Option (Tables × Option Fault) :=
  let (s', ok) := cmd env s id
  if ok then processOrders env s' s.ordwth else some (s', some .query)

end Tables

inductive Event where
  | arrive (order : Ordwth)
  | tick

/-- What happens to the tables: orders arrive, each with a `rec_num` of its own, and the timer ticks.
The output tells which command failed. -/
def Tables.step (env : Env) (s : Tables) : Event → Option (Tables × Option Fault)
  | .arrive order =>
    if order.recNum ∈ s.ordwth.map Ordwth.recNum then
      none
    else
      some ({ s with ordwth := s.ordwth ++ [order] }, none)
  | .tick => s.timerCallback env

end DemoCode.Oiwst
