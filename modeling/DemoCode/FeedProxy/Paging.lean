import Mathlib.Data.List.Flatten
import DemoCode.FeedProxy.FanOut
import DemoCode.FeedProxy.Sessions
import DemoCode.FeedProxy.Upstream

/-! The queries of instruments: the timer asks for the first page of the first market, and each
response on `reqid` 3 asks for the next page of the market, or for the first page of the next one.
The market is known by `m_vecPos`, the page by the response. -/

namespace DemoCode.FeedProxy

/-! ### The cursor -/

/-- What `ProcessRes` reads of a page: `beginpos` and `totalcount`. -/
def Json.page (resJson : Json) : Option (Int × Int) := do
  let data ← resJson.get "data"
  some (← data.getInt "beginpos", ← data.getInt "totalcount")

/-- No page of the market comes behind this one. -/
def lastPage (page : Int × Int) : Bool := decide (wrap32 (page.1 + 1000) ≥ page.2)

/-- `processInsRes` with any `m_marketVec`. -/
def processInsResOf (markets : List Int) (s : ConvertService) (resJson : Json) :
    Option (ConvertService × List Out) := do
  if s.vecPos < markets.length then
    let data ← resJson.get "data"
    let beginpos ← data.getInt "beginpos"
    let totalCount ← data.getInt "totalcount"
    if wrap32 (beginpos + 1000) ≥ totalCount then
      let market ← markets[s.vecPos + 1]?
      some ({ s with vecPos := s.vecPos + 1 }, [queryInsMsg market 0])
    else
      let market ← markets[s.vecPos]?
      some (s, [queryInsMsg market (wrap32 (beginpos + 1000))])
  else
    some ({ s with utils :=
      { s.utils with queryAllInsResStr := s.utils.allInsInfoResProto } }, [])

/-- `processRes` with any `m_marketVec`. -/
def processResOf (markets : List Int) (env : Env) (s : ConvertService) (res : String) :
    Option (ConvertService × List Out) :=
  match env.parseJson res with
  | none => some (s, [])
  | some resJson => do
    match ← jsonRes2ProtoRes env s.utils resJson with
    | none => some (s, [])
    | some (reqId, msgs, utils) =>
      let s := { s with utils }
      if reqId = 1 ∨ reqId = 2 then some (s, [])
      else if reqId = 3 then processInsResOf markets s resJson
      else if reqId = 4 ∨ reqId = 5 then some (s, [])
      else if reqId = 0 then processPush s resJson msgs
      else some (processReply s reqId msgs)

theorem processRes_eq : processRes = processResOf marketVec := rfl

/-- A response on `reqid` 3 that is converted, with its page. -/
def InsRes (env : Env) (res : String) (page : Int × Int) : Prop :=
  ∃ resJson, env.parseJson res = some resJson ∧ resJson.page = some page ∧
    ∀ u, ∃ msgs u', jsonRes2ProtoRes env u resJson = some (some (3, msgs, u'))

section

variable {env : Env} {res : String} {page : Int × Int}

theorem Json.page_eq {resJson : Json} (h : resJson.page = some page) : ∃ data,
    resJson.get "data" = some data ∧ data.getInt "beginpos" = some page.1 ∧
      data.getInt "totalcount" = some page.2 := by
  simp only [Json.page, Option.bind_eq_bind, Option.bind_eq_some_iff, Option.some.injEq] at h
  obtain ⟨data, hData, beginpos, hBegin, totalCount, hTotal, rfl⟩ := h
  exact ⟨data, hData, hBegin, hTotal⟩

/-- What a page does: it moves the cursor on when it is the last one of its market, and reads the
market there. -/
theorem InsRes.processResOf_eq (h : InsRes env res page) (markets : List Int) (s : ConvertService) :
    ∃ utils, processResOf markets env s res =
      if s.vecPos < markets.length then
        if lastPage page then
          (markets[s.vecPos + 1]?).map fun market =>
            ({ s with utils, vecPos := s.vecPos + 1 }, [queryInsMsg market 0])
        else
          (markets[s.vecPos]?).map fun market =>
            ({ s with utils }, [queryInsMsg market (wrap32 (page.1 + 1000))])
      else
        some ({ s with utils }, []) := by
  obtain ⟨resJson, hParse, hPage, hConverts⟩ := h
  obtain ⟨msgs, u', hConverted⟩ := hConverts s.utils
  obtain ⟨data, hData, hBegin, hTotal⟩ := Json.page_eq hPage
  have hSame : processResOf markets env s res =
      processInsResOf markets { s with utils := u' } resJson := by
    simp only [processResOf, hParse, hConverted, Option.bind_eq_bind, Option.bind_some]
    rw [if_neg (by decide), if_pos trivial]
  rw [hSame, processInsResOf]
  by_cases hIn : s.vecPos < markets.length
  · refine ⟨u', ?_⟩
    simp only [if_pos hIn, hData, hBegin, hTotal, Option.bind_eq_bind, Option.bind_some, lastPage,
      decide_eq_true_eq]
    by_cases hLast : wrap32 (page.1 + 1000) ≥ page.2
    · rw [if_pos hLast, if_pos hLast]
      cases markets[s.vecPos + 1]? <;> rfl
    · rw [if_neg hLast, if_neg hLast]
      cases markets[s.vecPos]? <;> rfl
  · exact ⟨{ u' with queryAllInsResStr := u'.allInsInfoResProto }, by rw [if_neg hIn, if_neg hIn]⟩

end

/-- A conversation goes on as long as fewer pages were the last ones of their market than there are
markets, starting at the cursor. -/
theorem run_pages_iff {env : Env} {markets : List Int} {s : ConvertService} {ress : List String}
    {pages : List (Int × Int)} (hCursor : s.vecPos < markets.length)
    (hPages : List.Forall₂ (InsRes env) ress pages) :
    (∃ t outs, Machine.run (processResOf markets env) s ress = some (t, outs)) ↔
      s.vecPos + pages.countP lastPage < markets.length := by
  induction hPages generalizing s with
  | nil => exact ⟨fun _ => hCursor, fun _ => ⟨s, [], rfl⟩⟩
  | @cons res page ress pages hRes hRest ih =>
    obtain ⟨utils, hStep⟩ := hRes.processResOf_eq markets s
    rw [if_pos hCursor] at hStep
    by_cases hLast : lastPage page = true
    · rw [if_pos hLast] at hStep
      rw [List.countP_cons_of_pos hLast]
      by_cases hNext : s.vecPos + 1 < markets.length
      · rw [List.getElem?_eq_getElem hNext, Option.map_some] at hStep
        have hLater := @ih { s with utils, vecPos := s.vecPos + 1 } hNext
        dsimp only at hLater
        rw [Machine.run_step_iff hStep, hLater]
        omega
      · rw [List.getElem?_eq_none (Nat.not_lt.mp hNext), Option.map_none] at hStep
        exact iff_of_false (Machine.not_run_of_step hStep) (by omega)
    · rw [if_neg hLast, List.getElem?_eq_getElem hCursor, Option.map_some] at hStep
      rw [List.countP_cons_of_neg hLast, Machine.run_step_iff hStep]
      exact ih hCursor

/-- **The cursor stays in range** exactly as long as fewer pages are the last ones of their market
than there are markets: a read behind the end of `m_marketVec` is the only thing that ends the
conversation. -/
theorem cursor_inRange_iff {env : Env} {markets : List Int} (hSome : markets ≠ [])
    {s : ConvertService} (hStart : s.vecPos = 0) {ress : List String} {pages : List (Int × Int)}
    (hPages : List.Forall₂ (InsRes env) ress pages) :
    (∃ t outs, Machine.run (processResOf markets env) s ress = some (t, outs)) ↔
      pages.countP lastPage < markets.length := by
  have hCursor : s.vecPos < markets.length := by
    rw [hStart]
    exact List.length_pos_iff.mpr hSome
  rw [run_pages_iff hCursor hPages, hStart, Nat.zero_add]

/-- The JSON of an empty page. -/
def emptyPage (beginpos totalCount : Int) : Json :=
  .obj [("reqid", .int 3), ("reqtype", .int 52),
    ("data", .obj [("beginpos", .int beginpos), ("totalcount", .int totalCount)])]

/-- Upstream states the counts of two pages, or of none. -/
def pageEnv : Env :=
  { deafEnv with
    parseJson := fun res =>
      if res = "more" then some (emptyPage 0 2000)
      else if res = "rest" then some (emptyPage 1000 2000)
      else if res = "none" then some (emptyPage 0 0)
      else none }

theorem insRes_emptyPage {env : Env} {res : String} {b t : Int} (hb : intMin ≤ b ∧ b ≤ intMax)
    (ht : intMin ≤ t ∧ t ≤ intMax) (h : env.parseJson res = some (emptyPage b t)) :
    InsRes env res (b, t) := by
  have hBegin : (Json.int b).asInt = some b := if_pos hb
  have hTotal : (Json.int t).asInt = some t := if_pos ht
  refine ⟨emptyPage b t, h, ?_, fun u => ⟨[], u, rfl⟩⟩
  change (((Json.int b).asInt.bind fun b => (Json.int t).asInt.bind fun t => some (b, t))) = _
  rw [hBegin, hTotal]
  rfl

theorem cursor_inRange_iff_one : (∃ t outs,
    Machine.run (processResOf [2011] pageEnv) {} ["more"] = some (t, outs)) ↔
      [((0 : Int), (2000 : Int))].countP lastPage < [(2011 : Int)].length := by
  refine cursor_inRange_iff (by simp) rfl (.cons ?_ .nil)
  exact insRes_emptyPage (by decide) (by decide) rfl

/-- When every market is empty, the response for the last one is the end. -/
theorem cursor_outOfRange : ¬∃ t outs,
    Machine.run (processRes pageEnv) {} (List.replicate 61 "none") = some (t, outs) := by
  have hPage : InsRes pageEnv "none" (0, 0) := insRes_emptyPage (by decide) (by decide) rfl
  have hPages : ∀ n, List.Forall₂ (InsRes pageEnv) (List.replicate n "none")
      (List.replicate n (0, 0)) := by
    intro n
    induction n with
    | zero => exact .nil
    | succ n ih => exact .cons hPage ih
  have hStart : (0 : Nat) < marketVec.length := by decide
  rw [processRes_eq, run_pages_iff hStart (hPages 61)]
  decide

/-! ### The queries -/

/-- A reader of the queries of instruments: the market and the first instrument asked for. -/
def readQueryIns (msg : String) : Option (Int × Int) := do
  let cs ← msg.toList.dropPrefix?
    "\x7b\"reqtype\":52,\"reqid\":3,\"session\":\"\",\"data\":\x7b\"marketid\":".toList
  let (market, cs) ← readUntil ',' "\"idtype\":1,\"beginpos\":".toList cs
  let (beginpos, _) ← readUntil ',' "\"count\":1000,\"getquote\":0\x7d\x7d".toList cs
  some (readInt market, readInt beginpos)

/-- The query of instruments that is handed to `SendReq`. -/
def Out.query : Out → Option (Int × Int)
  | .sendReq (.text msg) => readQueryIns msg
  | _ => none

/-- The queries among what a callback hands on. -/
def queriesOf (out : List Out) : List (Int × Int) := out.filterMap Out.query

theorem readQueryIns_queryInsFormat (market beginpos : Int) :
    readQueryIns (queryInsFormat market beginpos) = some (market, beginpos) := by
  have hMarket : ",\"idtype\":1,\"beginpos\":".toList = ',' :: "\"idtype\":1,\"beginpos\":".toList := rfl
  have hBegin : ",\"count\":1000,\"getquote\":0\x7d\x7d".toList =
      ',' :: ("\"count\":1000,\"getquote\":0\x7d\x7d".toList ++ []) := rfl
  unfold readQueryIns queryInsFormat
  simp only [String.toList_append, List.append_assoc, hMarket, hBegin, List.cons_append]
  generalize "\x7b\"reqtype\":52,\"reqid\":3,\"session\":\"\",\"data\":\x7b\"marketid\":".toList = p
  generalize "\"idtype\":1,\"beginpos\":".toList = p'
  generalize "\"count\":1000,\"getquote\":0\x7d\x7d".toList = p''
  have hInt : ∀ n : Int, ∀ d ∈ (toString n).toList, d ≠ ',' :=
    fun n d hd => toString_int_ne hd (by decide)
  simp only [dropPrefix_append, Option.bind_eq_bind, Option.bind_some,
    readUntil_append (hInt market), readUntil_append (hInt beginpos), readInt_toString]

theorem utf8ByteSize_toString {n : Int} (hLow : 0 ≤ n) (hHigh : n < 2 ^ 31) :
    (toString n).utf8ByteSize ≤ 10 := by
  obtain ⟨m, rfl⟩ := Int.eq_ofNat_of_zero_le hLow
  have hText : toString ((m : Nat) : Int) = m.repr := rfl
  have hLength : m.repr.length ≤ 10 := (Nat.length_repr_le_iff (by decide)).mpr (by omega)
  have hAscii : ∀ cs : List Char, (∀ c ∈ cs, c.isDigit) →
      (String.ofList cs).utf8ByteSize = cs.length := by
    intro cs h
    induction cs with
    | nil => rfl
    | cons c cs ih =>
      have hDigit := h c List.mem_cons_self
      have hOne : c.utf8Size = 1 := by
        rw [Char.isDigit, Bool.and_eq_true, decide_eq_true_eq, decide_eq_true_eq] at hDigit
        exact Char.utf8Size_eq_one_iff.mpr (UInt32.le_trans hDigit.2 (by decide))
      rw [utf8ByteSize_cons, ih fun d hd => h d (List.mem_cons_of_mem c hd), hOne, List.length_cons,
        Nat.add_comm]
  rw [hText, ← String.ofList_toList (s := m.repr), hAscii, Nat.toList_repr]
  · rwa [← Nat.toList_repr, String.length_toList]
  · intro c hc
    rw [Nat.toList_repr] at hc
    exact Nat.isDigit_of_mem_toDigits (by decide) (by decide) hc

/-- A query for numbers of type `int` is read back. -/
theorem query_queryInsMsg {market beginpos : Int} (hMarket : 0 ≤ market ∧ market < 2 ^ 31)
    (hBegin : 0 ≤ beginpos ∧ beginpos < 2 ^ 31) :
    (queryInsMsg market beginpos).query = some (market, beginpos) := by
  have hFits : (queryInsFormat market beginpos).utf8ByteSize < 1024 := by
    have hFirst := utf8ByteSize_toString hMarket.1 hMarket.2
    have hSecond := utf8ByteSize_toString hBegin.1 hBegin.2
    unfold queryInsFormat
    simp only [String.utf8ByteSize_append]
    have hText : "\x7b\"reqtype\":52,\"reqid\":3,\"session\":\"\",\"data\":\x7b\"marketid\":".utf8ByteSize +
        ",\"idtype\":1,\"beginpos\":".utf8ByteSize +
        ",\"count\":1000,\"getquote\":0\x7d\x7d".utf8ByteSize < 1000 := by decide
    omega
  rw [queryInsMsg, snprintf1024_eq hFits]
  exact readQueryIns_queryInsFormat market beginpos

/-- The timer asks for the first page of the first market. -/
theorem queriesOf_timer : queriesOf onQueryInsInfoTimer = [(2011, 0)] := by
  have hQuery : (queryInsMsg 2011 0).query = some (2011, 0) :=
    query_queryInsMsg (by decide) (by decide)
  rw [queriesOf, onQueryInsInfoTimer, List.filterMap_cons_none rfl, List.filterMap_cons_some hQuery,
    List.filterMap_nil]

/-! ### What no other callback does -/

/-- A callback that asks for no instruments and leaves the cursor where it is. -/
def Quiet (s : ConvertService) (x : ConvertService × List Out) : Prop :=
  x.1.vecPos = s.vecPos ∧ queriesOf x.2 = []

theorem Quiet.none (s : ConvertService) : Quiet s (s, []) := ⟨rfl, rfl⟩

@[simp] theorem queriesOf_append (out out' : List Out) :
    queriesOf (out ++ out') = queriesOf out ++ queriesOf out' := List.filterMap_append

theorem queriesOf_eq_nil {out : List Out} (h : ∀ o ∈ out, o.query = none) : queriesOf out = [] :=
  List.filterMap_eq_nil_iff.mpr h

theorem truncated_append {size : Nat} (p cs : List Char) (hSize : p.length ≤ size)
    (hAscii : (p.all fun c => c.utf8Size = 1) = true) :
    truncated size (p ++ cs) = p ++ truncated (size - p.length) cs := by
  induction p generalizing size with
  | nil => rfl
  | cons c p ih =>
    rw [List.all_cons, Bool.and_eq_true, decide_eq_true_iff] at hAscii
    obtain ⟨hOne, hRest⟩ := hAscii
    rw [List.length_cons] at hSize
    rw [List.cons_append, truncated, if_pos (by omega), hOne, ih (by omega) hRest, List.length_cons,
      List.cons_append, Nat.sub_sub, Nat.add_comm 1]

/-- The texts that end subscriptions ask for nothing. -/
theorem query_unsubMsg (key : String) : ∀ o ∈ unsubMsg key, o.query = none := by
  intro o hIn
  unfold unsubMsg at hIn
  split at hIn
  · rename_i type market code _ _
    obtain ⟨rest, hText⟩ : ∃ rest, (unSubFormat (cStr market) (cStr code) (cStr type)).toList =
        "\x7b\"reqtype\":2".toList ++ rest := by
      unfold unSubFormat
      simp only [String.toList_append, List.append_assoc]
      exact ⟨_, rfl⟩
    rw [List.mem_singleton.mp hIn]
    change readQueryIns (snprintf1024 _) = none
    rw [readQueryIns, snprintf1024, hText, truncated_append _ rest (by decide) (by decide),
      String.toList_ofList]
    rfl
  · exact absurd hIn List.not_mem_nil

theorem forward_quiet (conn : CContext) (ret : UInt64) (reqJson : ReqJson) (s : ConvertService) :
    Quiet s (forward conn ret reqJson s) := ⟨rfl, rfl⟩

theorem forwardSub_quiet (conn : CContext) (ret : UInt64) (reqJson : ReqJson) (s : ConvertService) :
    Quiet s (forwardSub conn ret reqJson s) := by
  unfold forwardSub queryQuotes
  split <;> exact ⟨rfl, rfl⟩

theorem handleReq_quiet (s : ConvertService) (conn : CContext) (ret : UInt64) (reqJson : ReqJson) :
    Quiet s (handleReq s conn ret reqJson) := by
  unfold handleReq
  split
  · exact ⟨rfl, rfl⟩
  · exact ⟨rfl, rfl⟩
  · exact ⟨rfl, rfl⟩
  · rename_i data _
    obtain ⟨hPos, hOut⟩ := forwardSub_quiet conn ret
      { reqJson with data := .sub (realArray (subOne conn) s data).2 } (realArray (subOne conn) s data).1
    have hReal : (realArray (subOne conn) s data).1.vecPos = s.vecPos :=
      realArray_keeps (fun _ _ => rfl) s data
    exact ⟨hPos.trans hReal, hOut⟩
  · rename_i data _
    obtain ⟨hPos, hOut⟩ := forwardSub_quiet conn ret
      { reqJson with data := .unsub (realArray (unsubOne conn) s data).2 }
      (realArray (unsubOne conn) s data).1
    have hReal : (realArray (unsubOne conn) s data).1.vecPos = s.vecPos :=
      realArray_keeps (unsubOne_keeps (fun _ _ => rfl) conn) s data
    exact ⟨hPos.trans hReal, hOut⟩
  · exact forward_quiet conn ret reqJson s
  · exact forward_quiet conn ret reqJson s

theorem processReq_quiet {env : Env} {s s' : ConvertService} {conn : CContext} {reqStr : List UInt8}
    {out : List Out} {ret : Int} (h : processReq env s conn reqStr = some (s', out, ret)) :
    Quiet s (s', out) := by
  rcases processReq_cases h with ⟨rfl, rfl, -⟩ | ⟨id, reqJson, -, -, hHandled, -⟩
  · exact ⟨rfl, rfl⟩
  · have hQuiet := handleReq_quiet { s with reqId := nextReqId s.reqId } conn (UInt64.ofInt id) reqJson
    rw [hHandled] at hQuiet
    exact hQuiet

theorem onLevDisConnect_quiet (s : ConvertService) (conn : CContext) :
    Quiet s (onLevDisConnect s conn) := by
  refine ⟨onLevDisConnect_keeps (fun _ _ => rfl) s conn, queriesOf_eq_nil ?_⟩
  intro o hIn
  obtain ⟨key, hMsg⟩ := mem_onLevDisConnect o hIn
  exact query_unsubMsg key o hMsg

theorem onSendHeartbeatTimer_quiet (s : ConvertService) : Quiet s (onSendHeartbeatTimer s) := by
  refine ⟨checkClientAlive_keeps (fun _ _ _ _ => rfl) s, queriesOf_eq_nil ?_⟩
  intro o hIn
  rcases mem_onSendHeartbeatTimer o hIn with ⟨key, hMsg⟩ | ⟨conn, rfl⟩ | rfl
  · exact query_unsubMsg key o hMsg
  · rfl
  · rfl

theorem queriesOf_sends {msgs : List (MsgCarrier Reply)} {out : List Out}
    (h : ∀ o ∈ out, ∃ conn, ∃ mc ∈ msgs, o = .send conn mc) : queriesOf out = [] := by
  apply queriesOf_eq_nil
  intro o hIn
  obtain ⟨conn, mc, -, rfl⟩ := h o hIn
  rfl

theorem processPush_quiet {s s' : ConvertService} {resJson : Json} {msgs : List (MsgCarrier Reply)}
    {out : List Out} (h : processPush s resJson msgs = some (s', out)) : Quiet s (s', out) := by
  obtain ⟨⟨type2ctxsMap, rfl⟩, hSends⟩ := processPush_touches h
  exact ⟨rfl, queriesOf_sends hSends⟩

theorem processReply_quiet (s : ConvertService) (reqId : Int) (msgs : List (MsgCarrier Reply)) :
    Quiet s (processReply s reqId msgs) := by
  obtain ⟨⟨id2ctxMap, hEq⟩, hSends⟩ := processReply_touches s reqId msgs
  have hSame := congrArg ConvertService.vecPos hEq
  exact ⟨hSame, queriesOf_sends hSends⟩

/-- A response on `reqid` 3. -/
def onReqid3 (env : Env) : Event → Bool
  | .response res => decide ((env.parseJson res).bind resReqId = some 3)
  | _ => false

/-- Only the timer and the responses on `reqid` 3 ask for instruments or move the cursor. -/
theorem step_quiet {env : Env} {s s' : ConvertService} {ev : Event} {out : List Out}
    (hTimer : ev ≠ .queryInsInfoTimer) (hOther : onReqid3 env ev = false)
    (h : step env s ev = some (s', out)) : Quiet s (s', out) := by
  cases ev with
  | accept conn =>
    cases h
    exact ⟨rfl, rfl⟩
  | request conn reqStr =>
    obtain ⟨⟨s₁, out₁, ret⟩, hReq, hEq⟩ := Option.map_eq_some_iff.mp h
    cases hEq
    exact processReq_quiet hReq
  | response res =>
    rcases processRes_cases h with
      ⟨rfl, rfl⟩ | ⟨resJson, reqId, msgs, utils, hParse, hConverted, hCase⟩
    · exact ⟨rfl, rfl⟩
    rcases hCase with ⟨rfl, rfl⟩ | ⟨rfl, -⟩ | ⟨-, hPush⟩ | ⟨-, hReply⟩
    · exact ⟨rfl, rfl⟩
    · have hId : (env.parseJson res).bind resReqId = some 3 := by
        rw [hParse]
        exact (jsonRes2ProtoRes_cases hConverted).1
      rw [onReqid3, hId, decide_eq_true rfl] at hOther
      cases hOther
    · have hQuiet := processPush_quiet hPush
      exact hQuiet
    · have hQuiet := processReply_quiet { s with utils } reqId msgs
      rw [hReply] at hQuiet
      exact hQuiet
  | disconnect conn =>
    obtain h : onLevDisConnect s conn = (s', out) := Option.some.inj h
    exact h ▸ onLevDisConnect_quiet s conn
  | heartbeatTimer =>
    obtain h : onSendHeartbeatTimer s = (s', out) := Option.some.inj h
    exact h ▸ onSendHeartbeatTimer_quiet s
  | queryInsInfoTimer => exact absurd rfl hTimer

/-! ### The conversation -/

/-- The service, the queries of instruments that upstream has not answered, and whether the timer has
gone off. -/
structure Paging where
  service : ConvertService := {}
  unanswered : List (Int × Int) := []
  started : Bool := false

/-- A callback, with what it hands on; a response on `reqid` 3 answers the oldest query. -/
def Paging.step (env : Env) (p : Paging) (ev : Event) : Option (Paging × List Out) :=
  (FeedProxy.step env p.service ev).map fun x =>
    ({ service := x.1
       unanswered := (if onReqid3 env ev then p.unanswered.tail else p.unanswered) ++ queriesOf x.2
       started := p.started || decide (ev = .queryInsInfoTimer) }, x.2)

/-- The timer goes off once, and upstream answers a query with the page asked for and the count of the
market. -/
def Answered (env : Env) (total : Int → Int) (p : Paging) (ev : Event) : Prop :=
  (ev = .queryInsInfoTimer → p.started = false) ∧
    ∀ res, ev = .response res → onReqid3 env ev = true →
      ∃ query ∈ p.unanswered.head?, InsRes env res (query.2, total query.1)

/-- The pages of a market: 0, 1000, 2000, ... below its count, and always the first one. -/
def pagesOf (total : Int → Int) (market : Int) : List (Int × Int) :=
  (List.range (((max (total market) 1).toNat + 999) / 1000)).map fun (k : Nat) => (market, 1000 * (k : Int))

/-- The pages of all markets, in the order of `m_marketVec`. -/
def pages (total : Int → Int) : List (Int × Int) := marketVec.flatMap (pagesOf total)

theorem mem_pages {total : Int → Int} {market beginpos : Int} :
    (market, beginpos) ∈ pages total ↔ market ∈ marketVec ∧ 0 ≤ beginpos ∧ 1000 ∣ beginpos ∧
      beginpos < max (total market) 1 := by
  simp only [pages, pagesOf, List.mem_flatMap, List.mem_map, List.mem_range, Prod.mk.injEq]
  constructor
  · rintro ⟨m, hIn, k, hk, rfl, rfl⟩
    exact ⟨hIn, by omega, ⟨k, rfl⟩, by omega⟩
  · rintro ⟨hIn, hPos, ⟨k, rfl⟩, hLt⟩
    exact ⟨market, hIn, k.toNat, by omega, rfl, by omega⟩

theorem nodup_pages (total : Int → Int) : (pages total).Nodup := by
  apply List.nodup_flatMap.mpr
  constructor
  · intro market _
    refine List.Nodup.map (fun k k' hEq => ?_) List.nodup_range
    have hSame := (Prod.mk.inj hEq).2
    omega
  · have hMarkets : marketVec.Nodup := by decide
    refine hMarkets.imp fun hNe => ?_
    rintro page hFirst hSecond
    obtain ⟨k, -, rfl⟩ := List.mem_map.mp hFirst
    obtain ⟨k', -, hEq⟩ := List.mem_map.mp hSecond
    exact hNe (Prod.mk.inj hEq).1.symm

/-- What comes behind a page of the market that the cursor is on. -/
def laterPages (total : Int → Int) (vecPos : Nat) (market : Int) (k : Nat) : List (Int × Int) :=
  (pagesOf total market).drop (k + 1) ++ (marketVec.drop (vecPos + 1)).flatMap (pagesOf total)

/-- The page that was asked for last is the only one that is not answered. -/
structure OnPage (total : Int → Int) (p : Paging) (asked : List (Int × Int)) (market : Int)
    (k : Nat) : Prop where
  started : p.started = true
  cursor : marketVec[p.service.vecPos]? = some market
  page : (pagesOf total market)[k]? = some (market, 1000 * (k : Int))
  unanswered : p.unanswered = [(market, 1000 * (k : Int))]
  last : asked.getLast? = some (market, 1000 * (k : Int))
  later : asked ++ laterPages total p.service.vecPos market k = pages total

/-- Nothing has been asked for, or the pages up to one of them. -/
def Asks (total : Int → Int) (p : Paging) (asked : List (Int × Int)) : Prop :=
  (p.started = false ∧ p.unanswered = [] ∧ p.service.vecPos = 0 ∧ asked = []) ∨
    ∃ market k, OnPage total p asked market k

theorem pagesOf_getElem? {total : Int → Int} {market : Int} {k : Nat} {page : Int × Int} :
    (pagesOf total market)[k]? = some page ↔
      1000 * (k : Int) < max (total market) 1 ∧ page = (market, 1000 * (k : Int)) := by
  rw [pagesOf, List.getElem?_map, Option.map_eq_some_iff]
  constructor
  · rintro ⟨k', hk', rfl⟩
    obtain ⟨hLt, hEq⟩ := List.getElem?_eq_some_iff.mp hk'
    rw [List.length_range] at hLt
    rw [List.getElem_range] at hEq
    subst hEq
    exact ⟨by omega, rfl⟩
  · rintro ⟨hLt, rfl⟩
    exact ⟨k, List.getElem?_range (by omega), rfl⟩

theorem drop_pagesOf {total : Int → Int} {market : Int} {k : Nat}
    (h : 1000 * (k : Int) < max (total market) 1) :
    (pagesOf total market).drop k = (market, 1000 * (k : Int)) :: (pagesOf total market).drop (k + 1) := by
  have hPage := pagesOf_getElem?.mpr ⟨h, rfl⟩
  obtain ⟨hLt, hEq⟩ := List.getElem?_eq_some_iff.mp hPage
  rw [List.drop_eq_getElem_cons hLt, hEq]

theorem drop_pagesOf_end {total : Int → Int} {market : Int} {k : Nat}
    (h : max (total market) 1 ≤ 1000 * (k : Int)) : (pagesOf total market).drop k = [] := by
  apply List.drop_of_length_le
  rw [pagesOf, List.length_map, List.length_range]
  omega

theorem marketVec_range {market : Int} (h : market ∈ marketVec) : 0 ≤ market ∧ market < 2 ^ 31 := by
  have hAll : ∀ m ∈ marketVec, 0 ≤ m ∧ m < 2 ^ 31 := by decide
  exact hAll market h

section

variable {env : Env} {total : Int → Int} {p p' : Paging} {asked : List (Int × Int)} {ev : Event}
  {out : List Out} {res : String} {query : Int × Int}

theorem queriesOf_ask {market : Int} (hIn : market ∈ marketVec) (beginpos : Int)
    (hPos : 0 ≤ beginpos ∧ beginpos < 2 ^ 31) :
    queriesOf [queryInsMsg market beginpos] = [(market, beginpos)] := by
  have hQuery : (queryInsMsg market beginpos).query = some (market, beginpos) :=
    query_queryInsMsg (marketVec_range hIn) hPos
  rw [queriesOf, List.filterMap_cons_some hQuery, List.filterMap_nil]

/-- The first of the pages that are left is asked for. -/
theorem onPage_ask {market : Int} {k : Nat} (hStarted : p.started = true)
    (hCursor : marketVec[p.service.vecPos]? = some market) (hMore : 1000 * (k : Int) < max (total market) 1)
    (hUnanswered : p.unanswered = [(market, 1000 * (k : Int))])
    (hPages : asked ++ ((pagesOf total market).drop k ++
      (marketVec.drop (p.service.vecPos + 1)).flatMap (pagesOf total)) = pages total) :
    OnPage total p (asked ++ [(market, 1000 * (k : Int))]) market k := by
  refine ⟨hStarted, hCursor, pagesOf_getElem?.mpr ⟨hMore, rfl⟩, hUnanswered, List.getLast?_concat, ?_⟩
  rw [← hPages, drop_pagesOf hMore, laterPages, List.append_assoc]
  rfl

theorem Asks.start {s : ConvertService} (h : s.vecPos = 0) : Asks total { service := s } [] :=
  .inl ⟨rfl, rfl, h, rfl⟩

theorem marketVec_first : marketVec[0]? = some 2011 := rfl

theorem marketVec_cons : marketVec = 2011 :: marketVec.drop 1 := rfl

theorem pages_first (total : Int → Int) : [] ++ ((pagesOf total 2011).drop 0 ++
    (marketVec.drop (0 + 1)).flatMap (pagesOf total)) = pages total := by
  rw [pages, List.nil_append, List.drop_zero, Nat.zero_add, ← List.flatMap_cons, ← marketVec_cons]

/-- The timer asks for the first page. -/
theorem Asks.timer (h : Asks total p asked) (hFirst : p.started = false)
    (hStep : p.step env .queryInsInfoTimer = some (p', out)) : Asks total p' (asked ++ queriesOf out) := by
  rcases h with ⟨-, hNone, hCursor, rfl⟩ | ⟨market, k, hOn⟩
  · obtain ⟨⟨s, out'⟩, hSame, hEq⟩ := Option.map_eq_some_iff.mp hStep
    obtain ⟨rfl, rfl⟩ := Prod.mk.inj (Option.some.inj hSame)
    obtain ⟨rfl, rfl⟩ := Prod.mk.inj hEq
    dsimp only
    rw [queriesOf_timer]
    refine .inr ⟨2011, 0, ?_⟩
    refine onPage_ask (k := 0) (Bool.or_true _) ?_ (by omega) ?_ ?_
    · rw [hCursor]
      exact marketVec_first
    · rw [hNone]
      rfl
    · rw [hCursor]
      exact pages_first total
  · rw [hOn.started] at hFirst
    cases hFirst

/-- Whatever is no answer and not the timer asks for nothing. -/
theorem Asks.quiet (h : Asks total p asked) (hTimer : ev ≠ .queryInsInfoTimer)
    (hOther : onReqid3 env ev = false) (hStep : p.step env ev = some (p', out)) :
    Asks total p' (asked ++ queriesOf out) := by
  obtain ⟨⟨s, out'⟩, hService, hEq⟩ := Option.map_eq_some_iff.mp hStep
  obtain ⟨rfl, rfl⟩ := Prod.mk.inj hEq
  obtain ⟨hCursor, hNone⟩ := step_quiet hTimer hOther hService
  dsimp only at hCursor hNone
  have hStarted : (p.started || decide (ev = .queryInsInfoTimer)) = p.started := by
    rw [decide_eq_false hTimer, Bool.or_false]
  rw [hNone, List.append_nil]
  simp only [hOther, hStarted, List.append_nil, Bool.false_eq_true, if_false]
  rcases h with ⟨hFirst, hUnanswered, hZero, hAsked⟩ | ⟨market, k, hOn⟩
  · exact .inl ⟨hFirst, hUnanswered, hCursor.trans hZero, hAsked⟩
  · refine .inr ⟨market, k, ⟨hOn.started, ?_, hOn.page, hOn.unanswered, hOn.last, ?_⟩⟩
    · rw [hCursor]
      exact hOn.cursor
    · rw [hCursor]
      exact hOn.later

/-- An answer to the page asked for last asks for the next one; behind the last page of the last market
there is none, and `m_marketVec` is read past its end. -/
theorem OnPage.answer {market : Int} {k : Nat} (h : OnPage total p asked market k)
    (hTotal : ∀ m ∈ marketVec, 0 ≤ total m ∧ total m < 2 ^ 31 - 1000) (hOn : onReqid3 env (.response res))
    (hRes : InsRes env res (1000 * (k : Int), total market)) :
    (asked = pages total ∧ p.step env (.response res) = none) ∨
      ∃ (p' : Paging) (out : List Out) (market' : Int) (k' : Nat), p.step env (.response res) = some (p', out) ∧
        queriesOf out = [(market', 1000 * (k' : Int))] ∧
        OnPage total p' (asked ++ queriesOf out) market' k' := by
  obtain ⟨hCursor, hMarket⟩ := List.getElem?_eq_some_iff.mp h.cursor
  obtain ⟨hLow, hHigh⟩ := hTotal market (hMarket ▸ List.getElem_mem hCursor)
  obtain ⟨hPage, -⟩ := pagesOf_getElem?.mp h.page
  have hWrap : wrap32 (1000 * (k : Int) + 1000) = 1000 * ((k + 1 : Nat) : Int) := by
    rw [wrap32_of_range (by omega) (by omega)]
    omega
  have hTail : p.unanswered.tail = [] := by rw [h.unanswered, List.tail_cons]
  have hStarted : (p.started || decide (Event.response res = .queryInsInfoTimer)) = true := by
    rw [h.started, Bool.true_or]
  obtain ⟨utils, hStep⟩ := hRes.processResOf_eq marketVec p.service
  rw [if_pos hCursor, lastPage, hWrap] at hStep
  have hLater := h.later
  rw [laterPages] at hLater
  by_cases hLast : 1000 * ((k + 1 : Nat) : Int) ≥ total market
  · have hEnd : (pagesOf total market).drop (k + 1) = [] := drop_pagesOf_end (by omega)
    rw [hEnd, List.nil_append] at hLater
    rw [decide_eq_true hLast, if_pos rfl] at hStep
    by_cases hNext : p.service.vecPos + 1 < marketVec.length
    · rw [List.getElem?_eq_getElem hNext, Option.map_some] at hStep
      have hOut := queriesOf_ask (List.getElem_mem hNext) 0 (by decide)
      rw [List.drop_eq_getElem_cons hNext, List.flatMap_cons] at hLater
      refine .inr ⟨_, _, _, 0, congrArg (Option.map _) hStep, hOut, ?_⟩
      dsimp only
      rw [hOut]
      refine onPage_ask (k := 0) hStarted (List.getElem?_eq_getElem hNext) (by omega) ?_ hLater
      rw [if_pos hOn, hTail]
      rfl
    · rw [List.getElem?_eq_none (Nat.not_lt.mp hNext), Option.map_none] at hStep
      rw [List.drop_of_length_le (Nat.not_lt.mp hNext), List.flatMap_nil, List.append_nil] at hLater
      exact .inl ⟨hLater, congrArg (Option.map _) hStep⟩
  · rw [decide_eq_false hLast, if_neg Bool.false_ne_true, h.cursor, Option.map_some] at hStep
    have hOut := queriesOf_ask (hMarket ▸ List.getElem_mem hCursor) (1000 * ((k + 1 : Nat) : Int)) (by omega)
    refine .inr ⟨_, _, market, k + 1, congrArg (Option.map _) hStep, hOut, ?_⟩
    dsimp only
    rw [hOut]
    refine onPage_ask hStarted h.cursor (by omega) ?_ hLater
    rw [if_pos hOn, hTail]
    rfl

/-- **Step**: what has been asked for stays the pages up to one. -/
theorem Asks.step (hTotal : ∀ m ∈ marketVec, 0 ≤ total m ∧ total m < 2 ^ 31 - 1000)
    (h : Asks total p asked) (hAnswered : Answered env total p ev)
    (hStep : p.step env ev = some (p', out)) : Asks total p' (asked ++ queriesOf out) := by
  by_cases hTimer : ev = .queryInsInfoTimer
  · subst hTimer
    exact h.timer (hAnswered.1 rfl) hStep
  by_cases hOther : onReqid3 env ev = true
  · cases ev with
    | response res =>
      obtain ⟨query, hHead, hRes⟩ := hAnswered.2 res rfl hOther
      rcases h with ⟨-, hNone, -⟩ | ⟨market, k, hOn⟩
      · rw [hNone] at hHead
        cases hHead
      · rw [hOn.unanswered] at hHead
        cases hHead
        rcases hOn.answer hTotal hOther hRes with ⟨-, hEnd⟩ | ⟨p₁, out₁, market', k', hStep', -, hNext⟩
        · rw [hEnd] at hStep
          cases hStep
        · obtain ⟨rfl, rfl⟩ := Prod.mk.inj (Option.some.inj (hStep'.symm.trans hStep))
          exact .inr ⟨market', k', hNext⟩
    | _ => cases hOther
  · exact h.quiet hTimer (Bool.eq_false_iff.mpr hOther) hStep

/-- **Run**. -/
theorem Asks.run (hTotal : ∀ m ∈ marketVec, 0 ≤ total m ∧ total m < 2 ^ 31 - 1000)
    {evs : List Event} {outs : List (List Out)} (h : Asks total p asked)
    (hAlong : Machine.Along (Paging.step env) (Answered env total) p evs)
    (hRun : Machine.run (Paging.step env) p evs = some (p', outs)) :
    Asks total p' (asked ++ queriesOf outs.flatten) := by
  induction evs generalizing p asked outs with
  | nil =>
    cases hRun
    simpa [queriesOf] using h
  | cons ev evs ih =>
    obtain ⟨p₁, out, outs', hFirst, hRest, rfl⟩ := Machine.run_cons hRun
    have hNext := ih (h.step hTotal hAlong.1 hFirst) (hAlong.2 p₁ out hFirst) hRest
    rwa [List.flatten_cons, queriesOf_append, ← List.append_assoc]

end

/-- **Paging**: when upstream answers each query with the page asked for and the count of the market,
the queries are the pages of all markets in their order, none left out or repeated; as long as there
is another page, the answer to the last query asks for it, whatever else happens in between. -/
theorem queries_are_pages {env : Env} {total : Int → Int}
    (hTotal : ∀ m ∈ marketVec, 0 ≤ total m ∧ total m < 2 ^ 31 - 1000) {s : ConvertService}
    (hStart : s.vecPos = 0) {evs : List Event} {p : Paging} {outs : List (List Out)}
    (hAlong : Machine.Along (Paging.step env) (Answered env total) { service := s } evs)
    (hRun : Machine.run (Paging.step env) { service := s } evs = some (p, outs)) :
    queriesOf outs.flatten <+: pages total ∧ (pages total).Nodup ∧
      (p.started = true → ∃ query, (queriesOf outs.flatten).getLast? = some query ∧
        p.unanswered = [query] ∧ ∀ res, onReqid3 env (.response res) →
          InsRes env res (query.2, total query.1) →
          (queriesOf outs.flatten = pages total ∧ p.step env (.response res) = none) ∨
            ∃ p' out next, p.step env (.response res) = some (p', out) ∧ queriesOf out = [next] ∧
              queriesOf outs.flatten ++ [next] <+: pages total) := by
  have hAsks : Asks total p ([] ++ queriesOf outs.flatten) := (Asks.start hStart).run hTotal hAlong hRun
  rw [List.nil_append] at hAsks
  rcases hAsks with ⟨hFirst, -, -, hNone⟩ | ⟨market, k, hOn⟩
  · refine ⟨hNone ▸ List.nil_prefix, nodup_pages total, fun hStarted => ?_⟩
    rw [hFirst] at hStarted
    cases hStarted
  · refine ⟨⟨_, hOn.later⟩, nodup_pages total, fun _ => ⟨_, hOn.last, hOn.unanswered, fun res hReqid hRes => ?_⟩⟩
    rcases hOn.answer hTotal hReqid hRes with hEnd | ⟨p', out, market', k', hStep, hOut, hNext⟩
    · exact .inl hEnd
    · refine .inr ⟨p', out, (market', 1000 * (k' : Int)), hStep, hOut, ?_⟩
      rw [← hOut]
      exact ⟨_, hNext.later⟩

/-- The first market has two pages. -/
def twoPages (market : Int) : Int := if market = 2011 then 2000 else 0

theorem queries_are_pages_two : ∃ p outs,
    Machine.run (Paging.step pageEnv) {} [.queryInsInfoTimer, .response "more", .response "rest"] =
        some (p, outs) ∧
      queriesOf outs.flatten <+: pages twoPages ∧ (pages twoPages).Nodup ∧
      (p.started = true → ∃ query, (queriesOf outs.flatten).getLast? = some query ∧
        p.unanswered = [query] ∧ ∀ res, onReqid3 pageEnv (.response res) →
          InsRes pageEnv res (query.2, twoPages query.1) →
          (queriesOf outs.flatten = pages twoPages ∧ p.step pageEnv (.response res) = none) ∨
            ∃ p' out next, p.step pageEnv (.response res) = some (p', out) ∧ queriesOf out = [next] ∧
              queriesOf outs.flatten ++ [next] <+: pages twoPages) := by
  obtain ⟨p, outs, hRun⟩ : ∃ p outs, Machine.run (Paging.step pageEnv) {}
      [.queryInsInfoTimer, .response "more", .response "rest"] = some (p, outs) := ⟨_, _, rfl⟩
  have hTotal : ∀ m, 0 ≤ twoPages m ∧ twoPages m < 2 ^ 31 - 1000 := by
    intro m
    unfold twoPages
    split <;> decide
  have hTimer : onReqid3 pageEnv .queryInsInfoTimer = false := rfl
  have hMore : onReqid3 pageEnv (.response "more") = true := rfl
  have hIn : (2011 : Int) ∈ marketVec := List.mem_of_getElem? marketVec_first
  refine ⟨p, outs, hRun, queries_are_pages (fun m _ => hTotal m) rfl ?_ hRun⟩
  refine ⟨⟨fun _ => rfl, fun res hEq => by cases hEq⟩, fun p₁ out₁ hFirst => ?_⟩
  cases hFirst
  refine ⟨⟨fun hEq => Event.noConfusion hEq, fun res hEq _ => ⟨(2011, 0), ?_, ?_⟩⟩, fun p₂ out₂ hSecond => ?_⟩
  · dsimp only
    rw [queriesOf_timer, hTimer]
    rfl
  · cases hEq
    exact insRes_emptyPage (by decide) (by decide) rfl
  cases hSecond
  refine ⟨⟨fun hEq => Event.noConfusion hEq, fun res hEq _ => ⟨(2011, 1000), ?_, ?_⟩⟩, fun _ _ _ => trivial⟩
  · have hAsked : queriesOf [queryInsMsg 2011 (wrap32 (0 + 1000))] = [(2011, 1000)] :=
      queriesOf_ask hIn 1000 (by decide)
    dsimp only
    rw [queriesOf_timer, hTimer, hMore, hAsked]
    rfl
  · cases hEq
    exact insRes_emptyPage (by decide) (by decide) rfl

end DemoCode.FeedProxy
