import DemoCode.FeedProxy.LevService
import DemoCode.FeedProxy.Replies

/-! `ConvertService` over the pool of its services: which session of a context a reply goes to, as
contexts are handed from one client to the next while requests are pending. -/

namespace DemoCode.FeedProxy

/-- A request that went upstream: its id, and the context and the session that it came from. -/
structure Issue where
  id : Int
  conn : CContext
  session : Nat
  deriving DecidableEq, Repr

/-- The program, with two things that it does not know: how many clients have had each context, and
the requests that went upstream. -/
structure System where
  service : ConvertService
  pool : Pool
  session : CContext → Nat := fun _ => 0
  issued : List Issue := []

inductive SystemEvent where
  | accept (i : Nat) (taken : Bool)
  | request (conn : CContext) (reqStr : List UInt8)
  | response (res : String)
  | error (conn : CContext)
  | heartbeatTimer
  | queryInsInfoTimer
  deriving DecidableEq, Repr

/-- The contexts that are closed, one after the other. -/
def closeAll (pool : Pool) (out : List Out) : Pool :=
  out.foldl (fun pool o =>
    match o with
    | .close conn => pool.close conn
    | _ => pool) pool

def System.step (env : Env) (w : System) : SystemEvent → Option (System × List Out)
  | .accept i taken => do
    let (pool, accepted) ← w.pool.acceptHelper i taken
    match accepted with
    | none => some ({ w with pool }, [])
    | some conn =>
      some ({ w with
        pool
        service := onLevAccept w.service conn
        session := Function.update w.session conn (w.session conn + 1) }, [])
  | .request conn reqStr => do
    let (service, out) ← FeedProxy.step env w.service (.request conn reqStr)
    let issues := (issuedBy out).map fun id => ⟨id, conn, w.session conn⟩
    some ({ w with service, issued := w.issued ++ issues }, out)
  | .response res => do
    let (service, out) ← FeedProxy.step env w.service (.response res)
    some ({ w with service }, out)
  | .error conn =>
    let (service, out) := onLevDisConnect w.service conn
    some ({ w with service, pool := w.pool.error conn }, out)
  | .heartbeatTimer =>
    let (service, out) := onSendHeartbeatTimer w.service
    some ({ w with service, pool := closeAll w.pool out }, out)
  | .queryInsInfoTimer => some (w, onQueryInsInfoTimer)

/-- The latest request that went upstream under an id. -/
def latestIssue (issued : List Issue) (id : Int) : Option Issue :=
  (issued.filter fun r => r.id = id).getLast?

/-- What an event sends to clients goes to the session that asked: at once to the context of the
request, and for the response to a request to its context in the session of the request. -/
def OwnSession (env : Env) (w : System) (ev : SystemEvent) (out : List Out) : Prop :=
  match ev with
  | .request conn _ => ∀ c mc, .send c mc ∈ out → c = conn
  | .response res => ∀ resJson r, env.parseJson res = some resJson →
    resReqId resJson = some r.id → latestIssue w.issued r.id = some r →
    ∀ c mc, .send c mc ∈ out → c = r.conn ∧ w.session c = r.session
  | _ => ∀ c mc, .send c mc ∉ out

/-- The pool hands out no context that a pending id still names. -/
def AcceptsFree (w : System) : SystemEvent → Prop
  | .accept i _ => ∀ service conn, w.pool.services[i]? = some service →
    service.next = some conn → ∀ id, w.service.id2ctxMap.lookup id ≠ some (some conn)
  | _ => True

/-- Nothing has been asked yet. -/
structure System.Fresh (w : System) : Prop where
  reqId : w.service.reqId = reqIdStart
  pending : w.service.id2ctxMap = ∅
  issued : w.issued = []

/-! ### The invariant -/

/-- Every pending id names the context of the latest request under it, in the session that the
context is in. -/
structure System.Inv (w : System) : Prop where
  counter : w.service.CounterOk
  ids : ∀ r ∈ w.issued, r.id ∉ [0, 1, 2, 3, 4, 5]
  pending : ∀ i c, w.service.id2ctxMap.lookup i = some (some c) →
    latestIssue w.issued i = some ⟨i, c, w.session c⟩

theorem latestIssue_append (xs ys : List Issue) (i : Int) :
    latestIssue (xs ++ ys) i = (latestIssue ys i).or (latestIssue xs i) := by
  rw [latestIssue, List.filter_append, List.getLast?_append]
  rfl

theorem latestIssue_map (ids : List Int) (conn : CContext) (session : Nat) (i : Int) :
    latestIssue (ids.map fun id => ⟨id, conn, session⟩) i =
      if i ∈ ids then some ⟨i, conn, session⟩ else none := by
  induction ids with
  | nil => rfl
  | cons id ids ih =>
    rw [List.map_cons, ← List.singleton_append, latestIssue_append, ih]
    by_cases hIn : i ∈ ids
    · rw [if_pos hIn, if_pos (List.mem_cons_of_mem _ hIn)]
      rfl
    · rw [if_neg hIn, Option.none_or]
      by_cases hId : id = i
      · simp [latestIssue, hId]
      · simp [latestIssue, hId, hIn, Ne.symm hId]

theorem System.Fresh.inv {w : System} (h : w.Fresh) : w.Inv := by
  constructor
  · exact .inl ⟨by rw [h.reqId], by rw [h.reqId]; decide⟩
  · rw [h.issued]
    exact fun r hIn => absurd hIn List.not_mem_nil
  · intro i c hLookup
    rw [h.pending] at hLookup
    cases hLookup

/-- An id goes up from the start, or is the one where the counter overflows. -/
theorem issued_not_reserved {s s' : ConvertService} {conn : CContext} {out : List Out}
    (hOk : s.CounterOk) (h : Issues conn { s with reqId := nextReqId s.reqId } s' out) :
    ∀ i ∈ issuedBy out, i ∉ [0, 1, 2, 3, 4, 5] := by
  intro i hIn
  obtain ⟨hLow, hHigh⟩ := nextReqId_range hOk
  unfold reqIdStart at hLow
  have hRange : 10 ≤ i ∨ i = -2 ^ 31 := by
    rcases h.ids i hIn with hId | hId
    · exact .inl (by rw [hId]; exact hLow)
    · by_cases hMax : nextReqId s.reqId + 1 < 2 ^ 31
      · rw [wrap32_of_range (by omega) hMax] at hId
        omega
      · have hEq : nextReqId s.reqId + 1 = 2 ^ 31 := by omega
        dsimp only at hId
        rw [hEq] at hId
        exact .inr (hId.trans (by decide))
  simp only [List.mem_cons, List.not_mem_nil, or_false]
  omega

/-- A step that leaves the sessions and the issues, and takes ids out at most, keeps the
invariant. -/
theorem System.Inv.of_lookup {w w' : System} (hInv : w.Inv) (hOk : w'.service.CounterOk)
    (hSession : w'.session = w.session) (hIssued : w'.issued = w.issued)
    (hLookup : ∀ i, w'.service.id2ctxMap.lookup i = w.service.id2ctxMap.lookup i ∨
      w'.service.id2ctxMap.lookup i = none) : w'.Inv := by
  refine ⟨hOk, by rw [hIssued]; exact hInv.ids, ?_⟩
  intro i c hPending
  rw [hSession, hIssued]
  rcases hLookup i with hSame | hNone
  · exact hInv.pending i c (hSame ▸ hPending)
  · rw [hNone] at hPending
    cases hPending

/-- **Step**: an accept that takes no context of a pending id, and every other event, keeps the
invariant. -/
theorem System.Inv.step {env : Env} {w w' : System} {ev : SystemEvent} {out : List Out}
    (hInv : w.Inv) (hFree : AcceptsFree w ev) (h : w.step env ev = some (w', out)) : w'.Inv := by
  cases ev with
  | accept i taken =>
    simp only [System.step, Option.bind_eq_bind, Option.bind_eq_some_iff, Prod.exists] at h
    obtain ⟨pool, accepted, hAccept, h⟩ := h
    rcases accepted with _ | conn
    · cases h
      exact ⟨hInv.counter, hInv.ids, hInv.pending⟩
    · cases h
      obtain ⟨service, hService, hNext⟩ := Pool.acceptHelper_next hAccept
      refine ⟨hInv.counter, hInv.ids, ?_⟩
      intro id c hPending
      have hOther : c ≠ conn := by
        rintro rfl
        exact hFree service c hService hNext id hPending
      show latestIssue w.issued id = some ⟨id, c, Function.update w.session conn _ c⟩
      rw [Function.update_of_ne hOther]
      exact hInv.pending id c hPending
  | request conn reqStr =>
    simp only [System.step, Option.bind_eq_bind, Option.bind_eq_some_iff, Prod.exists] at h
    obtain ⟨service, out', hStep, h⟩ := h
    cases h
    obtain ⟨hIssues, -⟩ := step_request hStep
    refine ⟨step_counterOk hInv.counter hStep, ?_, ?_⟩
    · intro r hIn
      rcases List.mem_append.mp hIn with hOld | hNew
      · exact hInv.ids r hOld
      · obtain ⟨id, hId, rfl⟩ := List.mem_map.mp hNew
        exact issued_not_reserved hInv.counter hIssues id hId
    · intro i c hPending
      dsimp only at hPending ⊢
      rw [hIssues.pending i] at hPending
      rw [latestIssue_append, latestIssue_map]
      by_cases hIn : i ∈ issuedBy out
      · rw [if_pos hIn, Option.some.injEq, Option.some.injEq] at hPending
        rw [if_pos hIn, hPending]
        rfl
      · rw [if_neg hIn] at hPending
        rw [if_neg hIn, Option.none_or]
        exact hInv.pending i c hPending
  | response res =>
    simp only [System.step, Option.bind_eq_bind, Option.bind_eq_some_iff, Prod.exists] at h
    obtain ⟨service, out', hStep, h⟩ := h
    cases h
    exact hInv.of_lookup (step_counterOk hInv.counter hStep) rfl rfl
      fun i => ((step_response hStep).2 i).imp_right And.left
  | error conn =>
    cases h
    obtain ⟨hId, hMap⟩ := Prod.mk.inj (onLevDisConnect_ids w.service conn)
    have hStep : FeedProxy.step env w.service (.disconnect conn) =
        some (onLevDisConnect w.service conn) := rfl
    exact hInv.of_lookup (step_counterOk hInv.counter hStep) rfl rfl
      fun i => .inl (congrArg (AList.lookup i) hMap)
  | heartbeatTimer =>
    cases h
    have hStep : FeedProxy.step env w.service .heartbeatTimer =
        some (onSendHeartbeatTimer w.service) := rfl
    exact hInv.of_lookup (step_counterOk hInv.counter hStep) rfl rfl
      fun i => ((checkClientAlive_ids w.service).2 i).imp_right And.left
  | queryInsInfoTimer =>
    cases h
    exact hInv

/-! ### What is sent -/

def Out.NoSend (o : Out) : Prop := ∀ c mc, o ≠ .send c mc

theorem noSend_unsubMsg {key : String} {o : Out} (h : o ∈ unsubMsg key) : o.NoSend := by
  obtain ⟨text, rfl⟩ := mem_unsubMsg h
  exact fun c mc h => by cases h

theorem onLevDisConnect_noSend (s : ConvertService) (conn : CContext) :
    ∀ o ∈ (onLevDisConnect s conn).2, o.NoSend := by
  intro o hIn
  obtain ⟨key, hMsg⟩ := mem_onLevDisConnect o hIn
  exact noSend_unsubMsg hMsg

theorem onSendHeartbeatTimer_noSend (s : ConvertService) :
    ∀ o ∈ (onSendHeartbeatTimer s).2, o.NoSend := by
  intro o hIn
  rcases mem_onSendHeartbeatTimer o hIn with ⟨key, hMsg⟩ | ⟨conn, rfl⟩ | rfl
  · exact noSend_unsubMsg hMsg
  · exact fun c mc h => by cases h
  · exact fun c mc h => by cases h

/-- The response to a request is sent to the connection that is kept with its id, if to any. -/
theorem processRes_send {env : Env} {s s' : ConvertService} {res : String} {resJson : Json}
    {reqId : Int} {out : List Out} {c : CContext} {mc : MsgCarrier Reply}
    (hParse : env.parseJson res = some resJson) (hId : resReqId resJson = some reqId)
    (hReserved : reqId ∉ [0, 1, 2, 3, 4, 5]) (h : processRes env s res = some (s', out))
    (hSend : .send c mc ∈ out) : s.id2ctxMap.lookup reqId = some (some c) := by
  rcases processRes_cases h with
    ⟨-, rfl⟩ | ⟨resJson', reqId', msgs, utils, hParse', hConverted, hCase⟩
  · exact absurd hSend List.not_mem_nil
  obtain rfl : resJson' = resJson := Option.some.inj (hParse'.symm.trans hParse)
  obtain rfl : reqId' = reqId :=
    Option.some.inj ((jsonRes2ProtoRes_cases hConverted).1.symm.trans hId)
  rcases hCase with ⟨-, rfl⟩ | ⟨rfl, -⟩ | ⟨rfl, -⟩ | ⟨-, hReply⟩
  · exact absurd hSend List.not_mem_nil
  · exact absurd (by decide) hReserved
  · exact absurd (by decide) hReserved
  · rw [processReply] at hReply
    split at hReply
    · cases hReply
      exact absurd hSend List.not_mem_nil
    · rename_i ctx hLookup
      cases hReply
      rcases ctx with _ | conn
      · exact absurd hSend List.not_mem_nil
      · obtain ⟨msg, -, hEq⟩ := List.mem_map.mp hSend
        cases hEq
        exact hLookup

/-- What an event sends from a state with the invariant goes to the session that asked. -/
theorem System.Inv.ownSession {env : Env} {w w' : System} {ev : SystemEvent} {out : List Out}
    (hInv : w.Inv) (h : w.step env ev = some (w', out)) : OwnSession env w ev out := by
  cases ev with
  | accept i taken =>
    simp only [System.step, Option.bind_eq_bind, Option.bind_eq_some_iff, Prod.exists] at h
    obtain ⟨pool, accepted, -, h⟩ := h
    rcases accepted with _ | conn
    · cases h
      exact fun c mc hIn => absurd hIn List.not_mem_nil
    · cases h
      exact fun c mc hIn => absurd hIn List.not_mem_nil
  | request conn reqStr =>
    simp only [System.step, Option.bind_eq_bind, Option.bind_eq_some_iff, Prod.exists] at h
    obtain ⟨service, out', hStep, h⟩ := h
    cases h
    exact fun c mc hIn => (step_request_send hStep hIn).1
  | response res =>
    simp only [System.step, Option.bind_eq_bind, Option.bind_eq_some_iff, Prod.exists] at h
    obtain ⟨service, out', hStep, h⟩ := h
    cases h
    intro resJson r hParse hId hLatest c mc hSend
    have hIn : r ∈ w.issued := (List.mem_filter.mp (List.mem_of_getLast? hLatest)).1
    have hPending := processRes_send hParse hId (hInv.ids r hIn) hStep hSend
    have hSame := (hInv.pending r.id c hPending).symm.trans hLatest
    rw [Option.some.injEq] at hSame
    rw [← hSame]
    exact ⟨rfl, rfl⟩
  | error conn =>
    cases h
    exact fun c mc hIn => onLevDisConnect_noSend w.service conn _ hIn c mc rfl
  | heartbeatTimer =>
    cases h
    exact fun c mc hIn => onSendHeartbeatTimer_noSend w.service _ hIn c mc rfl
  | queryInsInfoTimer =>
    cases h
    intro c mc hIn
    simp [onQueryInsInfoTimer, queryInsMsg] at hIn

/-- **Replies never cross sessions** in a run whose accepts take no context of a pending id. -/
theorem run_ownSession {env : Env} {w₀ w w' : System} {evs : List SystemEvent} {ev : SystemEvent}
    {outs : List (List Out)} {out : List Out} (hStart : w₀.Fresh)
    (hFree : Machine.Along (System.step env) AcceptsFree w₀ evs)
    (hRun : Machine.run (System.step env) w₀ evs = some (w, outs))
    (h : w.step env ev = some (w', out)) : OwnSession env w ev out := by
  have hInv : w.Inv :=
    Machine.run_keeps (fun hInv hFree hStep => hInv.step hFree hStep) hStart.inv hFree hRun
  exact hInv.ownSession h

/-- One service, with addresses from 65536 on. -/
def sessionStart (maxConn : UInt32) : System where
  service := tickStart
  pool := ⟨[serviceInitialize maxConn 65536], fun _ => { mgr := 0 }⟩

/-- A client subscribes, and the response comes while it is there. -/
theorem run_ownSession_reply :
    ∃ w outs w' out, Machine.run (System.step replyEnv) (sessionStart 1)
        [.accept 0 true, .request 65536 [0x01]] = some (w, outs) ∧
      w.step replyEnv (.response "reply") = some (w', out) ∧
      OwnSession replyEnv w (.response "reply") out := by
  refine ⟨_, _, _, _, rfl, rfl, ?_⟩
  refine @run_ownSession replyEnv (sessionStart 1) _ _ [.accept 0 true, .request 65536 [0x01]] _ _ _
    ⟨rfl, rfl, rfl⟩ ?_ rfl rfl
  refine Machine.along_cons ?_ rfl (Machine.along_cons trivial rfl trivial)
  intro service conn _ _ id hPending
  cases hPending

/-! ### A context that comes round again -/

/-- One service, whose contexts are all free. -/
structure Idle (w : System) (maxConn : UInt32) (free : List CContext) : Prop where
  services : w.pool.services = [⟨maxConn, 0, free, []⟩]
  mgr : ∀ c, (w.pool.ctxs c).mgr = 0

/-- One service, with one client. -/
structure Busy (w : System) (maxConn : UInt32) (conn : CContext) (free : List CContext) : Prop where
  services : w.pool.services = [⟨maxConn, 1, free, [conn]⟩]
  mgr : ∀ c, (w.pool.ctxs c).mgr = 0
  live : (w.pool.ctxs conn).isExit = false ∧ (w.pool.ctxs conn).cliBev = true

theorem Idle.accept {env : Env} {w : System} {maxConn : UInt32} {conn : CContext}
    {free : List CContext} (h : Idle w maxConn (conn :: free)) (hMax : ¬0 ≥ maxConn) :
    ∃ w', w.step env (.accept 0 true) = some (w', []) ∧ Busy w' maxConn conn free ∧
      w'.service = onLevAccept w.service conn ∧ w'.issued = w.issued ∧
      w'.session = Function.update w.session conn (w.session conn + 1) := by
  simp only [System.step, Pool.acceptHelper, h.services, List.getElem?_cons_zero, if_neg hMax,
    if_true, Option.bind_eq_bind, Option.bind_some]
  refine ⟨_, rfl, ⟨?_, ?_, ?_⟩, rfl, rfl, rfl⟩
  · simp [Pool.modifyService, Pool.acceptClient, h.services]
  · exact fun c => (Pool.mgr_acceptClient _ conn true c).trans (h.mgr c)
  · simp [Pool.acceptClient, Pool.modifyCtx]

theorem Busy.error {env : Env} {w : System} {maxConn : UInt32} {conn : CContext}
    {free : List CContext} (h : Busy w maxConn conn free) :
    ∃ w' out, w.step env (.error conn) = some (w', out) ∧ Idle w' maxConn (free ++ [conn]) ∧
      w'.service = (onLevDisConnect w.service conn).1 ∧ w'.issued = w.issued ∧
      w'.session = w.session := by
  obtain ⟨hExit, hBev⟩ := h.live
  have hClose : w.pool.close conn = (w.pool.recycle conn).modifyCtx conn fun ctx =>
      { ctx with isConnected := false, isExit := true } := by
    simp [Pool.close, hExit, hBev]
  have hMgr : ∀ c, ((w.pool.close conn).ctxs c).mgr = 0 :=
    fun c => (w.pool.mgr_close conn c).trans (h.mgr c)
  have hRecycle : (w.pool.close conn).services = [⟨maxConn, 0, free ++ [conn], []⟩] := by
    rw [hClose]
    simp [Pool.recycle, Pool.modifyService, h.mgr, h.services, LevService.recycleClientConn]
  refine ⟨_, _, rfl, ⟨?_, hMgr⟩, rfl, rfl, rfl⟩
  show ((w.pool.close conn).recycle conn).services = _
  rw [Pool.recycle, hMgr, Pool.modifyService, hRecycle]
  simp [LevService.recycleClientConn]

/-- A client comes on each of the contexts and goes again. -/
def cycle (conns : List CContext) : List SystemEvent :=
  conns.flatMap fun conn => [.accept 0 true, .error conn]

/-- The contexts that have come round stand at the end of the pool; the ids, the requests and the
sessions of other contexts are as before. -/
theorem Idle.cycle {env : Env} {w : System} {maxConn : UInt32} {conns free : List CContext}
    (h : Idle w maxConn (conns ++ free)) (hMax : ¬0 ≥ maxConn) :
    ∃ w' outs, Machine.run (System.step env) w (cycle conns) = some (w', outs) ∧
      Idle w' maxConn (free ++ conns) ∧ w'.service.id2ctxMap = w.service.id2ctxMap ∧
      w'.issued = w.issued ∧ ∀ c ∉ conns, w'.session c = w.session c := by
  induction conns generalizing w free with
  | nil => exact ⟨w, [], rfl, by simpa using h, rfl, rfl, fun _ _ => rfl⟩
  | cons conn conns ih =>
    obtain ⟨w₁, hAccept, hBusy, hService, hIssued, hSession⟩ := @Idle.accept env _ _ _ _ h hMax
    obtain ⟨w₂, out, hError, hIdle, hService₂, hIssued₂, hSession₂⟩ := @Busy.error env _ _ _ _ hBusy
    have hRest : Idle w₂ maxConn (conns ++ (free ++ [conn])) := by
      rw [← List.append_assoc]
      exact hIdle
    obtain ⟨w', outs, hRun, hLast, hMap, hIssued', hSession'⟩ := ih hRest
    refine ⟨w', [] :: out :: outs, ?_, by simpa using hLast, ?_, ?_, ?_⟩
    · exact Machine.run_step hAccept (Machine.run_step hError hRun)
    · rw [hMap, hService₂, (Prod.mk.inj (onLevDisConnect_ids w₁.service conn)).2, hService]
      rfl
    · rw [hIssued', hIssued₂, hIssued]
    · intro c hOut
      obtain ⟨hConn, hOthers⟩ := not_or.mp (fun hIn => hOut (List.mem_cons.mpr hIn))
      rw [hSession' c hOthers, hSession₂, hSession, Function.update_of_ne hConn]

/-- A context whose client goes away comes round to another client, and the pending ids that name it
stay. -/
theorem Busy.reuse {env : Env} {w : System} {maxConn : UInt32} {conn : CContext}
    {free : List CContext} (h : Busy w maxConn conn free) (hMax : ¬0 ≥ maxConn)
    (hOut : conn ∉ free) :
    ∃ w' outs, Machine.run (System.step env) w
        (.error conn :: (cycle free ++ [.accept 0 true])) = some (w', outs) ∧
      w'.service.id2ctxMap = w.service.id2ctxMap ∧ w'.issued = w.issued ∧
      w'.session conn = w.session conn + 1 := by
  obtain ⟨w₁, out, hError, hIdle, hService, hIssued, hSession⟩ := @Busy.error env _ _ _ _ h
  obtain ⟨w₂, outs, hCycle, hIdle₂, hMap₂, hIssued₂, hSession₂⟩ := @Idle.cycle env _ _ _ _ hIdle hMax
  obtain ⟨w₃, hAccept, -, hService₃, hIssued₃, hSession₃⟩ := @Idle.accept env _ _ _ _ hIdle₂ hMax
  have hLast : Machine.run (System.step env) w₂ [.accept 0 true] = some (w₃, [[]]) :=
    Machine.run_step hAccept rfl
  refine ⟨w₃, out :: (outs ++ [[]]), ?_, ?_, ?_, ?_⟩
  · exact Machine.run_step hError (Machine.run_append hCycle hLast)
  · rw [hService₃]
    show w₂.service.id2ctxMap = _
    rw [hMap₂, hService]
    exact (Prod.mk.inj (onLevDisConnect_ids w.service conn)).2
  · rw [hIssued₃, hIssued₂, hIssued]
  · rw [hSession₃, Function.update_self, hSession₂ conn hOut, hSession]

/-- The contexts of a pool after the first. -/
def laterConns (n : Nat) : List CContext := (List.range n).map (65537 + ·)

theorem sessionStart_idle {maxConn : UInt32} {n : Nat} (h : (maxConn + 10).toNat = n + 1) :
    Idle (sessionStart maxConn) maxConn (65536 :: laterConns n) := by
  refine ⟨?_, fun _ => rfl⟩
  show [serviceInitialize maxConn 65536] = _
  rw [serviceInitialize, h, List.range_succ_eq_map, List.map_cons, List.map_map, laterConns]
  have hShift : ((65536 + ·) ∘ Nat.succ : Nat → Nat) = (65537 + ·) := by
    funext i
    show 65536 + (i + 1) = 65537 + i
    omega
  rw [hShift]

/-- A client asks and goes away, and the response goes to the client that has its context by then. -/
theorem run_ownSession_reused :
    ¬∀ (env : Env) (w₀ w w' : System) (evs : List SystemEvent) (ev : SystemEvent)
      (outs : List (List Out)) (out : List Out), w₀.Fresh →
      Machine.run (System.step env) w₀ evs = some (w, outs) →
      w.step env ev = some (w', out) → OwnSession env w ev out := by
  intro h
  obtain ⟨w₁, hAccept, hBusy, hService, hIssued, hSession⟩ :=
    @Idle.accept replyEnv _ _ _ _ (@sessionStart_idle 3000 3009 rfl) (by decide)
  obtain ⟨s₂, out₂, hRequest, hIds, hPending⟩ : ∃ s₂ out₂,
      step replyEnv w₁.service (.request 65536 [0x01]) = some (s₂, out₂) ∧
      issuedBy out₂ = [11] ∧ s₂.id2ctxMap.lookup 11 = some (some 65536) := by
    rw [hService]
    exact ⟨_, _, rfl, rfl, rfl⟩
  have hBusy₂ : Busy { w₁ with service := s₂, issued := [⟨11, 65536, 1⟩] } 3000 65536
      (laterConns 3009) :=
    ⟨hBusy.services, hBusy.mgr, hBusy.live⟩
  have hOut : 65536 ∉ laterConns 3009 := by
    intro hIn
    obtain ⟨i, -, hEq⟩ := List.mem_map.mp hIn
    have hConn : (65537 : Nat) + i = 65536 := hEq
    omega
  obtain ⟨w₃, outs, hRun, hMap, hIssued₃, hSession₃⟩ :=
    @Busy.reuse replyEnv _ _ _ _ hBusy₂ (by decide) hOut
  have hStep₂ : w₁.step replyEnv (.request 65536 [0x01]) =
      some ({ w₁ with service := s₂, issued := [⟨11, 65536, 1⟩] }, out₂) := by
    simp only [System.step, hRequest, Option.bind_eq_bind, Option.bind_some, hIds, hIssued, hSession]
    rfl
  have hFull : Machine.run (System.step replyEnv) (sessionStart 3000)
      (.accept 0 true :: .request 65536 [0x01] :: .error 65536 ::
        (cycle (laterConns 3009) ++ [.accept 0 true])) = some (w₃, [] :: out₂ :: outs) :=
    Machine.run_step hAccept (Machine.run_step hStep₂ hRun)
  obtain ⟨mc, s₄, -, -, hRes⟩ := @processRes_reply replyEnv w₃.service "reply" replyJson 11 200 _ rfl
    rfl (by decide) rfl (by decide) rfl
  rw [hMap, hPending] at hRes
  have hStep₄ : w₃.step replyEnv (.response "reply") =
      some ({ w₃ with service := s₄ }, [.send 65536 mc]) := by
    simp only [System.step, step, hRes, Option.bind_eq_bind, Option.bind_some]
  have hLatest : latestIssue w₃.issued 11 = some ⟨11, 65536, 1⟩ := by
    rw [hIssued₃]
    rfl
  obtain ⟨-, hSame⟩ := h _ _ _ _ _ _ _ _ ⟨rfl, rfl, rfl⟩ hFull hStep₄ replyJson ⟨11, 65536, 1⟩ rfl
    rfl hLatest 65536 mc (List.mem_singleton_self _)
  have hOther : w₃.session 65536 = 2 := by
    rw [hSession₃, hSession]
    rfl
  rw [hOther] at hSame
  exact absurd hSame (by decide)

end DemoCode.FeedProxy
