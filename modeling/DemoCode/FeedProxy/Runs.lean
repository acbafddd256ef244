import DemoCode.Lib.Machine
import DemoCode.Lib.PubSub
import DemoCode.FeedProxy.ConvertService

/-! Runs of `ConvertService`: its callbacks one after the other, in any order, with what each hands
on and what it means for the subscriptions of the connections. -/

namespace DemoCode.FeedProxy

open PubSub (Act)

/-- A callback of `ConvertService`; a request is one call of `ProcessReq`, a response one of
`ProcessRes`. -/
inductive Event where
  | accept (conn : CContext)
  | request (conn : CContext) (reqStr : List UInt8)
  | response (res : String)
  | disconnect (conn : CContext)
  | heartbeatTimer
  | queryInsInfoTimer
  deriving DecidableEq, Repr

def step (env : Env) (s : ConvertService) : Event → Option (ConvertService × List Out)
  | .accept conn => some (onLevAccept s conn, [])
  | .request conn reqStr => (processReq env s conn reqStr).map fun x => (x.1, x.2.1)
  | .response res => processRes env s res
  | .disconnect conn => some (onLevDisConnect s conn)
  | .heartbeatTimer => some (onSendHeartbeatTimer s)
  | .queryInsInfoTimer => some (s, onQueryInsInfoTimer)

/-- The connections that `CheckClientAlive` closes. -/
def ConvertService.dead (s : ConvertService) : List CContext :=
  (s.ctx2isLiveMap.entries.filter fun it => !it.2).map Sigma.fst

def ReqData.acts (conn : CContext) : ReqData → List (Act CContext String)
  | .sub data => data.map fun e => .sub conn e.key
  | .unsub data => data.map fun e => .unsub conn e.key
  | _ => []

/-- What an event means for the subscriptions. -/
def stepActs (env : Env) (s : ConvertService) : Event → List (Act CContext String)
  | .request conn reqStr =>
    match protoReq2JsonReq env s.utils (nextReqId s.reqId) reqStr with
    | some (some (ret, reqJson)) => if ret < 0 then [] else reqJson.data.acts conn
    | _ => []
  | .disconnect conn => [.drop conn]
  | .heartbeatTimer => s.dead.map .drop
  | _ => []

/-- One event in the log of a run. -/
structure Logged where
  acts : List (Act CContext String)
  out : List Out

/-- A step with its log. -/
def loggedStep (env : Env) (s : ConvertService) (ev : Event) : Option (ConvertService × Logged) :=
  (step env s ev).map fun x => (x.1, ⟨stepActs env s ev, x.2⟩)

/-- A run, with its log; nothing when a callback throws, leaves an array or does not return. -/
def run (env : Env) : ConvertService → List Event → Option (ConvertService × List Logged) :=
  Machine.run (loggedStep env)

/-- A condition on every step of a run, from the state before it. -/
def Along (env : Env) (P : ConvertService → Event → Prop) : ConvertService → List Event → Prop :=
  Machine.Along (loggedStep env) P

theorem loggedStep_eq {env : Env} {s s' : ConvertService} {ev : Event} {x : Logged} :
    loggedStep env s ev = some (s', x) ↔
      step env s ev = some (s', x.out) ∧ x.acts = stepActs env s ev := by
  obtain ⟨as, out⟩ := x
  simp only [loggedStep, Option.map_eq_some_iff, Prod.exists, Prod.mk.injEq, Logged.mk.injEq]
  constructor
  · rintro ⟨t, out', hStep, rfl, rfl, rfl⟩
    exact ⟨hStep, rfl⟩
  · rintro ⟨hStep, rfl⟩
    exact ⟨s', out, hStep, rfl, rfl, rfl⟩

theorem loggedStep_of_step {env : Env} {s s' : ConvertService} {ev : Event} {out : List Out}
    (h : step env s ev = some (s', out)) :
    loggedStep env s ev = some (s', ⟨stepActs env s ev, out⟩) :=
  loggedStep_eq.mpr ⟨h, rfl⟩

theorem run_cons {env : Env} {s t : ConvertService} {ev : Event} {evs : List Event}
    {log : List Logged} (h : run env s (ev :: evs) = some (t, log)) :
    ∃ s' out log', step env s ev = some (s', out) ∧ run env s' evs = some (t, log') ∧
      log = ⟨stepActs env s ev, out⟩ :: log' := by
  obtain ⟨s', ⟨as, out⟩, log', hStep, hRun, rfl⟩ := Machine.run_cons h
  obtain ⟨hStep', rfl⟩ := loggedStep_eq.mp hStep
  exact ⟨s', out, log', hStep', hRun, rfl⟩

theorem Along.tail {env : Env} {P : ConvertService → Event → Prop} {s s' : ConvertService}
    {ev : Event} {evs : List Event} {out : List Out} (h : Along env P s (ev :: evs))
    (hStep : step env s ev = some (s', out)) : Along env P s' evs :=
  h.2 s' ⟨stepActs env s ev, out⟩ (loggedStep_of_step hStep)

/-- What `ProcessReq` can do: refuse the request, or handle it converted; the counter has moved
either way. -/
theorem processReq_cases {env : Env} {s s' : ConvertService} {conn : CContext}
    {reqStr : List UInt8} {out : List Out} {ret : Int}
    (h : processReq env s conn reqStr = some (s', out, ret)) :
    (s' = { s with reqId := nextReqId s.reqId } ∧ out = [] ∧
        stepActs env s (.request conn reqStr) = []) ∨
      ∃ id reqJson,
        protoReq2JsonReq env s.utils (nextReqId s.reqId) reqStr = some (some (id, reqJson)) ∧
        0 ≤ id ∧
        handleReq { s with reqId := nextReqId s.reqId } conn (UInt64.ofInt id) reqJson =
          (s', out) ∧
        stepActs env s (.request conn reqStr) = reqJson.data.acts conn := by
  unfold processReq at h
  simp only [stepActs]
  cases hConverted : protoReq2JsonReq env s.utils (nextReqId s.reqId) reqStr with
  | none => simp only [hConverted, reduceCtorEq] at h
  | some converted =>
    simp only [hConverted] at h
    rcases converted with _ | ⟨id, reqJson⟩
    · simp only [Option.some.injEq, Prod.mk.injEq] at h
      exact .inl ⟨h.1.symm, h.2.1.symm, rfl⟩
    by_cases hNeg : id < 0
    · simp only [if_pos hNeg, Option.some.injEq, Prod.mk.injEq] at h ⊢
      exact .inl ⟨h.1.symm, h.2.1.symm, trivial⟩
    · simp only [if_neg hNeg, Option.some.injEq, Prod.mk.injEq] at h ⊢
      exact .inr ⟨id, reqJson, ⟨rfl, rfl⟩, by omega, Prod.ext h.1 h.2.1, rfl⟩

/-- What `ProcessRes` can do, once the response has been converted. -/
theorem processRes_cases {env : Env} {s s' : ConvertService} {res : String} {out : List Out}
    (h : processRes env s res = some (s', out)) :
    (s' = s ∧ out = []) ∨
      ∃ resJson reqId msgs utils, env.parseJson res = some resJson ∧
        jsonRes2ProtoRes env s.utils resJson = some (some (reqId, msgs, utils)) ∧
        ((s' = { s with utils } ∧ out = []) ∨
          (reqId = 3 ∧ processInsRes { s with utils } resJson = some (s', out)) ∨
          (reqId = 0 ∧ processPush { s with utils } resJson msgs = some (s', out)) ∨
          (reqId ∉ [0, 1, 2, 3, 4, 5] ∧ processReply { s with utils } reqId msgs = (s', out))) := by
  unfold processRes at h
  cases hParse : env.parseJson res with
  | none =>
    simp only [hParse, Option.some.injEq, Prod.mk.injEq] at h
    exact .inl ⟨h.1.symm, h.2.symm⟩
  | some resJson =>
    simp only [hParse, Option.bind_eq_bind, Option.bind_eq_some_iff] at h
    obtain ⟨converted, hConverted, h⟩ := h
    rcases converted with _ | ⟨reqId, msgs, utils⟩
    · simp only [Option.some.injEq, Prod.mk.injEq] at h
      exact .inl ⟨h.1.symm, h.2.symm⟩
    refine .inr ⟨resJson, reqId, msgs, utils, rfl, hConverted, ?_⟩
    dsimp only at h
    by_cases h12 : reqId = 1 ∨ reqId = 2
    · rw [if_pos h12, Option.some.injEq, Prod.mk.injEq] at h
      exact .inl ⟨h.1.symm, h.2.symm⟩
    rw [if_neg h12] at h
    by_cases h3 : reqId = 3
    · rw [if_pos h3] at h
      exact .inr (.inl ⟨h3, h⟩)
    rw [if_neg h3] at h
    by_cases h45 : reqId = 4 ∨ reqId = 5
    · rw [if_pos h45, Option.some.injEq, Prod.mk.injEq] at h
      exact .inl ⟨h.1.symm, h.2.symm⟩
    rw [if_neg h45] at h
    by_cases h0 : reqId = 0
    · rw [if_pos h0] at h
      exact .inr (.inr (.inl ⟨h0, h⟩))
    rw [if_neg h0, Option.some.injEq] at h
    exact .inr (.inr (.inr ⟨by simp; omega, h⟩))

end DemoCode.FeedProxy
