import Mathlib.Logic.Function.Basic
import DemoCode.FeedProxy.ConvertService

/-! `Service` of `service.h` and `CliContext` of `cli_context.h`: a service accepts clients on the
contexts of its pool, and a context goes back to the end of the pool when it is closed.  What
libevent answers is an input; the monitor of idle connections, which `ConvertService` does not turn
on, is left out. -/

namespace DemoCode.FeedProxy

/-- `CliContext`: the place of its `mgr_` among the services, its flags, and whether `cli_bev_` is
there. -/
structure CliContext where
  mgr : Nat
  isExit : Bool := false
  isConnected : Bool := false
  cliBev : Bool := false
  deriving DecidableEq, Repr

/-- `Service`; the contexts of clients are known by their keys. -/
structure LevService where
  maxConn : UInt32
  currentConn : UInt32 := 0
  lstFreeConn : List CContext
  mpClientConn : List CContext := []
  deriving DecidableEq, Repr

/-- The services, with the contexts of all of them. -/
structure Pool where
  services : List LevService
  ctxs : CContext → CliContext

/-- `Initialize`: the contexts of the pool stand at addresses from one on. -/
def serviceInitialize (maxConn : UInt32) (base : CContext) : LevService where
  maxConn
  lstFreeConn := (List.range (maxConn + 10).toNat).map (base + ·)

/-- The context that an accept takes. -/
def LevService.next (service : LevService) : Option CContext :=
  if service.currentConn ≥ service.maxConn then none else service.lstFreeConn.head?

/-- `RecycleClientConn`. -/
def LevService.recycleClientConn (service : LevService) (conn : CContext) : LevService :=
  if conn ∈ service.mpClientConn then
    { service with
      mpClientConn := service.mpClientConn.erase conn
      currentConn := service.currentConn - 1
      lstFreeConn := service.lstFreeConn ++ [conn] }
  else
    service

namespace Pool

def modifyCtx (pool : Pool) (conn : CContext) (f : CliContext → CliContext) : Pool :=
  { pool with ctxs := Function.update pool.ctxs conn (f (pool.ctxs conn)) }

@[simp] theorem services_modifyCtx (pool : Pool) (conn : CContext) (f : CliContext → CliContext) :
    (pool.modifyCtx conn f).services = pool.services := rfl

theorem modifyCtx_keeps {α : Type*} (field : CliContext → α) (pool : Pool) (conn : CContext)
    {f : CliContext → CliContext} (hField : ∀ ctx, field (f ctx) = field ctx) (c : CContext) :
    field ((pool.modifyCtx conn f).ctxs c) = field (pool.ctxs c) := by
  show field (Function.update pool.ctxs conn (f (pool.ctxs conn)) c) = _
  by_cases hConn : c = conn
  · rw [hConn, Function.update_self, hField]
  · rw [Function.update_of_ne hConn]

def modifyService (pool : Pool) (i : Nat) (f : LevService → LevService) : Pool :=
  { pool with services := pool.services.modify i f }

@[simp] theorem ctxs_modifyService (pool : Pool) (i : Nat) (f : LevService → LevService) :
    (pool.modifyService i f).ctxs = pool.ctxs := rfl

/-- `mgr_.RecycleClientConn(this)`. -/
def recycle (pool : Pool) (conn : CContext) : Pool :=
  pool.modifyService (pool.ctxs conn).mgr fun service => service.recycleClientConn conn

/-- `Close`. -/
def close (pool : Pool) (conn : CContext) : Pool :=
  let ctx := pool.ctxs conn
  if ctx.isExit then
    pool
  else if !ctx.cliBev then
    pool.modifyCtx conn fun ctx => { ctx with isExit := true }
  else
    (pool.recycle conn).modifyCtx conn fun ctx => { ctx with isConnected := false, isExit := true }

theorem mgr_close (pool : Pool) (conn c : CContext) :
    ((pool.close conn).ctxs c).mgr = (pool.ctxs c).mgr := by
  rw [close]
  split
  · rfl
  split
  · apply modifyCtx_keeps CliContext.mgr
    exact fun _ => rfl
  · apply modifyCtx_keeps CliContext.mgr (pool.recycle conn)
    exact fun _ => rfl

/-- `Error` of an end of file or an error, up to the callback. -/
def error (pool : Pool) (conn : CContext) : Pool := (pool.close conn).recycle conn

/-- `AcceptClient`, up to the callback; libevent takes the socket or does not. -/
def acceptClient (pool : Pool) (conn : CContext) (taken : Bool) : Pool :=
  pool.modifyCtx conn fun ctx =>
    if taken then { ctx with isExit := false, cliBev := true, isConnected := true }
    else { ctx with isExit := false }

theorem mgr_acceptClient (pool : Pool) (conn : CContext) (taken : Bool) (c : CContext) :
    ((pool.acceptClient conn taken).ctxs c).mgr = (pool.ctxs c).mgr := by
  apply modifyCtx_keeps CliContext.mgr
  intro ctx
  split <;> rfl

/-- `AcceptHelper`, with the context that has a client now; the pool must not run out. -/
def acceptHelper (pool : Pool) (i : Nat) (taken : Bool) : Option (Pool × Option CContext) :=
  match pool.services[i]? with
  | none => some (pool, none)
  | some service =>
    if service.currentConn ≥ service.maxConn then
      some (pool, none)
    else
      match service.lstFreeConn with
      | [] => none
      | conn :: free =>
        let pool := (pool.modifyService i fun service => { service with lstFreeConn := free })
        let pool := pool.acceptClient conn taken
        if taken then
          some (pool.modifyService i fun service =>
            { service with
              currentConn := service.currentConn + 1
              mpClientConn := service.mpClientConn.insert conn }, some conn)
        else
          some ((pool.close conn).modifyService i fun service =>
            { service with lstFreeConn := service.lstFreeConn ++ [conn] }, none)

end Pool

theorem Pool.acceptHelper_next {pool pool' : Pool} {i : Nat} {taken : Bool} {conn : CContext}
    (h : pool.acceptHelper i taken = some (pool', some conn)) :
    ∃ service, pool.services[i]? = some service ∧ service.next = some conn := by
  rw [acceptHelper] at h
  split at h
  · cases h
  rename_i service hService
  refine ⟨service, hService, ?_⟩
  split at h
  · cases h
  rename_i hRoom
  split at h
  · cases h
  rename_i conn' free hFree
  dsimp only at h
  split at h
  · cases h
    rw [LevService.next, if_neg hRoom, hFree]
    rfl
  · cases h

theorem Pool.taken_of_acceptHelper {pool pool' : Pool} {i : Nat} {taken : Bool} {conn : CContext}
    (h : pool.acceptHelper i taken = some (pool', some conn)) : taken = true := by
  cases taken with
  | true => rfl
  | false =>
    rw [acceptHelper] at h
    split at h
    · cases h
    split at h
    · cases h
    split at h <;> cases h

end DemoCode.FeedProxy
