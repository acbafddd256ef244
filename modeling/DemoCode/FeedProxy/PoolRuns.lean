import Mathlib.Data.List.Nodup
import DemoCode.Lib.Machine
import DemoCode.FeedProxy.LevService

/-! Runs of the pools of contexts: accepts, closes and errors of any contexts, in any order.  Each
service keeps every context it was made with, either free or with a client. -/

namespace DemoCode.FeedProxy

inductive PoolEvent where
  | accept (i : Nat) (taken : Bool)
  | close (conn : CContext)
  | error (conn : CContext)
  deriving DecidableEq, Repr

/-- A step, with the context that has a client now. -/
def Pool.step (pool : Pool) : PoolEvent → Option (Pool × Option CContext)
  | .accept i taken => pool.acceptHelper i taken
  | .close conn => some (pool.close conn, none)
  | .error conn => some (pool.error conn, none)

/-- The contexts are free or with a client, none of them twice, and `current_conn_` counts those with
a client. -/
structure LevService.Conserved (service : LevService) : Prop where
  nodup : (service.lstFreeConn ++ service.mpClientConn).Nodup
  total : service.lstFreeConn.length + service.mpClientConn.length = service.maxConn.toNat + 10
  current : service.currentConn.toNat = service.mpClientConn.length
  limit : service.mpClientConn.length ≤ service.maxConn.toNat

/-! ### One service -/

theorem serviceInitialize_conserved {maxConn : UInt32} (h : maxConn.toNat + 10 < 2 ^ 32)
    (base : CContext) : (serviceInitialize maxConn base).Conserved := by
  have hLength : (maxConn + 10).toNat = maxConn.toNat + 10 := by
    rw [UInt32.toNat_add]
    exact Nat.mod_eq_of_lt h
  constructor
  · rw [serviceInitialize, List.append_nil]
    exact List.nodup_range.map fun _ _ hEq => Nat.add_left_cancel hEq
  · simp [serviceInitialize, hLength]
  · rfl
  · exact Nat.zero_le _

theorem LevService.Conserved.recycle {service : LevService} (h : service.Conserved)
    (conn : CContext) : (service.recycleClientConn conn).Conserved := by
  rw [recycleClientConn]
  split
  · rename_i hIn
    have hPos := List.length_pos_of_mem hIn
    have hErase := List.length_erase_of_mem hIn
    have hMoved : (service.lstFreeConn ++ [conn] ++ service.mpClientConn.erase conn).Perm
        (service.lstFreeConn ++ service.mpClientConn) := by
      rw [List.append_assoc]
      exact (List.perm_cons_erase hIn).symm.append_left _
    have hTotal := h.total
    have hCurrent := h.current
    have hLimit := h.limit
    constructor
    · exact hMoved.nodup_iff.mpr h.nodup
    · simp only [List.length_append, List.length_singleton, hErase]
      omega
    · dsimp only
      rw [hErase, UInt32.toNat_sub_of_le]
      · rw [hCurrent]
        rfl
      · rw [UInt32.le_iff_toNat_le, hCurrent]
        exact hPos
    · dsimp only
      omega
  · exact h

/-- A context that is free has no client to be recycled. -/
theorem LevService.Conserved.not_mem {service : LevService} {conn : CContext} {free : List CContext}
    (h : service.Conserved) (hFree : service.lstFreeConn = conn :: free) :
    conn ∉ service.mpClientConn := by
  have hNodup := h.nodup
  rw [hFree, List.cons_append, List.nodup_cons] at hNodup
  exact fun hIn => hNodup.1 (List.mem_append_right _ hIn)

/-- The pool does not run out below the limit. -/
theorem LevService.Conserved.free_ne {service : LevService} (h : service.Conserved) :
    service.lstFreeConn ≠ [] := by
  intro hEmpty
  have hTotal := h.total
  have hLimit := h.limit
  rw [hEmpty, List.length_nil] at hTotal
  omega

theorem LevService.Conserved.accept {service : LevService} {conn : CContext} {free : List CContext}
    (h : service.Conserved) (hFree : service.lstFreeConn = conn :: free)
    (hRoom : ¬service.currentConn ≥ service.maxConn) :
    LevService.Conserved
      { service with
        currentConn := service.currentConn + 1
        lstFreeConn := free
        mpClientConn := service.mpClientConn.insert conn } := by
  have hIn := h.not_mem hFree
  have hNodup := h.nodup
  have hTotal := h.total
  have hCurrent := h.current
  have hLess : service.currentConn.toNat < service.maxConn.toNat := by
    rw [ge_iff_le, UInt32.le_iff_toNat_le] at hRoom
    omega
  have hBound := service.maxConn.toNat_lt
  rw [hFree] at hNodup hTotal
  rw [List.length_cons] at hTotal
  constructor
  · dsimp only
    rw [List.insert_of_not_mem hIn]
    exact List.nodup_middle.mpr hNodup
  · dsimp only
    rw [List.insert_of_not_mem hIn, List.length_cons]
    omega
  · dsimp only
    rw [List.insert_of_not_mem hIn, List.length_cons, UInt32.toNat_add, hCurrent]
    exact Nat.mod_eq_of_lt (by show _ + 1 < _; omega)
  · dsimp only
    rw [List.insert_of_not_mem hIn, List.length_cons]
    omega

/-- The context of a failed accept goes to the end of the pool. -/
theorem LevService.Conserved.rotate {service : LevService} {conn : CContext} {free : List CContext}
    (h : service.Conserved) (hFree : service.lstFreeConn = conn :: free) :
    LevService.Conserved { service with lstFreeConn := free ++ [conn] } := by
  have hNodup := h.nodup
  have hTotal := h.total
  rw [hFree] at hNodup hTotal
  rw [List.length_cons] at hTotal
  have hMoved : (free ++ [conn] ++ service.mpClientConn).Perm
      (conn :: free ++ service.mpClientConn) := (List.perm_append_singleton conn free).append_right _
  refine ⟨hMoved.nodup_iff.mpr hNodup, ?_, h.current, h.limit⟩
  simp only [List.length_append, List.length_singleton]
  omega

/-! ### All services -/

def Pool.Conserved (pool : Pool) : Prop := ∀ service ∈ pool.services, service.Conserved

theorem Pool.Conserved.at {pool : Pool} {i : Nat} {service : LevService} (h : pool.Conserved)
    (hService : pool.services[i]? = some service) : service.Conserved :=
  h service (List.mem_of_getElem? hService)

theorem forall_modify {P : LevService → Prop} {services : List LevService} {i : Nat}
    {f : LevService → LevService} (h : ∀ service ∈ services, P service)
    (hf : ∀ service, services[i]? = some service → P (f service)) :
    ∀ service ∈ services.modify i f, P service := by
  intro service hIn
  obtain ⟨j, hService⟩ := List.mem_iff_getElem?.mp hIn
  rw [List.getElem?_modify, Option.map_eq_map, Option.map_eq_some_iff] at hService
  obtain ⟨old, hOld, rfl⟩ := hService
  by_cases hIndex : i = j
  · rw [if_pos hIndex]
    exact hf old (hIndex ▸ hOld)
  · rw [if_neg hIndex]
    exact h old (List.mem_of_getElem? hOld)

theorem Pool.Conserved.recycle {pool : Pool} (h : pool.Conserved) (conn : CContext) :
    (pool.recycle conn).Conserved :=
  forall_modify h fun _ hService => (h.at hService).recycle conn

theorem Pool.services_close (pool : Pool) (conn : CContext) :
    (pool.close conn).services = pool.services ∨
      (pool.close conn).services = (pool.recycle conn).services := by
  rw [close]
  split
  · exact .inl rfl
  split
  · exact .inl rfl
  · exact .inr rfl

theorem Pool.Conserved.close {pool : Pool} (h : pool.Conserved) (conn : CContext) :
    (pool.close conn).Conserved := by
  rcases pool.services_close conn with hSame | hRecycled
  · rw [Pool.Conserved, hSame]
    exact h
  · rw [Pool.Conserved, hRecycled]
    exact h.recycle conn

/-- A context that was taken for an accept goes back after the accept has failed. -/
theorem Pool.Conserved.giveBack {pool popped : Pool} {i : Nat} {service : LevService}
    {conn : CContext} {free : List CContext} (h : pool.Conserved)
    (hService : pool.services[i]? = some service) (hFree : service.lstFreeConn = conn :: free)
    (hPopped : popped.services = pool.services.modify i fun s => { s with lstFreeConn := free }) :
    ((popped.close conn).modifyService i fun s =>
      { s with lstFreeConn := s.lstFreeConn ++ [conn] }).Conserved := by
  let free' : LevService → LevService := fun s => { s with lstFreeConn := free }
  let back : LevService → LevService := fun s => { s with lstFreeConn := s.lstFreeConn ++ [conn] }
  let recycle : LevService → LevService := fun s => s.recycleClientConn conn
  have hAt := h.at hService
  have hRotate : ∀ s, pool.services[i]? = some s → LevService.Conserved (back (free' s)) := by
    intro s hSame
    obtain rfl : service = s := Option.some.inj (hService.symm.trans hSame)
    exact hAt.rotate hFree
  show ∀ s ∈ (popped.close conn).services.modify i back, s.Conserved
  rcases popped.services_close conn with hSame | hRecycled
  · rw [hSame, hPopped, List.modify_modify_eq]
    exact forall_modify h hRotate
  · rw [hRecycled]
    show ∀ s ∈ (popped.services.modify (popped.ctxs conn).mgr recycle).modify i back, s.Conserved
    rw [hPopped]
    by_cases hMgr : i = (popped.ctxs conn).mgr
    · rw [← hMgr, List.modify_modify_eq, List.modify_modify_eq]
      apply forall_modify h
      intro s hSame
      have hNone : recycle (free' s) = free' s := by
        obtain rfl : service = s := Option.some.inj (hService.symm.trans hSame)
        exact if_neg (hAt.not_mem hFree)
      show (back (recycle (free' s))).Conserved
      rw [hNone]
      exact hRotate s hSame
    · rw [List.modify_modify_ne _ _ _ hMgr, List.modify_modify_eq]
      apply forall_modify (forall_modify h fun _ hOther => (h.at hOther).recycle conn)
      intro s hSame
      rw [List.getElem?_modify_ne _ _ (Ne.symm hMgr)] at hSame
      exact hRotate s hSame

/-- **Step**: every event keeps the pools, and an accept finds a free context. -/
theorem Pool.Conserved.step {pool : Pool} (h : pool.Conserved) (ev : PoolEvent) :
    ∃ pool' out, pool.step ev = some (pool', out) ∧ pool'.Conserved := by
  cases ev with
  | close conn => exact ⟨_, _, rfl, h.close conn⟩
  | error conn => exact ⟨_, _, rfl, (h.close conn).recycle conn⟩
  | accept i taken =>
    rw [Pool.step, acceptHelper]
    rcases hService : pool.services[i]? with _ | service
    · exact ⟨_, _, rfl, h⟩
    have hAt := h.at hService
    dsimp only
    by_cases hFull : service.currentConn ≥ service.maxConn
    · rw [if_pos hFull]
      exact ⟨_, _, rfl, h⟩
    rw [if_neg hFull]
    rcases hFree : service.lstFreeConn with _ | ⟨conn, free⟩
    · exact absurd hFree hAt.free_ne
    rcases taken with _ | _
    · refine ⟨_, _, rfl, ?_⟩
      apply h.giveBack hService hFree
      rfl
    · refine ⟨_, _, rfl, ?_⟩
      let free' : LevService → LevService := fun s => { s with lstFreeConn := free }
      let taken : LevService → LevService := fun s =>
        { s with currentConn := s.currentConn + 1, mpClientConn := s.mpClientConn.insert conn }
      show ∀ s ∈ (pool.services.modify i free').modify i taken, s.Conserved
      rw [List.modify_modify_eq]
      apply forall_modify h
      intro s hSame
      obtain rfl : service = s := Option.some.inj (hService.symm.trans hSame)
      exact hAt.accept hFree hFull

theorem Pool.Conserved.run {pool : Pool} (h : pool.Conserved) (evs : List PoolEvent) :
    ∃ pool' outs, Machine.run Pool.step pool evs = some (pool', outs) ∧ pool'.Conserved := by
  induction evs generalizing pool with
  | nil => exact ⟨pool, [], rfl, h⟩
  | cons ev evs ih =>
    obtain ⟨next, out, hStep, hNext⟩ := h.step ev
    obtain ⟨pool', outs, hRun, hLast⟩ := ih hNext
    exact ⟨pool', out :: outs, Machine.run_step hStep hRun, hLast⟩

/-- **Conservation**: from the pools that `Initialize` makes, every run goes on to its end and keeps
every context, if and only if no `max_conn` comes within ten of `2^32`. -/
theorem run_conserved {pool : Pool}
    (hStart : ∀ service ∈ pool.services, ∃ maxConn base, service = serviceInitialize maxConn base) :
    (∀ evs, ∃ pool' outs, Machine.run Pool.step pool evs = some (pool', outs) ∧
      ∀ service ∈ pool'.services, service.Conserved) ↔
      ∀ service ∈ pool.services, service.maxConn.toNat + 10 < 2 ^ 32 := by
  constructor
  · intro hRuns service hIn
    obtain ⟨pool', outs, hRun, hConserved⟩ := hRuns []
    cases hRun
    have hTotal := (hConserved service hIn).total
    obtain ⟨maxConn, base, rfl⟩ := hStart service hIn
    simp only [serviceInitialize, List.length_map, List.length_range, List.length_nil] at hTotal ⊢
    have hBound := (maxConn + 10).toNat_lt
    omega
  · intro hSmall evs
    apply Pool.Conserved.run
    intro service hIn
    obtain ⟨maxConn, base, rfl⟩ := hStart service hIn
    exact serviceInitialize_conserved (hSmall _ hIn) base

/-- Two services of one client each. -/
def twoServices : Pool :=
  ⟨[serviceInitialize 1 100, serviceInitialize 1 200], fun conn => { mgr := conn / 200 }⟩

theorem run_conserved_two :
    (∀ evs, ∃ pool' outs, Machine.run Pool.step twoServices evs = some (pool', outs) ∧
      ∀ service ∈ pool'.services, service.Conserved) ↔
      ∀ service ∈ twoServices.services, service.maxConn.toNat + 10 < 2 ^ 32 := by
  apply run_conserved
  intro service hIn
  rcases List.mem_cons.mp hIn with rfl | hIn
  · exact ⟨_, _, rfl⟩
  · exact ⟨_, _, List.mem_singleton.mp hIn⟩

/-- With the largest `max_conn` there are nine contexts, and the tenth client finds none. -/
theorem run_conserved_overflow :
    ¬∀ (maxConn : UInt32) (base : CContext) (ctxs : CContext → CliContext) (evs : List PoolEvent),
      ∃ pool' outs, Machine.run Pool.step ⟨[serviceInitialize maxConn base], ctxs⟩ evs =
          some (pool', outs) ∧
        ∀ service ∈ pool'.services, service.Conserved := by
  intro h
  obtain ⟨pool', outs, hRun, -⟩ := h (2 ^ 32 - 1) 0 (fun _ => { mgr := 0 })
    (List.replicate 10 (.accept 0 true))
  cases hRun

end DemoCode.FeedProxy
