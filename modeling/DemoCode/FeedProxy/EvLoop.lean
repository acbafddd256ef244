import DemoCode.FeedProxy.PoolRuns

/-! `EvLoop` of `ev_loop.cpp`: the counters of its bases, by which the base of the next user is
chosen, and the services and contexts that count themselves in and out. -/

namespace DemoCode.FeedProxy

/-- `EvLoop`: the counter of each base, in the order of `lst_work_event_base_`; a base is known by
its place. -/
structure EvLoop where
  mpWorkEventBase : List UInt32
  deriving DecidableEq, Repr

namespace EvLoop

/-- `Initialize`. -/
def ofThreads (workThreads : UInt32) : EvLoop := ⟨List.replicate workThreads.toNat 0⟩

def increment (loop : EvLoop) (base : Nat) : EvLoop := ⟨loop.mpWorkEventBase.modify base (· + 1)⟩

def decrement (loop : EvLoop) (base : Nat) : EvLoop := ⟨loop.mpWorkEventBase.modify base (· - 1)⟩

/-- The loop over `index`, with `cnt` and `find_index`. -/
def leastFrom (index : Nat) (cnt : UInt32) (findIndex : Nat) : List UInt32 → Nat
  | [] => findIndex
  | c :: cs => if c < cnt then leastFrom (index + 1) c index cs else leastFrom (index + 1) cnt findIndex cs

/-- `GetWorkLoop`; without a base it reads past the end of a vector. -/
def getWorkLoop (loop : EvLoop) : Option Nat :=
  match loop.mpWorkEventBase with
  | [] => none
  | cnt :: rest => some (leastFrom 0 cnt 0 (cnt :: rest))

end EvLoop

/-- What is counted: the loop, the services with their contexts, the started services with the bases
of their listeners, and the base of each `cli_bev_`. -/
structure Loaded where
  loop : EvLoop
  pool : Pool
  listeners : List (Nat × Nat) := []
  bevBase : CContext → Nat := fun _ => 0

namespace Loaded

/-- `Start`; libevent makes the listener or does not. -/
def start (w : Loaded) (i : Nat) (listening : Bool) : Option Loaded :=
  if i < w.pool.services.length ∧ i ∉ w.listeners.map Prod.fst then
    w.loop.getWorkLoop.map fun base =>
      { w with
        loop := w.loop.increment base
        listeners := if listening then w.listeners ++ [(i, base)] else w.listeners }
  else
    some w

/-- `AcceptHelper` with `AcceptClient`; libevent takes the socket or does not, and if it does not a
`cli_bev_` from before may have been moved to the new base or not. -/
def accept (w : Loaded) (i : Nat) (taken moved : Bool) : Option Loaded :=
  match w.pool.services[i]? with
  | none => some w
  | some service =>
    if service.currentConn ≥ service.maxConn then
      some w
    else do
      let conn ← service.next
      let base ← w.loop.getWorkLoop
      let cliBev := (w.pool.ctxs conn).cliBev
      let bevBase := if taken || (cliBev && moved) then Function.update w.bevBase conn base
        else w.bevBase
      let (pool, _) ← w.pool.acceptHelper i taken
      some { w with
        loop := if !taken && cliBev then w.loop.decrement (bevBase conn) else w.loop
        pool
        bevBase }

/-- `Close`. -/
def close (w : Loaded) (conn : CContext) : Loaded :=
  let ctx := w.pool.ctxs conn
  { w with
    loop := if !ctx.isExit && ctx.cliBev then w.loop.decrement (w.bevBase conn) else w.loop
    pool := w.pool.close conn }

/-- `Error` of an end of file or an error. -/
def error (w : Loaded) (conn : CContext) : Loaded :=
  { w.close conn with pool := (w.close conn).pool.recycle conn }

/-- The listeners and the clients of a base. -/
def users (w : Loaded) (base : Nat) : Nat :=
  (w.listeners.filter fun l => l.2 = base).length +
    ((w.pool.services.flatMap LevService.mpClientConn).filter fun c => w.bevBase c = base).length

end Loaded

inductive LoadEvent where
  | start (i : Nat) (listening : Bool)
  | accept (i : Nat) (taken moved : Bool)
  | close (conn : CContext)
  | error (conn : CContext)
  deriving DecidableEq, Repr

def Loaded.step (w : Loaded) : LoadEvent → Option (Loaded × Unit)
  | .start i listening => (w.start i listening).map (·, ())
  | .accept i taken moved => (w.accept i taken moved).map (·, ())
  | .close conn => some (w.close conn, ())
  | .error conn => some (w.error conn, ())

/-- Every counter is the number of the users of its base. -/
def Loaded.Balanced (w : Loaded) : Prop :=
  ∀ base c, w.loop.mpWorkEventBase[base]? = some c → c.toNat = w.users base

/-- No socket is taken below the limit of its service; a service that is started listens, and does not
bring a counter to its end. -/
def Uncounted (w : Loaded) : LoadEvent → Prop
  | .start i listening =>
    i ∉ w.listeners.map Prod.fst → listening = true ∧ ∀ c ∈ w.loop.mpWorkEventBase, c.toNat + 1 < 2 ^ 32
  | .accept i taken _ => taken = true → ∀ service, w.pool.services[i]? = some service →
    service.currentConn ≥ service.maxConn
  | _ => True

/-- Nothing has been started, and no context has been used. -/
structure Loaded.Fresh (w : Loaded) : Prop where
  counts : ∀ c ∈ w.loop.mpWorkEventBase, c = 0
  listeners : w.listeners = []
  cliBev : ∀ conn, (w.pool.ctxs conn).cliBev = false
  services : ∀ service ∈ w.pool.services, service.mpClientConn = []

/-! ### The choice of a base -/

theorem EvLoop.leastFrom_least (cnt : UInt32) (pre cs : List UInt32) (findIndex : Nat)
    (hFind : (pre ++ cs)[findIndex]? = some cnt) (hPre : ∀ c ∈ pre, cnt ≤ c) :
    ∃ c, (pre ++ cs)[leastFrom pre.length cnt findIndex cs]? = some c ∧ ∀ c' ∈ pre ++ cs, c ≤ c' := by
  induction cs generalizing pre cnt findIndex with
  | nil =>
    rw [List.append_nil] at hFind ⊢
    exact ⟨cnt, hFind, hPre⟩
  | cons c cs ih =>
    have hShift : pre ++ c :: cs = (pre ++ [c]) ++ cs := by simp
    have hLength : (pre ++ [c]).length = pre.length + 1 := by simp
    rw [leastFrom]
    by_cases hLess : c < cnt
    · rw [if_pos hLess]
      have hHere : (pre ++ [c] ++ cs)[pre.length]? = some c := by simp
      have hAll : ∀ c' ∈ pre ++ [c], c ≤ c' := by
        intro c' hIn
        rcases List.mem_append.mp hIn with hOld | hNew
        · exact UInt32.le_trans (UInt32.le_of_lt hLess) (hPre c' hOld)
        · rw [List.mem_singleton.mp hNew]
          exact UInt32.le_refl c
      rw [hShift, ← hLength]
      exact ih c (pre ++ [c]) pre.length hHere hAll
    · rw [if_neg hLess]
      have hAll : ∀ c' ∈ pre ++ [c], cnt ≤ c' := by
        intro c' hIn
        rcases List.mem_append.mp hIn with hOld | hNew
        · exact hPre c' hOld
        · rw [List.mem_singleton.mp hNew]
          exact UInt32.not_lt.mp hLess
      rw [hShift] at hFind ⊢
      rw [← hLength]
      exact ih cnt (pre ++ [c]) findIndex hFind hAll

theorem EvLoop.getWorkLoop_least {loop : EvLoop} {base : Nat} (h : loop.getWorkLoop = some base) :
    ∃ c, loop.mpWorkEventBase[base]? = some c ∧ ∀ c' ∈ loop.mpWorkEventBase, c ≤ c' := by
  rw [getWorkLoop] at h
  split at h
  · cases h
  · rename_i cnt rest hCounts
    cases h
    rw [hCounts]
    exact leastFrom_least cnt [] (cnt :: rest) 0 rfl fun c hIn => absurd hIn List.not_mem_nil

/-! ### Runs -/

/-- No context has a `cli_bev_`, and no service has a client. -/
structure Pool.Quiet (pool : Pool) : Prop where
  cliBev : ∀ conn, (pool.ctxs conn).cliBev = false
  services : ∀ service ∈ pool.services, service.mpClientConn = []

theorem Pool.Quiet.close {pool : Pool} (h : pool.Quiet) (conn : CContext) :
    (pool.close conn).Quiet := by
  rw [Pool.close]
  split
  · exact h
  rw [if_pos (by rw [h.cliBev conn]; rfl)]
  refine ⟨fun c => ?_, h.services⟩
  refine (modifyCtx_keeps CliContext.cliBev pool conn ?_ c).trans (h.cliBev c)
  exact fun _ => rfl

theorem Pool.Quiet.recycle {pool : Pool} (h : pool.Quiet) (conn : CContext) :
    (pool.recycle conn).Quiet := by
  refine ⟨h.cliBev, ?_⟩
  apply forall_modify h.services
  intro service hService
  rw [LevService.recycleClientConn, h.services service (List.mem_of_getElem? hService),
    if_neg List.not_mem_nil]
  exact h.services service (List.mem_of_getElem? hService)

/-- An accept that fails, or is refused. -/
theorem Pool.Quiet.acceptHelper {pool pool' : Pool} {i : Nat} {taken : Bool} {out : Option CContext}
    (h : pool.Quiet) (hTaken : taken = true → ∀ service, pool.services[i]? = some service →
      service.currentConn ≥ service.maxConn)
    (hAccept : pool.acceptHelper i taken = some (pool', out)) : pool'.Quiet := by
  rw [Pool.acceptHelper] at hAccept
  split at hAccept
  · cases hAccept
    exact h
  rename_i service hService
  split at hAccept
  · cases hAccept
    exact h
  rename_i hRoom
  split at hAccept
  · cases hAccept
  rename_i conn free hFree
  rcases taken with _ | _
  · cases hAccept
    let popped := (pool.modifyService i fun s => { s with lstFreeConn := free }).acceptClient conn false
    have hPopped : popped.Quiet := by
      constructor
      · intro c
        refine (modifyCtx_keeps CliContext.cliBev (pool.modifyService i _) conn ?_ c).trans (h.cliBev c)
        exact fun _ => rfl
      · exact forall_modify h.services fun s hSame => h.services s (List.mem_of_getElem? hSame)
    have hClosed := hPopped.close conn
    refine ⟨hClosed.cliBev, ?_⟩
    exact forall_modify hClosed.services
      fun s hSame => hClosed.services s (List.mem_of_getElem? hSame)
  · exact absurd (hTaken rfl service hService) hRoom

theorem Loaded.users_quiet {w : Loaded} (h : w.pool.Quiet) (base : Nat) :
    w.users base = (w.listeners.filter fun l => l.2 = base).length := by
  have hClients : w.pool.services.flatMap LevService.mpClientConn = [] :=
    List.flatMap_eq_nil_iff.mpr h.services
  rw [users, hClients]
  rfl

/-- The counters of a state with the same listeners, when no context is used. -/
theorem Loaded.Balanced.of_listeners {w w' : Loaded} (h : w.Balanced) (hQuiet : w.pool.Quiet)
    (hQuiet' : w'.pool.Quiet) (hLoop : w'.loop = w.loop) (hListeners : w'.listeners = w.listeners) :
    w'.Balanced := by
  intro base c hCount
  rw [hLoop] at hCount
  rw [users_quiet hQuiet', hListeners, ← users_quiet hQuiet]
  exact h base c hCount

theorem Loaded.Balanced.start {w w' : Loaded} {i : Nat} {listening : Bool} (h : w.Balanced)
    (hQuiet : w.pool.Quiet) (hP : Uncounted w (.start i listening))
    (hStart : w.start i listening = some w') : w'.pool.Quiet ∧ w'.Balanced := by
  rw [Loaded.start] at hStart
  split at hStart
  · rename_i hFirst
    obtain ⟨rfl, hBelow⟩ := hP hFirst.2
    obtain ⟨base, hBase, rfl⟩ := Option.map_eq_some_iff.mp hStart
    refine ⟨hQuiet, ?_⟩
    intro base' c hCount
    have hCount' : (w.loop.mpWorkEventBase.modify base (· + 1))[base']? = some c := hCount
    rw [List.getElem?_modify, Option.map_eq_map, Option.map_eq_some_iff] at hCount'
    obtain ⟨old, hOld, rfl⟩ := hCount'
    have hUsers := h base' old hOld
    rw [users_quiet hQuiet] at hUsers
    rw [users_quiet]
    · show _ = ((w.listeners ++ [(i, base)]).filter fun l => l.2 = base').length
      rw [List.filter_append, List.length_append, ← hUsers]
      by_cases hSame : base = base'
      · have hNext := hBelow old (List.mem_of_getElem? hOld)
        rw [if_pos hSame, UInt32.toNat_add, List.filter_cons_of_pos (by simpa using hSame)]
        exact Nat.mod_eq_of_lt hNext
      · rw [if_neg hSame, List.filter_cons_of_neg (by simpa using hSame)]
        rfl
    · exact hQuiet
  · cases hStart
    exact ⟨hQuiet, h⟩

/-- **Step**: without a client, the counters go with the listeners. -/
theorem Loaded.Balanced.step {w w' : Loaded} {ev : LoadEvent} {out : Unit} (h : w.Balanced)
    (hQuiet : w.pool.Quiet) (hP : Uncounted w ev) (hStep : w.step ev = some (w', out)) :
    w'.pool.Quiet ∧ w'.Balanced := by
  have hClose : ∀ conn, (w.close conn).pool.Quiet ∧ (w.close conn).loop = w.loop := by
    intro conn
    refine ⟨hQuiet.close conn, ?_⟩
    show (if !(w.pool.ctxs conn).isExit && (w.pool.ctxs conn).cliBev then _ else w.loop) = w.loop
    rw [hQuiet.cliBev conn, Bool.and_false]
    rfl
  cases ev with
  | start i listening =>
    obtain ⟨next, hStart, hEq⟩ := Option.map_eq_some_iff.mp hStep
    cases hEq
    exact h.start hQuiet hP hStart
  | accept i taken moved =>
    obtain ⟨next, hAccept, hEq⟩ := Option.map_eq_some_iff.mp hStep
    cases hEq
    rw [Loaded.accept] at hAccept
    split at hAccept
    · cases hAccept
      exact ⟨hQuiet, h⟩
    split at hAccept
    · cases hAccept
      exact ⟨hQuiet, h⟩
    simp only [Option.bind_eq_bind, Option.bind_eq_some_iff, Prod.exists] at hAccept
    obtain ⟨conn, -, base, -, pool, out, hPool, hEq⟩ := hAccept
    have hQuiet' : pool.Quiet := hQuiet.acceptHelper hP hPool
    rw [hQuiet.cliBev conn, Bool.and_false] at hEq
    cases hEq
    exact ⟨hQuiet', h.of_listeners hQuiet hQuiet' rfl rfl⟩
  | close conn =>
    cases hStep
    obtain ⟨hQuiet', hLoop⟩ := hClose conn
    exact ⟨hQuiet', h.of_listeners hQuiet hQuiet' hLoop rfl⟩
  | error conn =>
    cases hStep
    obtain ⟨hQuiet', hLoop⟩ := hClose conn
    have hRecycled : (w.error conn).pool.Quiet := hQuiet'.recycle conn
    exact ⟨hRecycled, h.of_listeners hQuiet hRecycled hLoop rfl⟩

/-- **Load**: as long as no client is taken and every service that is started listens, the counters are
the users of their bases, and the base that is chosen has the fewest. -/
theorem run_balanced {w₀ w : Loaded} {evs : List LoadEvent} {outs : List Unit} (hStart : w₀.Fresh)
    (hAlong : Machine.Along Loaded.step Uncounted w₀ evs)
    (hRun : Machine.run Loaded.step w₀ evs = some (w, outs)) :
    w.Balanced ∧ ∀ base, w.loop.getWorkLoop = some base →
      ∀ base' < w.loop.mpWorkEventBase.length, w.users base ≤ w.users base' := by
  have hFirst : w₀.pool.Quiet ∧ w₀.Balanced := by
    have hQuiet : w₀.pool.Quiet := ⟨hStart.cliBev, hStart.services⟩
    refine ⟨hQuiet, ?_⟩
    intro base c hCount
    rw [Loaded.users_quiet hQuiet, hStart.listeners, hStart.counts c (List.mem_of_getElem? hCount)]
    rfl
  obtain ⟨-, hBalanced⟩ := Machine.run_keeps
    (fun hKept hP hStep => Loaded.Balanced.step hKept.2 hKept.1 hP hStep) hFirst hAlong hRun
  refine ⟨hBalanced, ?_⟩
  intro base hBase base' hLess
  obtain ⟨c, hCount, hLeast⟩ := EvLoop.getWorkLoop_least hBase
  rw [← hBalanced base c hCount, ← hBalanced base' _ (List.getElem?_eq_getElem hLess)]
  exact UInt32.le_iff_toNat_le.mp (hLeast _ (List.getElem_mem hLess))

/-- One thread, and one service of one client. -/
def loadedStart : Loaded where
  loop := .ofThreads 1
  pool := ⟨[serviceInitialize 1 100], fun _ => { mgr := 0 }⟩

theorem run_balanced_start :
    ∃ w outs, Machine.run Loaded.step loadedStart [.start 0 true, .accept 0 false false] =
        some (w, outs) ∧
      w.Balanced ∧ ∀ base, w.loop.getWorkLoop = some base →
        ∀ base' < w.loop.mpWorkEventBase.length, w.users base ≤ w.users base' := by
  refine ⟨_, _, rfl, ?_⟩
  refine @run_balanced loadedStart _ [.start 0 true, .accept 0 false false] _
    ⟨List.forall_mem_singleton.mpr rfl, rfl, fun _ => rfl, by decide⟩ ?_ rfl
  refine Machine.along_cons ?_ rfl (Machine.along_cons nofun rfl trivial)
  exact fun _ => ⟨rfl, List.forall_mem_singleton.mpr (by decide)⟩

/-- Two clients come and go one after the other, and the counter wraps below zero. -/
theorem run_balanced_clients :
    ¬∀ (w₀ w : Loaded) (evs : List LoadEvent) (outs : List Unit), w₀.Fresh →
      Machine.run Loaded.step w₀ evs = some (w, outs) → w.Balanced := by
  intro h
  have hBalanced := h loadedStart _ [.start 0 true, .accept 0 true false, .close 100,
    .accept 0 true false, .close 101] _
    ⟨List.forall_mem_singleton.mpr rfl, rfl, fun _ => rfl, by decide⟩ rfl
  have hWrapped := hBalanced 0 (2 ^ 32 - 1) rfl
  exact absurd hWrapped (by decide)

end DemoCode.FeedProxy
