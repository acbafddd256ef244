import DemoCode.FeedProxy.PoolRuns
import DemoCode.FeedProxy.CricularBuffer

/-! The monitor of idle connections of `Service`: every accepted client has an entry in the newest of
ten buckets, a tick of the timer adds a bucket, and an entry closes its context when its bucket goes.
The context goes back to the pool when its session ends, and may have another session by then. -/

namespace DemoCode.FeedProxy

/-- `IdleConnectEntry`, with the session it was made for and the tick of that. -/
structure IdleConnectEntry where
  ctx : CContext
  session : Nat
  since : Nat
  deriving DecidableEq, Repr

/-- A service with the monitor on, the ticks so far, and for every context the number of its latest
session and the tick it was accepted at. -/
structure Monitored where
  pool : Pool
  idle : CricularBuffer (List IdleConnectEntry)
  session : CContext → Nat
  acceptedAt : CContext → Nat
  ticks : Nat

/-- An event of the pool, or a tick, which destroys the entries of a bucket in some order. -/
inductive MonitorEvent where
  | pool (ev : PoolEvent)
  | tick (order : List IdleConnectEntry)
  deriving DecidableEq, Repr

/-- `Close` would end a session of the context. -/
def Pool.hasSession (pool : Pool) (conn : CContext) : Bool :=
  !(pool.ctxs conn).isExit && (pool.ctxs conn).cliBev

/-- `~IdleConnectEntry` of each entry, with those that ended a session. -/
def Pool.destroyEntries (pool : Pool) : List IdleConnectEntry → Pool × List IdleConnectEntry
  | [] => (pool, [])
  | entry :: rest =>
    let (pool', ended) := (pool.close entry.ctx).destroyEntries rest
    (pool', if pool.hasSession entry.ctx then entry :: ended else ended)

namespace Monitored

/-- A service that has just been initialized. -/
def init (maxConn : UInt32) (base : CContext) (ctxs : CContext → CliContext) : Monitored where
  pool := ⟨[serviceInitialize maxConn base], ctxs⟩
  idle := .init 10
  session _ := 0
  acceptedAt _ := 0
  ticks := 0

/-- The end of `AcceptHelper`: an entry for the new session, in the newest bucket. -/
def watch (m : Monitored) (conn : CContext) : Option (Monitored × List IdleConnectEntry) :=
  let entry := ⟨conn, m.session conn + 1, m.ticks⟩
  match if m.idle.dataSize = 0 then m.idle.push [] else some (m.idle, []) with
  | none => none
  | some (idle, gone) =>
    match idle.modifyBack (entry :: ·) with
    | none => none
    | some idle =>
      let (pool, ended) := m.pool.destroyEntries gone.flatten
      some ({ m with
        pool
        idle
        session := Function.update m.session conn entry.session
        acceptedAt := Function.update m.acceptedAt conn m.ticks }, ended)

/-- `ProcessIdlConn`. -/
def processIdlConn (m : Monitored) (order : List IdleConnectEntry) :
    Option (Monitored × List IdleConnectEntry) :=
  match m.idle.push [] with
  | none => none
  | some (idle, gone) =>
    if order.Perm gone.flatten then
      let (pool, ended) := m.pool.destroyEntries order
      some ({ m with pool, idle, ticks := m.ticks + 1 }, ended)
    else
      none

/-- A step, with the entries that ended a session. -/
def step (m : Monitored) : MonitorEvent → Option (Monitored × List IdleConnectEntry)
  | .tick order => m.processIdlConn order
  | .pool ev =>
    match m.pool.step ev with
    | none => none
    | some (pool, none) => some ({ m with pool }, [])
    | some (pool, some conn) => { m with pool }.watch conn

/-- The context that an accept takes for a client has no entry left from an earlier session. -/
def TakesUnwatched (m : Monitored) : MonitorEvent → Prop
  | .pool (.accept i true) => ∀ service conn, m.pool.services[i]? = some service →
      service.next = some conn → ∀ bucket ∈ m.idle.contents, ∀ entry ∈ bucket, entry.ctx ≠ conn
  | _ => True

/-- An entry is as many buckets from the newest as ticks have passed since its session began, and that
session is its context's latest. -/
structure Tracks (m : Monitored) (j : Nat) (entry : IdleConnectEntry) : Prop where
  age : entry.since + j = m.ticks
  session : m.session entry.ctx = entry.session
  acceptedAt : m.acceptedAt entry.ctx = entry.since

structure Inv (m : Monitored) : Prop where
  wf : m.idle.Wf
  cleared : m.idle.Cleared
  bufferSize : m.idle.bufferSize = 10
  tracks : ∀ j bucket, m.idle.contents[j]? = some bucket → ∀ entry ∈ bucket, m.Tracks j entry

/-! ### The entries and the ring -/

end Monitored

theorem Pool.mem_of_destroyEntries {pool : Pool} {entries : List IdleConnectEntry}
    {entry : IdleConnectEntry} (h : entry ∈ (pool.destroyEntries entries).2) : entry ∈ entries := by
  induction entries generalizing pool with
  | nil => cases h
  | cons first rest ih =>
    rw [destroyEntries] at h
    dsimp only at h
    split at h
    · rcases List.mem_cons.mp h with rfl | hRest
      · exact List.mem_cons_self
      · exact List.mem_cons_of_mem _ (ih hRest)
    · exact List.mem_cons_of_mem _ (ih h)

namespace Monitored

theorem init_inv (maxConn : UInt32) (base : CContext) (ctxs : CContext → CliContext) :
    (init maxConn base ctxs).Inv where
  wf := CricularBuffer.init_wf (by decide)
  cleared := CricularBuffer.init_cleared 10
  bufferSize := rfl
  tracks := by
    intro j bucket hBucket
    cases hBucket

/-- An empty bucket at the front, one tick later. -/
theorem tracks_cons {m m' : Monitored} {contents : List (List IdleConnectEntry)}
    (h : ∀ j bucket, contents[j]? = some bucket → ∀ entry ∈ bucket, m.Tracks j entry)
    (hTicks : m'.ticks = m.ticks + 1) (hSession : m'.session = m.session)
    (hAcceptedAt : m'.acceptedAt = m.acceptedAt) :
    ∀ j bucket, ([] :: contents)[j]? = some bucket → ∀ entry ∈ bucket, m'.Tracks j entry := by
  intro j bucket hBucket entry hIn
  cases j with
  | zero =>
    cases hBucket
    cases hIn
  | succ j =>
    rw [List.getElem?_cons_succ] at hBucket
    obtain ⟨hAge, hSame, hAt⟩ := h j bucket hBucket entry hIn
    constructor
    · rw [hTicks, ← hAge, Nat.add_assoc]
    · rw [hSession, hSame]
    · rw [hAcceptedAt, hAt]

/-- **Tick**: what goes has been there for ten ticks, and for the session that it closes. -/
theorem Inv.processIdlConn {m m' : Monitored} {order ended : List IdleConnectEntry} (h : m.Inv)
    (hStep : m.processIdlConn order = some (m', ended)) :
    m'.Inv ∧ ∀ entry ∈ ended, m'.session entry.ctx = entry.session ∧
      m'.acceptedAt entry.ctx + 10 ≤ m'.ticks := by
  obtain ⟨idle, hPush, hWf, hCleared, hSize, hContents⟩ := h.wf.push h.cleared []
  have hTen : m.idle.bufferSize.toNat = 10 := by
    rw [h.bufferSize]
    rfl
  rw [hTen] at hPush hContents
  rw [Monitored.processIdlConn, hPush] at hStep
  dsimp only at hStep
  split at hStep
  · rename_i hOrder
    cases hStep
    have hTracks := @tracks_cons m { m with idle, ticks := m.ticks + 1 } _ h.tracks rfl rfl rfl
    constructor
    · refine ⟨hWf, hCleared, hSize.trans h.bufferSize, ?_⟩
      intro j bucket hBucket entry hIn
      dsimp only at hBucket
      rw [hContents, List.getElem?_take] at hBucket
      split at hBucket
      · obtain ⟨hAge, hSame, hAt⟩ := hTracks j bucket hBucket entry hIn
        exact ⟨hAge, hSame, hAt⟩
      · cases hBucket
    · intro entry hIn
      have hGone := hOrder.mem_iff.mp (Pool.mem_of_destroyEntries hIn)
      obtain ⟨bucket, hBucket, hEntry⟩ := List.mem_flatten.mp hGone
      rcases List.mem_cons.mp hBucket with rfl | hBucket
      · cases hEntry
      obtain ⟨j, hAt⟩ := List.mem_iff_getElem?.mp hBucket
      rw [List.getElem?_drop] at hAt
      obtain ⟨hAge, hSame, hAccepted⟩ := hTracks (10 + j) bucket hAt entry hEntry
      refine ⟨hSame, ?_⟩
      dsimp only at hAge hAccepted ⊢
      rw [hAccepted]
      omega
  · cases hStep

/-- The buffer that `watch` inserts into has a bucket and no other entries; what was destroyed is
empty. -/
theorem Inv.ready {m : Monitored} (h : m.Inv) :
    ∃ (idle : CricularBuffer (List IdleConnectEntry)) (gone rest : List (List IdleConnectEntry))
      (bucket : List IdleConnectEntry),
      (if m.idle.dataSize = 0 then m.idle.push [] else some (m.idle, [])) = some (idle, gone) ∧
      idle.Wf ∧ idle.Cleared ∧ idle.bufferSize = 10 ∧ gone.flatten = [] ∧
      idle.contents = bucket :: rest ∧
      ∀ (j : Nat) bucket', (bucket :: rest)[j]? = some bucket' → ∀ entry ∈ bucket',
        m.idle.contents[j]? = some bucket' := by
  by_cases hEmpty : m.idle.dataSize = 0
  · obtain ⟨idle, hPush, hWf, hCleared, hSize, hContents⟩ := h.wf.push h.cleared []
    have hTen : m.idle.bufferSize.toNat = 10 := by
      rw [h.bufferSize]
      rfl
    rw [h.wf.contents_eq_nil hEmpty, hTen] at hPush hContents
    refine ⟨idle, _, [], [], (if_pos hEmpty).trans hPush, hWf, hCleared, hSize.trans h.bufferSize,
      rfl, hContents, ?_⟩
    intro j bucket hBucket entry hIn
    rcases j with _ | j
    · cases hBucket
      cases hIn
    · cases hBucket
  · obtain ⟨bucket, rest, hContents⟩ :=
      List.exists_cons_of_ne_nil (h.wf.contents_ne_nil hEmpty)
    refine ⟨m.idle, [], rest, bucket, if_neg hEmpty, h.wf, h.cleared, h.bufferSize, rfl, hContents, ?_⟩
    intro j bucket' hBucket _ _
    rw [hContents, hBucket]

theorem Inv.watch_ended {m m' : Monitored} {conn : CContext} {ended : List IdleConnectEntry}
    (h : m.Inv) (hStep : m.watch conn = some (m', ended)) : ended = [] := by
  obtain ⟨idle, gone, rest, bucket, hReady, -, -, -, hGone, -⟩ := h.ready
  simp only [Monitored.watch, hReady] at hStep
  split at hStep
  · cases hStep
  · rw [hGone] at hStep
    cases hStep
    rfl

/-- **Accept**: the new session is tracked, and so are the others, as none is of its context. -/
theorem Inv.watch {m m' : Monitored} {conn : CContext} {ended : List IdleConnectEntry} (h : m.Inv)
    (hNone : ∀ bucket ∈ m.idle.contents, ∀ entry ∈ bucket, entry.ctx ≠ conn)
    (hStep : m.watch conn = some (m', ended)) : m'.Inv := by
  obtain ⟨idle, gone, rest, bucket, hReady, hWf, hCleared, hSize, hGone, hContents, hOld⟩ := h.ready
  obtain ⟨idle', hBack, hWf', hSize', hFree, hContents'⟩ :=
    hWf.modifyBack hContents (⟨conn, m.session conn + 1, m.ticks⟩ :: ·)
  simp only [Monitored.watch, hReady, hBack, Option.some.injEq, Prod.mk.injEq] at hStep
  obtain ⟨rfl, -⟩ := hStep
  refine ⟨hWf', ?_, hSize'.trans hSize, ?_⟩
  · intro node hIn
    dsimp only at hIn
    rw [hFree] at hIn
    exact hCleared node hIn
  -- an entry that was there already is of another context
  have hKept : ∀ j bucket', (bucket :: rest)[j]? = some bucket' → ∀ entry ∈ bucket',
      Tracks { m with
        session := Function.update m.session conn (m.session conn + 1)
        acceptedAt := Function.update m.acceptedAt conn m.ticks } j entry := by
    intro j bucket' hBucket entry hIn
    have hBefore := hOld j bucket' hBucket entry hIn
    have hOther := hNone bucket' (List.mem_of_getElem? hBefore) entry hIn
    obtain ⟨hAge, hSame, hAt⟩ := h.tracks j bucket' hBefore entry hIn
    exact ⟨hAge, (Function.update_of_ne hOther ..).trans hSame,
      (Function.update_of_ne hOther ..).trans hAt⟩
  intro j bucket' hBucket entry hIn
  dsimp only at hBucket
  rw [hContents'] at hBucket
  cases j with
  | zero =>
    cases hBucket
    rcases List.mem_cons.mp hIn with rfl | hIn
    · exact ⟨rfl, Function.update_self .., Function.update_self ..⟩
    · obtain ⟨hAge, hSame, hAt⟩ := hKept 0 bucket rfl entry hIn
      exact ⟨hAge, hSame, hAt⟩
  | succ j =>
    obtain ⟨hAge, hSame, hAt⟩ := hKept (j + 1) bucket' hBucket entry hIn
    exact ⟨hAge, hSame, hAt⟩

theorem Inv.withPool {m : Monitored} (h : m.Inv) (pool : Pool) : Inv { m with pool } := by
  refine ⟨h.wf, h.cleared, h.bufferSize, ?_⟩
  intro j bucket hBucket entry hIn
  obtain ⟨hAge, hSame, hAt⟩ := h.tracks j bucket hBucket entry hIn
  exact ⟨hAge, hSame, hAt⟩

/-- **Step**: the entries keep track of the sessions, as long as no context of theirs gets another. -/
theorem Inv.step {m m' : Monitored} {ev : MonitorEvent} {ended : List IdleConnectEntry} (h : m.Inv)
    (hTakes : m.TakesUnwatched ev) (hStep : m.step ev = some (m', ended)) : m'.Inv := by
  cases ev with
  | tick order => exact (h.processIdlConn hStep).1
  | pool ev =>
    rw [Monitored.step] at hStep
    split at hStep
    · cases hStep
    · cases hStep
      exact h.withPool _
    · rename_i pool conn hPool
      refine (h.withPool pool).watch ?_ hStep
      cases ev with
      | accept i taken =>
        obtain rfl := Pool.taken_of_acceptHelper hPool
        obtain ⟨service, hService, hNext⟩ := Pool.acceptHelper_next hPool
        exact hTakes service conn hService hNext
      | close conn => cases hPool
      | error conn => cases hPool

/-- What is closed is closed ten ticks after its entry's session began, or later. -/
theorem Inv.ended {m m' : Monitored} {ev : MonitorEvent} {ended : List IdleConnectEntry} (h : m.Inv)
    (hStep : m.step ev = some (m', ended)) : ∀ entry ∈ ended,
      m'.session entry.ctx = entry.session ∧ m'.acceptedAt entry.ctx + 10 ≤ m'.ticks := by
  cases ev with
  | tick order => exact (h.processIdlConn hStep).2
  | pool ev =>
    rw [Monitored.step] at hStep
    split at hStep
    · cases hStep
    · cases hStep
      exact fun _ hIn => absurd hIn List.not_mem_nil
    · obtain rfl := (h.withPool _).watch_ended hStep
      exact fun _ hIn => absurd hIn List.not_mem_nil

end Monitored

open Monitored in
/-- **Only idle sessions**: in a run that takes no context for a client while an entry of it is left,
the monitor only ends the session that an entry was made for, ten ticks after it was accepted or
later. -/
theorem run_monitor {maxConn : UInt32} {base : CContext} {ctxs : CContext → CliContext}
    {evs : List MonitorEvent} {ev : MonitorEvent} {m m' : Monitored}
    {outs : List (List IdleConnectEntry)} {ended : List IdleConnectEntry}
    (hTakes : Machine.Along step TakesUnwatched (init maxConn base ctxs) evs)
    (hRun : Machine.run step (init maxConn base ctxs) evs = some (m, outs))
    (hStep : m.step ev = some (m', ended)) : ∀ entry ∈ ended,
      m'.session entry.ctx = entry.session ∧ m'.acceptedAt entry.ctx + 10 ≤ m'.ticks := by
  have hInv : m.Inv := Machine.run_keeps (fun hKept hP hNext => Inv.step hKept hP hNext)
    (init_inv maxConn base ctxs) hTakes hRun
  exact hInv.ended hStep

open Monitored in
theorem along_ticks (m : Monitored) (orders : List (List IdleConnectEntry)) :
    Machine.Along step TakesUnwatched m (orders.map .tick) := by
  induction orders generalizing m with
  | nil => trivial
  | cons order orders ih => exact ⟨trivial, fun m' _ _ => ih m'⟩

open Monitored in
/-- A client that stays for ten ticks. -/
theorem run_monitor_idle :
    ∃ m outs m' ended, Machine.run step (init 1 0 fun _ => { mgr := 0 })
        (.pool (.accept 0 true) :: (List.replicate 9 []).map .tick) = some (m, outs) ∧
      m.step (.tick [⟨0, 1, 0⟩]) = some (m', ended) ∧ ∀ entry ∈ ended,
        m'.session entry.ctx = entry.session ∧ m'.acceptedAt entry.ctx + 10 ≤ m'.ticks := by
  refine ⟨_, _, _, _, rfl, rfl, ?_⟩
  refine @run_monitor 1 0 (fun _ => { mgr := 0 })
    (.pool (.accept 0 true) :: (List.replicate 9 []).map .tick) (.tick [⟨0, 1, 0⟩]) _ _ _ _ ?_ rfl rfl
  refine ⟨?_, fun m _ _ => along_ticks m _⟩
  intro _ _ _ _ bucket hIn
  cases hIn

/-- Eleven clients one after the other, each gone at once: the twelfth has the first one's context. -/
def elevenGone : List MonitorEvent :=
  (List.range 11).flatMap fun i => [.pool (.accept 0 true), .pool (.error i)]

open Monitored in
/-- A client that is accepted one tick after eleven others have come and gone is closed nine ticks
later. -/
theorem run_monitor_again :
    ¬∀ (maxConn : UInt32) (base : CContext) (ctxs : CContext → CliContext)
      (evs : List MonitorEvent) (ev : MonitorEvent) (m m' : Monitored)
      (outs : List (List IdleConnectEntry)) (ended : List IdleConnectEntry),
      Machine.run step (init maxConn base ctxs) evs = some (m, outs) →
      m.step ev = some (m', ended) → ∀ entry ∈ ended,
        m'.session entry.ctx = entry.session ∧ m'.acceptedAt entry.ctx + 10 ≤ m'.ticks := by
  intro h
  have hEnded := h 1 0 (fun _ => { mgr := 0 })
    (elevenGone ++ [.tick [], .pool (.accept 0 true)] ++ (List.replicate 8 []).map .tick)
    (.tick ((List.range 11).map fun i => ⟨i, 1, 0⟩)) _ _ _ _ rfl rfl ⟨0, 1, 0⟩ (by decide)
  exact absurd hEnded (by decide)

end DemoCode.FeedProxy
