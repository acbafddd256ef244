import DemoCode.FeedProxy.Reconnects

/-! The connection for queries of `UwsClient` over runs: the first connection becomes it, and nothing
else ever does, so that it is there as long as it is not dropped. -/

namespace DemoCode.FeedProxy

namespace UwsClient

/-- The connection for queries is open once every dropped connection has been replaced, and is none of
the others. -/
structure QueryUsable (u : UwsClient) : Prop where
  opened : u.disconWsQue = [] → ∃ ws, u.queryWs = some ws ∧ ws ∈ u.openWs
  apart : ∀ ws, u.queryWs = some ws → ws ∉ u.allWsMap

/-- The connection for queries is not the one that is dropped. -/
def KeepsQuery (u : UwsClient) : ClientEvent → Prop
  | .disconnection ws => u.queryWs ≠ some ws
  | _ => True

/-- The connection for queries is open, and is none of the others; without one there has been no
connection yet. -/
structure QueryInv (u : UwsClient) : Prop where
  first : u.queryWs = none → u.openWs = [] ∧ u.disconWsQue = [] ∧ ∀ ws, ws ∉ u.allWsMap
  opened : ∀ ws, u.queryWs = some ws → ws ∈ u.openWs
  apart : ∀ ws, u.queryWs = some ws → ws ∉ u.allWsMap

theorem mem_emplace {κ β : Type*} [DecidableEq κ] {m : Map κ β} {k k' : κ} {v : β}
    (h : k' ∈ Map.emplace m k v) : k' = k ∨ k' ∈ m := by
  rw [Map.emplace] at h
  split at h
  · exact .inr h
  · exact AList.mem_insert m |>.mp h

theorem queryWs_foldl_moveSymbol (ws : Ws) (symbols : List String) (u : UwsClient) :
    (symbols.foldl (moveSymbol ws) u).queryWs = u.queryWs ∧
      (symbols.foldl (moveSymbol ws) u).openWs = u.openWs ∧
      ∀ ws' ∈ (symbols.foldl (moveSymbol ws) u).allWsMap, ws' = ws ∨ ws' ∈ u.allWsMap := by
  induction symbols generalizing u with
  | nil => exact ⟨rfl, rfl, fun _ hIn => .inr hIn⟩
  | cons symbol symbols ih =>
    obtain ⟨hQuery, hOpen, hKeys⟩ := ih (u.moveSymbol ws symbol)
    refine ⟨hQuery, hOpen, ?_⟩
    intro ws' hIn
    rcases hKeys ws' hIn with hWs | hOld
    · exact .inl hWs
    · exact mem_emplace hOld

/-- A connection stores no address but its own, and is for queries only when it is the first. -/
theorem onConnection_keys (u : UwsClient) (ws : Ws) :
    (u.onConnection ws).1.openWs = u.openWs ∧
      (((u.onConnection ws).1.queryWs = some ws ∧ u.disconWsQue = [] ∧ u.queryWs = none ∧
          (u.onConnection ws).1.allWsMap = u.allWsMap) ∨
        ((u.onConnection ws).1.queryWs = u.queryWs ∧
          (u.disconWsQue = [] → u.queryWs ≠ none) ∧
          ∀ ws' ∈ (u.onConnection ws).1.allWsMap, ws' = ws ∨ ws' ∈ u.allWsMap)) := by
  rcases hQue : u.disconWsQue with _ | ⟨disWs, rest⟩
  · rcases hQuery : u.queryWs with _ | queryWs
    · rw [onConnection_query hQue hQuery]
      exact ⟨rfl, .inl ⟨rfl, rfl, rfl, rfl⟩⟩
    · rw [onConnection_first hQue hQuery]
      refine ⟨rfl, .inr ⟨hQuery, by simp, ?_⟩⟩
      exact fun ws' hIn => mem_emplace hIn
  · rw [onConnection, hQue]
    dsimp only
    have hMoved := queryWs_foldl_moveSymbol ws (u.symbolsOf disWs)
      { u with disconWsQue := rest, con2symbolMap := u.con2symbolMap.erase disWs }
    refine ⟨hMoved.2.1, .inr ⟨hMoved.1, by simp, ?_⟩⟩
    intro ws' hIn
    rcases mem_emplace hIn with hWs | hOld
    · exact .inl hWs
    · exact hMoved.2.2 ws' (AList.mem_erase.mp hOld).2

theorem QueryInv.of_kept {u u' : UwsClient} (hInv : u.QueryInv) (hKept : Kept u u') : u'.QueryInv := by
  constructor
  · rw [hKept.queryWs, hKept.openWs, hKept.disconWsQue, hKept.allWsMap]
    exact hInv.first
  · rw [hKept.queryWs, hKept.openWs]
    exact hInv.opened
  · rw [hKept.queryWs, hKept.allWsMap]
    exact hInv.apart

/-- **Step**: the connection for queries stays as long as it is not dropped. -/
theorem QueryInv.step {freed : Ws → Ws} {u u' : UwsClient} {ev : ClientEvent} {out : List Written}
    (hInv : u.QueryInv) (hKeeps : u.KeepsQuery ev) (h : u.step freed ev = some (u', out)) :
    u'.QueryInv := by
  cases ev with
  | connection ws =>
    obtain ⟨hClosed, rfl⟩ := step_connection h
    obtain ⟨hOpen, hCases⟩ := onConnection_keys { u with openWs := ws :: u.openWs } ws
    rcases hCases with ⟨hQuery, -, hFirst, hKeys⟩ | ⟨hQuery, hLater, hKeys⟩
    · obtain ⟨-, -, hNone⟩ := hInv.first hFirst
      constructor
      · intro hNoQuery
        rw [hQuery] at hNoQuery
        cases hNoQuery
      · intro q hQ
        rw [hQuery] at hQ
        cases hQ
        rw [hOpen]
        exact List.mem_cons_self
      · intro q hQ
        rw [hKeys]
        exact hNone q
    · constructor
      · intro hNoQuery
        rw [hQuery] at hNoQuery
        exact absurd hNoQuery (hLater (hInv.first hNoQuery).2.1)
      · intro q hQ
        rw [hQuery] at hQ
        rw [hOpen]
        exact List.mem_cons_of_mem _ (hInv.opened q hQ)
      · intro q hQ hIn
        rw [hQuery] at hQ
        rcases hKeys q hIn with rfl | hOld
        · exact hClosed (hInv.opened q hQ)
        · exact hInv.apart q hQ hOld
  | disconnection ws =>
    obtain ⟨hOpen, rfl⟩ := step_disconnection h
    constructor
    · intro hNoQuery
      rw [(hInv.first hNoQuery).1] at hOpen
      exact absurd hOpen List.not_mem_nil
    · intro q hQ
      have hNe : q ≠ ws := by
        rintro rfl
        exact hKeeps hQ
      exact (List.mem_erase_of_ne hNe).mpr (hInv.opened q hQ)
    · exact hInv.apart
  | request reqJson =>
    obtain ⟨ret, hSend⟩ := step_request h
    exact hInv.of_kept (sendReq_kept hSend)
  | resubTimer =>
    obtain rfl := step_resubTimer h
    exact hInv

/-- There is a connection for queries from the first connection on. -/
theorem QueryInv.queryWs_step {freed : Ws → Ws} {u u' : UwsClient} {ev : ClientEvent}
    {out : List Written} (hInv : u.QueryInv) (h : u.step freed ev = some (u', out))
    (hSome : u.queryWs ≠ none ∨ ∃ ws, ev = .connection ws) : u'.queryWs ≠ none := by
  cases ev with
  | connection ws =>
    obtain ⟨-, rfl⟩ := step_connection h
    obtain ⟨-, hCases⟩ := onConnection_keys { u with openWs := ws :: u.openWs } ws
    rcases hCases with ⟨hQuery, -⟩ | ⟨hQuery, hLater, -⟩
    · rw [hQuery]
      exact Option.some_ne_none ws
    · rw [hQuery]
      exact fun hNoQuery => hLater (hInv.first hNoQuery).2.1 hNoQuery
  | disconnection ws =>
    obtain ⟨-, rfl⟩ := step_disconnection h
    exact hSome.resolve_right (by simp)
  | request reqJson =>
    obtain ⟨ret, hSend⟩ := step_request h
    rw [(sendReq_kept hSend).queryWs]
    exact hSome.resolve_right (by simp)
  | resubTimer =>
    obtain rfl := step_resubTimer h
    exact hSome.resolve_right (by simp)

theorem QueryInv.queryWs_run {freed : Ws → Ws} {evs : List ClientEvent} {u u' : UwsClient}
    {outs : List (List Written)} (hInv : u.QueryInv)
    (hKeeps : Machine.Along (UwsClient.step freed) KeepsQuery u evs)
    (hRun : Machine.run (UwsClient.step freed) u evs = some (u', outs))
    (hSome : u.queryWs ≠ none ∨ ∃ ws, ClientEvent.connection ws ∈ evs) : u'.queryWs ≠ none := by
  induction evs generalizing u outs with
  | nil =>
    cases hRun
    exact hSome.resolve_right (by simp)
  | cons ev evs ih =>
    obtain ⟨next, out, outs', hStep, hRest, -⟩ := Machine.run_cons hRun
    apply ih (hInv.step hKeeps.1 hStep) (hKeeps.2 next out hStep) hRest
    rcases hSome with hQuery | ⟨ws, hIn⟩
    · exact .inl (hInv.queryWs_step hStep (.inl hQuery))
    · rcases List.mem_cons.mp hIn with rfl | hLater
      · exact .inl (hInv.queryWs_step hStep (.inr ⟨ws, rfl⟩))
      · exact .inr ⟨ws, hLater⟩

theorem QueryInv.empty : QueryInv {} := by
  constructor
  · exact fun _ => ⟨rfl, rfl, fun _ => AList.notMem_empty _⟩
  · intro ws hQuery
    cases hQuery
  · intro ws hQuery
    cases hQuery

/-- **The connection for queries**: from the first connection on it is usable, in a run that does not
drop it. -/
theorem run_queryWs {freed : Ws → Ws} {evs : List ClientEvent} {u : UwsClient}
    {outs : List (List Written)} (hRun : Machine.run (step freed) {} evs = some (u, outs))
    (hConnected : ∃ ws, ClientEvent.connection ws ∈ evs)
    (hKeeps : Machine.Along (step freed) KeepsQuery {} evs) : u.QueryUsable := by
  have hInv : u.QueryInv :=
    Machine.run_keeps (fun hKept hP hStep => QueryInv.step hKept hP hStep) QueryInv.empty hKeeps hRun
  have hSome := QueryInv.empty.queryWs_run hKeeps hRun (.inr hConnected)
  obtain ⟨ws, hQuery⟩ := Option.ne_none_iff_exists'.mp hSome
  exact ⟨fun _ => ⟨ws, hQuery, hInv.opened ws hQuery⟩, hInv.apart⟩

/-- Another connection is dropped and replaced. -/
theorem run_queryWs_other :
    ∃ u outs, Machine.run (step id) {} [.connection 1, .connection 2, .disconnection 2,
        .connection 3] = some (u, outs) ∧ u.QueryUsable := by
  refine ⟨_, _, rfl, ?_⟩
  refine @run_queryWs id [.connection 1, .connection 2, .disconnection 2, .connection 3] _ _ rfl
    ⟨1, List.mem_cons_self⟩ ?_
  refine Machine.along_cons trivial rfl (Machine.along_cons trivial rfl (Machine.along_cons ?_ rfl
    (Machine.along_cons trivial rfl trivial)))
  show some 1 ≠ some 2
  decide

/-- The connection for queries is dropped: what replaces it is for subscriptions. -/
theorem run_queryWs_dropped :
    ¬∀ (freed : Ws → Ws) (evs : List ClientEvent) (u : UwsClient) (outs : List (List Written)),
      Machine.run (step freed) {} evs = some (u, outs) →
      (∃ ws, ClientEvent.connection ws ∈ evs) → u.QueryUsable := by
  intro h
  have hUsable := h id [.connection 1, .connection 2, .disconnection 1, .connection 3] _ _ rfl
    ⟨1, List.mem_cons_self⟩
  obtain ⟨ws, hQuery, hOpen⟩ := hUsable.opened rfl
  cases hQuery
  exact absurd hOpen (by decide)

end UwsClient

end DemoCode.FeedProxy
