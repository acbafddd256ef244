import DemoCode.FeedProxy.UwsClient

/-! The tables of `UwsClient` over runs.  Requests leave the connections in their places, and a new
connection takes the place of a dropped one without harm as long as that holds nothing. -/

namespace DemoCode.FeedProxy

namespace UwsClient

/-- The address of a connection. -/
def wsAt (u : UwsClient) (ptr : Nat) : Option Ws := u.conns[ptr]?.map WsConnections.ws

/-- A request leaves the connections in their places. -/
structure Kept (u u' : UwsClient) : Prop where
  allWsMap : u'.allWsMap = u.allWsMap
  wsAt : u'.wsAt = u.wsAt
  openWs : u'.openWs = u.openWs
  disconWsQue : u'.disconWsQue = u.disconWsQue
  queryWs : u'.queryWs = u.queryWs

/-- Every entry of the tables points to a connection, which is stored under its own address and holds
the symbols that point to it; an address stays in `allWsMap` until it is replaced. -/
structure Inv (u : UwsClient) : Prop where
  allWs : ∀ ws con, u.allWsMap.lookup ws = some con → ∃ ptr, con = some ptr ∧ u.wsAt ptr = some ws
  symbols : ∀ symbol con, u.symbol2conMap.lookup symbol = some con → ∃ ptr ws, con = some ptr ∧
    u.wsAt ptr = some ws ∧ u.allWsMap.lookup ws = some (some ptr) ∧ symbol ∈ u.symbolsOf ws
  dropped : ∀ ws ∈ u.allWsMap, ws ∈ u.openWs ∨ ws ∈ u.disconWsQue

theorem Kept.refl (u : UwsClient) : Kept u u := ⟨rfl, rfl, rfl, rfl, rfl⟩

theorem Kept.trans {u v w : UwsClient} (h : Kept u v) (h' : Kept v w) : Kept u w :=
  ⟨h'.allWsMap.trans h.allWsMap, h'.wsAt.trans h.wsAt, h'.openWs.trans h.openWs,
    h'.disconWsQue.trans h.disconWsQue, h'.queryWs.trans h.queryWs⟩

theorem wsAt_addCounts (u : UwsClient) (ptr : Nat) (n : Int) : (u.addCounts ptr n).wsAt = u.wsAt := by
  funext q
  rw [wsAt, wsAt, addCounts, List.getElem?_modify]
  rcases u.conns[q]? with _ | conn
  · rfl
  · show some _ = some _
    split <;> rfl

/-! ### Requests leave the connections in their places -/

theorem subTake_kept {ptr : Nat} {info : Json} {u u' : UwsClient} (h : u.subTake ptr info = some u') :
    Kept u u' := by
  simp only [subTake, Option.bind_eq_bind, Option.bind_eq_some_iff, Option.some.injEq] at h
  obtain ⟨conn, -, symbol, -, rfl⟩ := h
  exact ⟨rfl, wsAt_addCounts u ptr 1, rfl, rfl, rfl⟩

theorem subTakes_kept {ptr : Nat} {todo : List (Option Json)} {u u' : UwsClient} {data : List Json}
    (h : subTakes ptr todo u = some (u', data)) : Kept u u' := by
  induction todo generalizing u data with
  | nil =>
    cases h
    exact .refl _
  | cons info todo ih =>
    simp only [subTakes, Option.bind_eq_bind, Option.bind_eq_some_iff, Option.some.injEq,
      Prod.mk.injEq, Prod.exists] at h
    obtain ⟨info, -, next, hTake, u'', data', hRest, rfl, -⟩ := h
    exact (subTake_kept hTake).trans (ih hRest)

theorem subOn_kept {reqid : Option Int} {con : Option Nat} {todo todo' : List (Option Json)}
    {u u' : UwsClient} {out : List Written} (h : u.subOn reqid con todo = some (u', out, todo')) :
    Kept u u' := by
  simp only [subOn, Option.bind_eq_bind, Option.bind_eq_some_iff] at h
  obtain ⟨ptr, -, conn, -, h⟩ := h
  split at h
  · cases h
    exact .refl _
  · simp only [Option.bind_eq_some_iff, Prod.exists] at h
    obtain ⟨reqid, -, u'', data, hTakes, h⟩ := h
    cases h
    have hKept := subTakes_kept hTakes
    exact ⟨hKept.allWsMap, hKept.wsAt, hKept.openWs, hKept.disconWsQue, hKept.queryWs⟩

theorem subLoop_kept {reqid : Option Int} {its : List (Σ _ : Ws, Option Nat)}
    {todo todo' : List (Option Json)} {u u' : UwsClient} {out : List Written}
    (h : u.subLoop reqid its todo = some (u', out, todo')) : Kept u u' := by
  induction its generalizing u todo out with
  | nil =>
    cases h
    exact .refl _
  | cons it its ih =>
    rw [subLoop] at h
    split at h
    · cases h
      exact .refl _
    · simp only [Option.bind_eq_bind, Option.bind_eq_some_iff, Prod.exists] at h
      obtain ⟨next, out₁, todo₁, hOn, u'', out₂, todo₂, hRest, h⟩ := h
      cases h
      exact (subOn_kept hOn).trans (ih hRest)

theorem unsubTake_kept {freed : Ws → Ws} {reqid : Option Int} {info : Option Json} {u u' : UwsClient}
    {out : List Written} (h : u.unsubTake freed reqid info = some (u', out)) : Kept u u' := by
  simp only [unsubTake, Option.bind_eq_bind, Option.bind_eq_some_iff] at h
  obtain ⟨info, -, symbol, -, h⟩ := h
  split at h
  · cases h
    exact .refl _
  · simp only [Option.bind_eq_some_iff] at h
    obtain ⟨reqid, -, ptr, -, conn, -, h⟩ := h
    cases h
    exact ⟨rfl, wsAt_addCounts u ptr (-1), rfl, rfl, rfl⟩

theorem unsubLoop_kept {freed : Ws → Ws} {reqid : Option Int} {todo : List (Option Json)}
    {u u' : UwsClient} {out : List Written} (h : u.unsubLoop freed reqid todo = some (u', out)) :
    Kept u u' := by
  induction todo generalizing u out with
  | nil =>
    cases h
    exact .refl _
  | cons info todo ih =>
    simp only [unsubLoop, Option.bind_eq_bind, Option.bind_eq_some_iff, Prod.exists,
      Option.some.injEq, Prod.mk.injEq] at h
    obtain ⟨next, out₁, hTake, u'', out₂, hRest, rfl, -⟩ := h
    exact (unsubTake_kept hTake).trans (ih hRest)

/-- What a request can do: the loop of a subscription, that of an end of one, or nothing to the
tables. -/
theorem sendReq_cases {freed : Ws → Ws} {reqJson : Json} {u u' : UwsClient} {out : List Written}
    {ret : Option Int} (h : u.sendReq freed reqJson = some (u', out, ret)) :
    (∃ data todo, reqJson.get "data" = some data ∧ reqJson.getInt "reqtype" = some 200 ∧
        u.subLoop (reqJson.getInt "reqid") u.allWsMap.entries data.items = some (u', out, todo)) ∨
      (∃ data, reqJson.get "data" = some data ∧ reqJson.getInt "reqtype" = some 201 ∧
        u.unsubLoop freed (reqJson.getInt "reqid") data.items = some (u', out)) ∨
      (u' = u ∧ ∃ beats, out = beats ++ u.sendQuery reqJson ∧
        (reqJson.getInt "reqtype" ≠ some 1 → beats = [])) := by
  simp only [sendReq, Option.bind_eq_bind, Option.bind_eq_some_iff] at h
  obtain ⟨reqType, hType, h⟩ := h
  split at h
  · rename_i hSub
    simp only [Option.bind_eq_some_iff, Prod.exists] at h
    obtain ⟨data, hData, u'', out', todo, hLoop, h⟩ := h
    cases h
    exact .inl ⟨data, todo, hData, hSub ▸ hType, hLoop⟩
  split at h
  · rename_i hUnsub
    simp only [Option.bind_eq_some_iff, Prod.exists] at h
    obtain ⟨data, hData, u'', out', hLoop, h⟩ := h
    cases h
    exact .inr (.inl ⟨data, hData, hUnsub ▸ hType, hLoop⟩)
  split at h
  · rename_i hBeat
    obtain ⟨beats, -, h⟩ := Option.bind_eq_some_iff.mp h
    cases h
    exact .inr (.inr ⟨rfl, beats, rfl, fun hOther => absurd (hBeat ▸ hType) hOther⟩)
  · cases h
    exact .inr (.inr ⟨rfl, [], rfl, fun _ => rfl⟩)

theorem sendReq_kept {freed : Ws → Ws} {reqJson : Json} {u u' : UwsClient} {out : List Written}
    {ret : Option Int} (h : u.sendReq freed reqJson = some (u', out, ret)) : Kept u u' := by
  rcases sendReq_cases h with ⟨data, todo, -, -, hLoop⟩ | ⟨data, -, -, hLoop⟩ | ⟨rfl, -⟩
  · exact subLoop_kept hLoop
  · exact unsubLoop_kept hLoop
  · exact .refl _

/-! ### Requests keep the tables -/

theorem symbolsOf_insert (u : UwsClient) (ws ws' : Ws) (symbols : List String) :
    ((u.con2symbolMap.insert ws symbols).lookup ws').getD [] =
      if ws' = ws then symbols else u.symbolsOf ws' := by
  by_cases hWs : ws' = ws
  · rw [if_pos hWs, hWs, AList.lookup_insert]
    rfl
  · rw [if_neg hWs, AList.lookup_insert_ne hWs]
    rfl

theorem Inv.subTake {ptr : Nat} {info : Json} {u u' : UwsClient} {ws : Ws} (hInv : u.Inv)
    (hAt : u.wsAt ptr = some ws) (hStored : u.allWsMap.lookup ws = some (some ptr))
    (h : u.subTake ptr info = some u') : u'.Inv := by
  have hKept := subTake_kept h
  simp only [UwsClient.subTake, Option.bind_eq_bind, Option.bind_eq_some_iff, Option.some.injEq] at h
  obtain ⟨conn, hConn, symbol, -, rfl⟩ := h
  have hWs : conn.ws = ws := by
    rw [wsAt, hConn] at hAt
    exact Option.some.inj hAt
  constructor
  · intro ws' con hCon
    rw [hKept.wsAt]
    exact hInv.allWs ws' con hCon
  · intro symbol' con hCon
    rw [hKept.wsAt]
    dsimp only at hCon
    by_cases hSymbol : symbol' = symbol
    · rw [hSymbol, AList.lookup_insert] at hCon
      cases hCon
      refine ⟨ptr, ws, rfl, hAt, hStored, ?_⟩
      show symbol' ∈ ((u.con2symbolMap.insert conn.ws _).lookup ws).getD []
      rw [symbolsOf_insert, if_pos hWs.symm, hSymbol]
      exact List.mem_insert_self
    · rw [AList.lookup_insert_ne hSymbol] at hCon
      obtain ⟨ptr', ws', rfl, hAt', hStored', hIn⟩ := hInv.symbols symbol' con hCon
      refine ⟨ptr', ws', rfl, hAt', hStored', ?_⟩
      show symbol' ∈ ((u.con2symbolMap.insert conn.ws _).lookup ws').getD []
      rw [symbolsOf_insert]
      split
      · rename_i hSame
        rw [← hSame]
        exact List.mem_insert_of_mem hIn
      · exact hIn
  · exact hInv.dropped

theorem Inv.subTakes {ptr : Nat} {todo : List (Option Json)} {u u' : UwsClient} {ws : Ws}
    {data : List Json} (hInv : u.Inv) (hAt : u.wsAt ptr = some ws)
    (hStored : u.allWsMap.lookup ws = some (some ptr))
    (h : UwsClient.subTakes ptr todo u = some (u', data)) : u'.Inv := by
  induction todo generalizing u data with
  | nil =>
    cases h
    exact hInv
  | cons info todo ih =>
    simp only [UwsClient.subTakes, Option.bind_eq_bind, Option.bind_eq_some_iff, Option.some.injEq,
      Prod.mk.injEq, Prod.exists] at h
    obtain ⟨info, -, next, hTake, u'', data', hRest, rfl, -⟩ := h
    have hKept := subTake_kept hTake
    exact ih (hInv.subTake hAt hStored hTake) (hKept.wsAt ▸ hAt) (hKept.allWsMap ▸ hStored) hRest

theorem Inv.subOn {reqid : Option Int} {con : Option Nat} {todo todo' : List (Option Json)}
    {u u' : UwsClient} {out : List Written} {ws : Ws} (hInv : u.Inv)
    (hStored : u.allWsMap.lookup ws = some con)
    (h : u.subOn reqid con todo = some (u', out, todo')) : u'.Inv := by
  obtain ⟨ptr, rfl, hAt⟩ := hInv.allWs ws con hStored
  simp only [UwsClient.subOn, Option.bind_eq_bind, Option.bind_some, Option.bind_eq_some_iff] at h
  obtain ⟨conn, -, h⟩ := h
  split at h
  · cases h
    exact hInv
  · simp only [Option.bind_eq_some_iff, Prod.exists] at h
    obtain ⟨reqid, -, u'', data, hTakes, h⟩ := h
    cases h
    have hSet : Inv { u with subReqid := some reqid } := ⟨hInv.allWs, hInv.symbols, hInv.dropped⟩
    exact hSet.subTakes hAt hStored hTakes

/-- **Subscriptions** keep the tables. -/
theorem Inv.subLoop {reqid : Option Int} {its : List (Σ _ : Ws, Option Nat)}
    {todo todo' : List (Option Json)} {u u' : UwsClient} {out : List Written} (hInv : u.Inv)
    (hIts : ∀ it ∈ its, u.allWsMap.lookup it.1 = some it.2)
    (h : u.subLoop reqid its todo = some (u', out, todo')) : u'.Inv := by
  induction its generalizing u todo out with
  | nil =>
    cases h
    exact hInv
  | cons it its ih =>
    rw [UwsClient.subLoop] at h
    split at h
    · cases h
      exact hInv
    · simp only [Option.bind_eq_bind, Option.bind_eq_some_iff, Prod.exists] at h
      obtain ⟨next, out₁, todo₁, hOn, u'', out₂, todo₂, hRest, h⟩ := h
      cases h
      refine ih (hInv.subOn (hIts it List.mem_cons_self) hOn) ?_ hRest
      intro it hIn
      rw [(subOn_kept hOn).allWsMap]
      exact hIts it (List.mem_cons_of_mem _ hIn)

theorem Inv.unsubTake {freed : Ws → Ws} {reqid : Option Int} {info : Option Json}
    {u u' : UwsClient} {out : List Written} (hInv : u.Inv)
    (h : u.unsubTake freed reqid info = some (u', out)) : u'.Inv := by
  simp only [UwsClient.unsubTake, Option.bind_eq_bind, Option.bind_eq_some_iff] at h
  obtain ⟨info, -, symbol, -, h⟩ := h
  split at h
  · cases h
    exact hInv
  simp only [Option.bind_eq_some_iff] at h
  obtain ⟨reqid, -, ptr, -, conn, -, h⟩ := h
  cases h
  have hWsAt := wsAt_addCounts u ptr (-1)
  refine ⟨?_, ?_, hInv.dropped⟩
  · intro ws con hCon
    obtain ⟨ptr', rfl, hAt⟩ := hInv.allWs ws con hCon
    exact ⟨ptr', rfl, (congrFun hWsAt ptr').trans hAt⟩
  · intro symbol' con hCon
    dsimp only at hCon
    by_cases hSymbol : symbol' = symbol
    · rw [hSymbol, AList.lookup_erase] at hCon
      cases hCon
    rw [AList.lookup_erase_ne hSymbol] at hCon
    obtain ⟨ptr', ws', rfl, hAt, hStored, hIn⟩ := hInv.symbols symbol' con hCon
    refine ⟨ptr', ws', rfl, (congrFun hWsAt ptr').trans hAt, hStored, ?_⟩
    -- only the symbol itself is taken out, wherever that is
    rw [symbolsOf]
    dsimp only
    split
    · exact hIn
    · rename_i symbols hLookup
      rw [symbolsOf_insert]
      split
      · rename_i hSame
        rw [symbolsOf, hSame, hLookup] at hIn
        exact (List.mem_erase_of_ne hSymbol).mpr hIn
      · exact hIn

/-- **Ends of subscriptions** keep the tables. -/
theorem Inv.unsubLoop {freed : Ws → Ws} {reqid : Option Int} {todo : List (Option Json)}
    {u u' : UwsClient} {out : List Written} (hInv : u.Inv)
    (h : u.unsubLoop freed reqid todo = some (u', out)) : u'.Inv := by
  induction todo generalizing u out with
  | nil =>
    cases h
    exact hInv
  | cons info todo ih =>
    simp only [UwsClient.unsubLoop, Option.bind_eq_bind, Option.bind_eq_some_iff, Prod.exists,
      Option.some.injEq, Prod.mk.injEq] at h
    obtain ⟨next, out₁, hTake, u'', out₂, hRest, rfl, -⟩ := h
    exact ih (hInv.unsubTake hTake) hRest

/-- **Requests** keep the tables. -/
theorem Inv.sendReq {freed : Ws → Ws} {reqJson : Json} {u u' : UwsClient} {out : List Written}
    {ret : Option Int} (hInv : u.Inv) (h : u.sendReq freed reqJson = some (u', out, ret)) :
    u'.Inv := by
  rcases sendReq_cases h with ⟨data, todo, -, -, hLoop⟩ | ⟨data, -, -, hLoop⟩ | ⟨rfl, -⟩
  · exact hInv.subLoop (fun it hIn => AList.mem_lookup_iff.mpr hIn) hLoop
  · exact hInv.unsubLoop hLoop
  · exact hInv

/-! ### Connections -/

theorem wsAt_insertWs {u : UwsClient} {ptr : Nat} {ws' : Ws} (h : u.wsAt ptr = some ws') (ws : Ws)
    (counts : Int) : (u.insertWs ws counts).wsAt ptr = some ws' := by
  obtain ⟨conn, hConn, rfl⟩ := Option.map_eq_some_iff.mp h
  have hLess := (List.getElem?_eq_some_iff.mp hConn).1
  rw [wsAt, insertWs, List.getElem?_append_left hLess, hConn]
  rfl

theorem lookup_insertWs {u : UwsClient} {ws : Ws} (hNew : ws ∉ u.allWsMap) (counts : Int) :
    (u.insertWs ws counts).allWsMap.lookup ws = some (some u.conns.length) := by
  rw [insertWs, Map.emplace, if_neg hNew, AList.lookup_insert]

theorem lookup_insertWs_ne {u : UwsClient} {ws ws' : Ws} (hNe : ws' ≠ ws) (counts : Int) :
    (u.insertWs ws counts).allWsMap.lookup ws' = u.allWsMap.lookup ws' := by
  rw [insertWs, Map.emplace]
  split
  · rfl
  · exact AList.lookup_insert_ne hNe

/-- A connection that is open and not stored yet. -/
theorem Inv.insertWs {u : UwsClient} {ws : Ws} (hInv : u.Inv) (hNew : ws ∉ u.allWsMap)
    (hOpen : ws ∈ u.openWs) (counts : Int) : (u.insertWs ws counts).Inv := by
  constructor
  · intro ws' con hCon
    by_cases hWs : ws' = ws
    · rw [hWs, lookup_insertWs hNew] at hCon
      cases hCon
      refine ⟨_, rfl, ?_⟩
      rw [wsAt, UwsClient.insertWs, List.getElem?_concat_length, hWs]
      rfl
    · rw [lookup_insertWs_ne hWs] at hCon
      obtain ⟨ptr, rfl, hAt⟩ := hInv.allWs ws' con hCon
      exact ⟨ptr, rfl, wsAt_insertWs hAt ws counts⟩
  · intro symbol con hCon
    obtain ⟨ptr, ws', rfl, hAt, hStored, hIn⟩ := hInv.symbols symbol con hCon
    have hNe : ws' ≠ ws := by
      rintro rfl
      exact hNew (AList.lookup_isSome.mp (Option.isSome_iff_exists.mpr ⟨_, hStored⟩))
    exact ⟨ptr, ws', rfl, wsAt_insertWs hAt ws counts, (lookup_insertWs_ne hNe counts).trans hStored,
      hIn⟩
  · intro ws' hIn
    by_cases hWs : ws' = ws
    · exact .inl (hWs ▸ hOpen)
    · apply hInv.dropped
      rw [← AList.lookup_isSome, lookup_insertWs_ne hWs, AList.lookup_isSome] at hIn
      exact hIn

/-- The dropped connection that a new one replaces holds nothing, and the address of the new one is
not stored for another. -/
def ReplacesIdle (u : UwsClient) : ClientEvent → Prop
  | .connection ws => ∀ disWs ∈ u.disconWsQue.head?,
      u.symbolsOf disWs = [] ∧ (ws = disWs ∨ ws ∉ u.allWsMap)
  | _ => True

/-- A dropped connection that holds nothing is taken out of the tables. -/
theorem Inv.takeOut {u : UwsClient} {disWs ws : Ws} {rest : List Ws} (hInv : u.Inv)
    (hQue : u.disconWsQue = disWs :: rest) (hEmpty : u.symbolsOf disWs = [])
    (hWs : ws = disWs ∨ ws ∉ u.allWsMap) :
    Inv { u with
      disconWsQue := rest
      con2symbolMap := (u.con2symbolMap.erase disWs).insert ws []
      allWsMap := u.allWsMap.erase disWs } := by
  constructor
  · intro ws' con hCon
    dsimp only at hCon
    by_cases hDis : ws' = disWs
    · rw [hDis, AList.lookup_erase] at hCon
      cases hCon
    · rw [AList.lookup_erase_ne hDis] at hCon
      exact hInv.allWs ws' con hCon
  · intro symbol con hCon
    obtain ⟨ptr, ws', rfl, hAt, hStored, hIn⟩ := hInv.symbols symbol con hCon
    have hDis : ws' ≠ disWs := by
      rintro rfl
      rw [hEmpty] at hIn
      exact absurd hIn List.not_mem_nil
    have hNe : ws' ≠ ws := by
      rintro rfl
      rcases hWs with hSame | hNew
      · exact hDis hSame
      · exact hNew (AList.lookup_isSome.mp (Option.isSome_iff_exists.mpr ⟨_, hStored⟩))
    refine ⟨ptr, ws', rfl, hAt, (AList.lookup_erase_ne hDis).trans hStored, ?_⟩
    rw [symbolsOf]
    dsimp only
    rw [AList.lookup_insert_ne hNe, AList.lookup_erase_ne hDis]
    exact hIn
  · intro ws' hIn
    dsimp only at hIn ⊢
    rw [AList.mem_erase] at hIn
    rcases hInv.dropped ws' hIn.2 with hOpen | hDropped
    · exact .inl hOpen
    · rw [hQue] at hDropped
      exact .inr ((List.mem_cons.mp hDropped).resolve_left hIn.1)

/-- The very first connection is for queries. -/
theorem onConnection_query {u : UwsClient} (hQue : u.disconWsQue = []) (hQuery : u.queryWs = none)
    (ws : Ws) : u.onConnection ws = ({ u with queryWs := some ws }, []) := by
  rw [onConnection, hQue, hQuery]

theorem onConnection_first {u : UwsClient} {queryWs : Ws} (hQue : u.disconWsQue = [])
    (hQuery : u.queryWs = some queryWs) (ws : Ws) : u.onConnection ws = (u.insertWs ws 0, []) := by
  rw [onConnection, hQue, hQuery]

/-- What a reconnection does when the dropped connection holds nothing. -/
theorem onConnection_idle {u : UwsClient} {disWs ws : Ws} {rest : List Ws}
    (hQue : u.disconWsQue = disWs :: rest) (hEmpty : u.symbolsOf disWs = []) :
    (u.onConnection ws).1 =
      { u with
        disconWsQue := rest
        con2symbolMap := (u.con2symbolMap.erase disWs).insert ws []
        allWsMap := u.allWsMap.erase disWs : UwsClient }.insertWs ws 0 := by
  simp only [onConnection, hQue, hEmpty, List.foldl_nil, List.length_nil]
  rfl

/-- **Connections** keep the tables, as long as what is replaced holds nothing. -/
theorem Inv.onConnection {u : UwsClient} {ws : Ws} (hInv : u.Inv) (hOpen : ws ∈ u.openWs)
    (hFirst : u.disconWsQue = [] → ws ∉ u.allWsMap)
    (hIdle : ∀ disWs ∈ u.disconWsQue.head?,
      u.symbolsOf disWs = [] ∧ (ws = disWs ∨ ws ∉ u.allWsMap)) : (u.onConnection ws).1.Inv := by
  rcases hQue : u.disconWsQue with _ | ⟨disWs, rest⟩
  · rcases hQuery : u.queryWs with _ | queryWs
    · rw [onConnection_query hQue hQuery]
      exact ⟨hInv.allWs, hInv.symbols, hInv.dropped⟩
    · rw [onConnection_first hQue hQuery]
      exact hInv.insertWs (hFirst hQue) hOpen 0
  · obtain ⟨hEmpty, hWs⟩ := hIdle disWs (by rw [hQue]; rfl)
    have hNew : ws ∉ u.allWsMap.erase disWs := by
      rw [AList.mem_erase]
      rintro ⟨hNe, hIn⟩
      rcases hWs with hSame | hNew
      · exact hNe hSame
      · exact hNew hIn
    rw [onConnection_idle hQue hEmpty]
    exact (hInv.takeOut hQue hEmpty hWs).insertWs hNew hOpen 0

/-- **Step**: every event keeps the tables, as long as what is replaced holds nothing. -/
theorem Inv.step {freed : Ws → Ws} {u u' : UwsClient} {ev : ClientEvent} {out : List Written}
    (hInv : u.Inv) (hIdle : u.ReplacesIdle ev) (h : u.step freed ev = some (u', out)) : u'.Inv := by
  cases ev with
  | connection ws =>
    obtain ⟨hClosed, rfl⟩ := step_connection h
    have hWider : Inv { u with openWs := ws :: u.openWs } :=
      ⟨hInv.allWs, hInv.symbols,
        fun ws' hIn => (hInv.dropped ws' hIn).imp_left (List.mem_cons_of_mem _)⟩
    refine hWider.onConnection List.mem_cons_self ?_ hIdle
    intro hQue hIn
    rcases hInv.dropped ws hIn with hOpen | hDropped
    · exact hClosed hOpen
    · rw [show u.disconWsQue = [] from hQue] at hDropped
      exact absurd hDropped List.not_mem_nil
  | disconnection ws =>
    obtain ⟨-, rfl⟩ := step_disconnection h
    refine ⟨hInv.allWs, hInv.symbols, ?_⟩
    intro ws' hIn
    by_cases hWs : ws' = ws
    · exact .inr (List.mem_append_right _ (List.mem_singleton.mpr hWs))
    · rcases hInv.dropped ws' hIn with hOpen | hDropped
      · exact .inl ((List.mem_erase_of_ne hWs).mpr hOpen)
      · exact .inr (List.mem_append_left _ hDropped)
  | request reqJson =>
    obtain ⟨ret, hSend⟩ := step_request h
    exact hInv.sendReq hSend
  | resubTimer =>
    obtain rfl := step_resubTimer h
    exact hInv

/-! ### The tables are whole -/

/-- No entry is null, and a connection that a symbol points to is the one stored under its address. -/
structure Whole (u : UwsClient) : Prop where
  allWs : ∀ ws con, u.allWsMap.lookup ws = some con → con ≠ none
  symbols : ∀ symbol con, u.symbol2conMap.lookup symbol = some con → con ≠ none
  stored : ∀ symbol ptr, u.symbol2conMap.lookup symbol = some (some ptr) →
    ∃ conn, u.conns[ptr]? = some conn ∧ u.allWsMap.lookup conn.ws = some (some ptr)

/-- What a connection held is held by the one in its place, which counts it. -/
structure Moved (u u' : UwsClient) (disWs ws : Ws) : Prop where
  held : ∀ symbol ∈ u.symbolsOf disWs, symbol ∈ u'.symbolsOf ws ∧
    ∃ ptr, u'.symbol2conMap.lookup symbol = some (some ptr) ∧ u'.wsAt ptr = some ws
  counts : ∃ ptr conn, u'.allWsMap.lookup ws = some (some ptr) ∧ u'.conns[ptr]? = some conn ∧
    conn.ws = ws ∧ conn.counts = (u.symbolsOf disWs).length

theorem Inv.whole {u : UwsClient} (h : u.Inv) : u.Whole := by
  constructor
  · rintro ws con hCon rfl
    obtain ⟨ptr, hEq, -⟩ := h.allWs ws none hCon
    cases hEq
  · rintro symbol con hCon rfl
    obtain ⟨ptr, ws, hEq, -⟩ := h.symbols symbol none hCon
    cases hEq
  · intro symbol ptr hCon
    obtain ⟨ptr', ws, hEq, hAt, hStored, -⟩ := h.symbols symbol (some ptr) hCon
    cases hEq
    obtain ⟨conn, hConn, rfl⟩ := Option.map_eq_some_iff.mp hAt
    exact ⟨conn, hConn, hStored⟩

theorem Inv.empty : Inv {} := by
  constructor
  · intro ws con hCon
    cases hCon
  · intro symbol con hCon
    cases hCon
  · intro ws hIn
    exact absurd hIn (AList.notMem_empty _)

theorem moved_of_idle {u : UwsClient} {disWs ws : Ws} (hQue : disWs ∈ u.disconWsQue.head?)
    (hEmpty : u.symbolsOf disWs = []) (hWs : ws = disWs ∨ ws ∉ u.allWsMap) :
    Moved u (u.onConnection ws).1 disWs ws := by
  obtain ⟨rest, hCons⟩ := List.head?_eq_some_iff.mp hQue
  have hNew : ws ∉ u.allWsMap.erase disWs := by
    rw [AList.mem_erase]
    rintro ⟨hNe, hIn⟩
    rcases hWs with hSame | hNew
    · exact hNe hSame
    · exact hNew hIn
  rw [onConnection_idle hCons hEmpty]
  constructor
  · intro symbol hIn
    rw [hEmpty] at hIn
    exact absurd hIn List.not_mem_nil
  · refine ⟨u.conns.length, ⟨ws, 0⟩, lookup_insertWs hNew 0, ?_, rfl, ?_⟩
    · exact List.getElem?_concat_length
    · rw [hEmpty]
      rfl

/-- **Reconnections**: in a run that only replaces connections that hold nothing, the tables are
whole, and so is what the next reconnection moves. -/
theorem run_reconnects {freed : Ws → Ws} {evs : List ClientEvent} {u : UwsClient}
    {outs : List (List Written)} (hRun : Machine.run (step freed) {} evs = some (u, outs))
    (hIdle : Machine.Along (step freed) ReplacesIdle {} evs) :
    u.Whole ∧ ∀ ws u' out disWs, u.ReplacesIdle (.connection ws) →
      u.step freed (.connection ws) = some (u', out) → disWs ∈ u.disconWsQue.head? →
      u.Moved u' disWs ws := by
  have hInv : u.Inv :=
    Machine.run_keeps (fun hKept hP hStep => Inv.step hKept hP hStep) Inv.empty hIdle hRun
  refine ⟨hInv.whole, ?_⟩
  intro ws u' out disWs hNext hStep hQue
  obtain ⟨-, rfl⟩ := step_connection hStep
  obtain ⟨hEmpty, hWs⟩ := hNext disWs hQue
  have hMoved := @moved_of_idle { u with openWs := ws :: u.openWs } disWs ws hQue hEmpty hWs
  exact ⟨hMoved.held, hMoved.counts⟩

/-- A subscription of one symbol. -/
def subJson : Json :=
  .obj [("reqtype", .int 200), ("reqid", .int 11),
    ("data", .arr [.obj [("type", .int 1), ("market", .int 2002), ("code", .str "700")]])]

/-- The second connection takes a symbol; the first one holds nothing, is dropped and replaced, and the new
one is dropped again. -/
theorem run_reconnects_idle :
    ∃ u outs, Machine.run (step id) {} [.connection 1, .connection 2, .request subJson, .disconnection 1,
        .connection 3, .disconnection 3] = some (u, outs) ∧ u.symbolsOf 2 = ["1|2002|700"] ∧ u.Whole ∧
      ∀ ws u' out disWs, u.ReplacesIdle (.connection ws) → u.step id (.connection ws) = some (u', out) →
        disWs ∈ u.disconWsQue.head? → u.Moved u' disWs ws := by
  refine ⟨_, _, rfl, rfl, ?_⟩
  refine @run_reconnects id [.connection 1, .connection 2, .request subJson, .disconnection 1,
    .connection 3, .disconnection 3] _ _ rfl ?_
  refine Machine.along_cons ?_ rfl (Machine.along_cons ?_ rfl (Machine.along_cons trivial rfl
    (Machine.along_cons trivial rfl (Machine.along_cons ?_ rfl (Machine.along_cons trivial rfl trivial)))))
  · intro disWs hQue
    cases hQue
  · intro disWs hQue
    cases hQue
  · intro disWs hQue
    cases hQue
    exact ⟨rfl, Or.inr (by decide)⟩

/-- A connection that holds a symbol is dropped, and the symbol has none afterwards. -/
theorem run_reconnects_null :
    ¬∀ (freed : Ws → Ws) (evs : List ClientEvent) (u : UwsClient) (outs : List (List Written)),
      Machine.run (step freed) {} evs = some (u, outs) → u.Whole := by
  intro h
  have hWhole := h id [.connection 1, .connection 2, .request subJson, .disconnection 2, .connection 3]
    _ _ rfl
  exact hWhole.symbols "1|2002|700" none rfl rfl

end UwsClient

end DemoCode.FeedProxy
