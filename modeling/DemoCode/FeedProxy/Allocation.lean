import DemoCode.FeedProxy.Pending

/-! How `UwsClient` spreads the symbols of subscriptions over its connections: each connection counts
what it holds and never holds more than its share, and a subscription fills the free places in the
order of the connections with the first of its symbols. -/

namespace DemoCode.FeedProxy

namespace UwsClient

/-! ### Connections and what they hold -/

/-- Every connection counts the symbols that it holds, which are those that are stored for it, and it
has no more than its share. -/
structure Alloc (u : UwsClient) : Prop where
  inv : u.Inv
  allOpen : u.AllOpen
  holds : ∀ ws ptr conn, u.allWsMap.lookup ws = some (some ptr) → u.conns[ptr]? = some conn →
    conn.counts = (u.symbolsOf ws).length ∧ conn.counts ≤ perWsCodeNums ∧ (u.symbolsOf ws).Nodup ∧
      ∀ symbol, symbol ∈ u.symbolsOf ws ↔ u.symbol2conMap.lookup symbol = some (some ptr)

/-- The places that are left on a connection. -/
def places (u : UwsClient) (con : Option Nat) : Nat :=
  match con.bind (u.conns[·]?) with
  | none => 0
  | some conn => (perWsCodeNums - conn.counts).toNat

def placesOn (u : UwsClient) (its : List (Σ _ : Ws, Option Nat)) : Nat :=
  (its.map fun it => u.places it.2).sum

/-- The places that are left in all. -/
def freePlaces (u : UwsClient) : Nat := u.placesOn u.allWsMap.entries

/-- The connection that a symbol is stored for. -/
def wsOf (u : UwsClient) (symbol : String) : Option Ws :=
  ((u.symbol2conMap.lookup symbol).bind id).bind u.wsAt

theorem conn_at {u : UwsClient} {ptr : Nat} {ws : Ws} (h : u.wsAt ptr = some ws) :
    ∃ conn, u.conns[ptr]? = some conn ∧ conn.ws = ws := Option.map_eq_some_iff.mp h

theorem addCounts_same {u : UwsClient} {ptr : Nat} {conn : WsConnections}
    (h : u.conns[ptr]? = some conn) (n : Int) :
    (u.addCounts ptr n).conns[ptr]? = some { conn with counts := conn.counts + n } := by
  rw [addCounts, List.getElem?_modify, h]
  simp only [if_true, Option.map_eq_map, Option.map_some]

theorem addCounts_other {u : UwsClient} {ptr ptr' : Nat} (h : ptr' ≠ ptr) (n : Int) :
    (u.addCounts ptr n).conns[ptr']? = u.conns[ptr']? := by
  rw [addCounts, List.getElem?_modify]
  simp only [if_neg (Ne.symm h), Option.map_eq_map, Option.map_id']

/-- Two entries of `allWsMap` do not share a connection. -/
theorem Inv.ws_unique {u : UwsClient} (hInv : u.Inv) {ws ws' : Ws} {ptr : Nat}
    (h : u.allWsMap.lookup ws = some (some ptr)) (h' : u.allWsMap.lookup ws' = some (some ptr)) :
    ws = ws' := by
  obtain ⟨_, hPtr, hAt⟩ := hInv.allWs ws _ h
  obtain ⟨_, hPtr', hAt'⟩ := hInv.allWs ws' _ h'
  cases hPtr
  cases hPtr'
  exact Option.some.inj (hAt.symm.trans hAt')

/-! ### One element -/

/-- What an element of a subscription changes. -/
theorem subTake_eq {u : UwsClient} {ptr : Nat} {conn : WsConnections} {info : Json} {symbol : String}
    (hConn : u.conns[ptr]? = some conn) (hKey : info.entryKey = some symbol) :
    u.subTake ptr info = some { u.addCounts ptr 1 with
      symbol2conMap := u.symbol2conMap.insert symbol (some ptr)
      con2symbolMap := u.con2symbolMap.insert conn.ws ((u.symbolsOf conn.ws).insert symbol) } := by
  simp only [subTake, hConn, hKey, Option.bind_eq_bind, Option.bind_some]

/-- **An element of a subscription** on a connection with a place for it. -/
theorem Alloc.subTake {u : UwsClient} (hAlloc : u.Alloc) {ws : Ws} {ptr : Nat} {conn : WsConnections}
    {info : Json} {symbol : String} (hStored : u.allWsMap.lookup ws = some (some ptr))
    (hConn : u.conns[ptr]? = some conn) (hRoom : conn.counts < perWsCodeNums)
    (hKey : info.entryKey = some symbol) (hNew : symbol ∉ u.symbol2conMap) :
    ∃ u', u.subTake ptr info = some u' ∧ u'.Alloc ∧
      u'.conns[ptr]? = some { conn with counts := conn.counts + 1 } ∧
      (∀ ptr' ≠ ptr, u'.conns[ptr']? = u.conns[ptr']?) ∧
      u'.symbol2conMap = u.symbol2conMap.insert symbol (some ptr) := by
  have hTake := subTake_eq hConn hKey
  refine ⟨_, hTake, ?_, addCounts_same hConn 1, fun ptr' hNe => addCounts_other hNe 1, rfl⟩
  have hKept := subTake_kept hTake
  obtain ⟨_, hPtr, hAt⟩ := hAlloc.inv.allWs ws _ hStored
  cases hPtr
  have hWs : conn.ws = ws := by
    rw [wsAt, hConn] at hAt
    exact Option.some.inj hAt
  have hNone := AList.lookup_eq_none.mpr hNew
  refine ⟨hAlloc.inv.subTake hAt hStored hTake, hAlloc.allOpen, ?_⟩
  intro ws' ptr' conn' hStored' hConn'
  have hSymbols : ∀ symbols : List String,
      symbolsOf { u.addCounts ptr 1 with
        symbol2conMap := u.symbol2conMap.insert symbol (some ptr)
        con2symbolMap := u.con2symbolMap.insert conn.ws symbols } ws' =
      if ws' = conn.ws then symbols else u.symbolsOf ws' := fun symbols => symbolsOf_insert u conn.ws ws' symbols
  rw [hSymbols]
  dsimp only at hStored' hConn' ⊢
  by_cases hSame : ws' = ws
  · subst hSame
    cases hStored.symm.trans hStored'
    obtain ⟨hCounts, -, hNodup, hMem⟩ := hAlloc.holds ws' ptr conn hStored hConn
    have hNotIn : symbol ∉ u.symbolsOf ws' := by
      rw [hMem, hNone]
      exact (Option.some_ne_none _).symm
    rw [addCounts_same hConn] at hConn'
    cases hConn'
    rw [if_pos hWs.symm, hWs, List.length_insert_of_not_mem hNotIn]
    dsimp only
    refine ⟨by push_cast; omega, by omega, hNodup.insert, fun symbol' => ?_⟩
    rw [List.mem_insert_iff]
    by_cases hSymbol : symbol' = symbol
    · rw [hSymbol, AList.lookup_insert]
      exact iff_of_true (.inl rfl) rfl
    · rw [AList.lookup_insert_ne hSymbol, hMem, or_iff_right hSymbol]
  · have hNe : ptr' ≠ ptr := by
      rintro rfl
      exact hSame (hAlloc.inv.ws_unique hStored' hStored)
    rw [addCounts_other hNe] at hConn'
    obtain ⟨hCounts, hMax, hNodup, hMem⟩ := hAlloc.holds ws' ptr' conn' hStored' hConn'
    rw [if_neg (by rw [hWs]; exact hSame)]
    refine ⟨hCounts, hMax, hNodup, fun symbol' => ?_⟩
    rw [hMem]
    by_cases hSymbol : symbol' = symbol
    · rw [hSymbol, AList.lookup_insert, hNone]
      refine iff_of_false (Option.some_ne_none _).symm fun hPtr => hNe ?_
      exact (Option.some.inj (Option.some.inj hPtr)).symm
    · rw [AList.lookup_insert_ne hSymbol]

/-- **An element of the end of a subscription**, which is read before its entry is erased. -/
theorem Alloc.unsubTake {u : UwsClient} (hAlloc : u.Alloc) (reqid : Int) {info : Json} {symbol : String}
    (hKey : info.entryKey = some symbol) :
    ∃ u' out, u.unsubTake id (some reqid) (some info) = some (u', out) ∧ u'.Alloc := by
  rcases hCon : u.symbol2conMap.lookup symbol with _ | con
  · refine ⟨u, [], ?_, hAlloc⟩
    simp only [UwsClient.unsubTake, hKey, Option.bind_eq_bind, Option.bind_some, hCon]
  obtain ⟨ptr, ws, rfl, hAt, hStored, hIn⟩ := hAlloc.inv.symbols symbol con hCon
  obtain ⟨conn, hConn, rfl⟩ := conn_at hAt
  obtain ⟨symbols, hSymbols⟩ : ∃ symbols, u.con2symbolMap.lookup conn.ws = some symbols := by
    rcases hLookup : u.con2symbolMap.lookup conn.ws with _ | symbols
    · rw [symbolsOf, hLookup] at hIn
      exact absurd hIn List.not_mem_nil
    · exact ⟨symbols, rfl⟩
  have hOf : u.symbolsOf conn.ws = symbols := by
    rw [symbolsOf, hSymbols]
    rfl
  have hTake : u.unsubTake id (some reqid) (some info) = some ({ u.addCounts ptr (-1) with
      symbol2conMap := u.symbol2conMap.erase symbol
      con2symbolMap := u.con2symbolMap.insert conn.ws (symbols.erase symbol) },
        u.sendTo conn.ws (subMsg 201 reqid [info])) := by
    simp only [UwsClient.unsubTake, hKey, Option.bind_eq_bind, Option.bind_some, hCon, hConn, id_eq, hSymbols]
  refine ⟨_, _, hTake, hAlloc.inv.unsubTake hTake, hAlloc.allOpen, ?_⟩
  intro ws' ptr' conn' hStored' hConn'
  have hSymbolsOf : symbolsOf { u.addCounts ptr (-1) with
        symbol2conMap := u.symbol2conMap.erase symbol
        con2symbolMap := u.con2symbolMap.insert conn.ws (symbols.erase symbol) } ws' =
      if ws' = conn.ws then symbols.erase symbol else u.symbolsOf ws' :=
    symbolsOf_insert u conn.ws ws' (symbols.erase symbol)
  rw [hSymbolsOf]
  dsimp only at hStored' hConn' ⊢
  by_cases hSame : ws' = conn.ws
  · subst hSame
    cases hStored.symm.trans hStored'
    obtain ⟨hCounts, hMax, hNodup, hMem⟩ := hAlloc.holds conn.ws ptr conn hStored hConn
    rw [addCounts_same hConn] at hConn'
    cases hConn'
    rw [hOf] at hCounts hNodup hMem hIn
    have hPos : 0 < symbols.length := List.length_pos_of_mem hIn
    rw [if_pos rfl, List.length_erase_of_mem hIn]
    dsimp only
    refine ⟨by omega, by omega, hNodup.erase symbol, fun symbol' => ?_⟩
    rw [hNodup.mem_erase_iff]
    by_cases hSymbol : symbol' = symbol
    · rw [hSymbol, AList.lookup_erase]
      exact iff_of_false (fun h => h.1 rfl) (Option.some_ne_none _).symm
    · rw [AList.lookup_erase_ne hSymbol, hMem, and_iff_right hSymbol]
  · have hNe : ptr' ≠ ptr := by
      rintro rfl
      exact hSame (hAlloc.inv.ws_unique hStored' hStored)
    rw [addCounts_other hNe] at hConn'
    obtain ⟨hCounts, hMax, hNodup, hMem⟩ := hAlloc.holds ws' ptr' conn' hStored' hConn'
    rw [if_neg hSame]
    refine ⟨hCounts, hMax, hNodup, fun symbol' => ?_⟩
    rw [hMem]
    by_cases hSymbol : symbol' = symbol
    · rw [hSymbol, AList.lookup_erase, hCon]
      refine iff_of_false (fun hPtr => hNe ?_) (Option.some_ne_none _).symm
      exact (Option.some.inj (Option.some.inj hPtr)).symm
    · rw [AList.lookup_erase_ne hSymbol]

/-! ### The elements that a connection takes -/

/-- A connection has been given symbols, and nothing else has changed. -/
structure Given (u u' : UwsClient) (ptr : Nat) (keys : List String) : Prop where
  counts : ∀ conn, u.conns[ptr]? = some conn →
    u'.conns[ptr]? = some { conn with counts := conn.counts + keys.length }
  others : ∀ ptr' ≠ ptr, u'.conns[ptr']? = u.conns[ptr']?
  symbols : ∀ symbol, u'.symbol2conMap.lookup symbol =
    if symbol ∈ keys then some (some ptr) else u.symbol2conMap.lookup symbol

theorem Given.nil (u : UwsClient) (ptr : Nat) : Given u u ptr [] := by
  refine ⟨fun conn hConn => ?_, fun _ _ => rfl, fun symbol => ?_⟩
  · rw [hConn, List.length_nil, Int.natCast_zero, Int.add_zero]
  · rw [if_neg List.not_mem_nil]

theorem Given.not_mem {u u' : UwsClient} {ptr : Nat} {keys : List String} (h : Given u u' ptr keys)
    {symbol : String} (hKeys : symbol ∉ keys) (hNew : symbol ∉ u.symbol2conMap) :
    symbol ∉ u'.symbol2conMap := by
  rw [← AList.lookup_eq_none, h.symbols, if_neg hKeys]
  exact AList.lookup_eq_none.mpr hNew

/-- The elements, the keys of which are new and different. -/
structure Fresh (u : UwsClient) (items : List Json) (keys : List String) : Prop where
  read : items.map Json.entryKey = keys.map some
  nodup : keys.Nodup
  new : ∀ k ∈ keys, k ∉ u.symbol2conMap

theorem Alloc.subTakes {items : List Json} {u : UwsClient} (hAlloc : u.Alloc) {ws : Ws} {ptr : Nat}
    {conn : WsConnections} {keys : List String} (hStored : u.allWsMap.lookup ws = some (some ptr))
    (hConn : u.conns[ptr]? = some conn) (hRoom : conn.counts + keys.length ≤ perWsCodeNums)
    (hFresh : u.Fresh items keys) :
    ∃ u', UwsClient.subTakes ptr (items.map some) u = some (u', items) ∧ u'.Alloc ∧ Given u u' ptr keys := by
  induction items generalizing u conn keys with
  | nil =>
    obtain rfl : keys = [] := List.map_eq_nil_iff.mp hFresh.read.symm
    exact ⟨u, rfl, hAlloc, .nil u ptr⟩
  | cons info items ih =>
    cases keys with
    | nil => exact absurd hFresh.read (by simp)
    | cons key keys =>
      obtain ⟨hKey, hKeys⟩ := List.cons.inj hFresh.read
      obtain ⟨hNotIn, hNodup⟩ := List.nodup_cons.mp hFresh.nodup
      rw [List.length_cons, Int.natCast_add, Int.natCast_one] at hRoom
      obtain ⟨u₁, hTake, hAlloc₁, hConn₁, hOthers₁, hMap₁⟩ := hAlloc.subTake hStored hConn (by omega) hKey
        (hFresh.new key List.mem_cons_self)
      have hStored₁ : u₁.allWsMap.lookup ws = some (some ptr) := (subTake_kept hTake).allWsMap ▸ hStored
      have hFresh₁ : u₁.Fresh items keys := by
        refine ⟨hKeys, hNodup, fun k hk => ?_⟩
        rw [hMap₁, AList.mem_insert]
        rintro (rfl | hOld)
        · exact hNotIn hk
        · exact hFresh.new k (List.mem_cons_of_mem _ hk) hOld
      obtain ⟨u', hTakes, hAlloc', hGiven⟩ := ih hAlloc₁ hStored₁ hConn₁ (by dsimp only; omega) hFresh₁
      refine ⟨u', ?_, hAlloc', ?_, ?_, fun symbol => ?_⟩
      · simp only [List.map_cons, UwsClient.subTakes, Option.bind_eq_bind, Option.bind_some, hTake, hTakes]
      · intro conn' hConn'
        cases hConn.symm.trans hConn'
        rw [hGiven.counts _ hConn₁, List.length_cons, Int.natCast_add, Int.natCast_one]
        dsimp only
        rw [Int.add_assoc, Int.add_comm 1]
      · exact fun ptr' hNe => (hGiven.others ptr' hNe).trans (hOthers₁ ptr' hNe)
      · rw [hGiven.symbols, hMap₁]
        by_cases hSymbol : symbol = key
        · rw [hSymbol, if_neg hNotIn, AList.lookup_insert, if_pos List.mem_cons_self]
        · rw [AList.lookup_insert_ne hSymbol]
          simp only [List.mem_cons, hSymbol, false_or]

/-! ### The connections in their order -/

end UwsClient

/-- The symbols that a message names. -/
def Written.symbols (w : Written) : List String :=
  match w.msg.get "data" with
  | some (.arr items) => items.filterMap Json.entryKey
  | _ => []

namespace UwsClient

theorem symbols_subMsg {items : List Json} {keys : List String}
    (h : items.map Json.entryKey = keys.map some) (ws : Ws) (reqtype : Int) (reqid : Option Int) :
    (⟨ws, subMsg reqtype reqid items⟩ : Written).symbols = keys := by
  calc items.filterMap Json.entryKey = (items.map Json.entryKey).filterMap id :=
        (List.filterMap_map (f := Json.entryKey) (g := id)).symm
    _ = (keys.map some).filterMap id := by rw [h]
    _ = keys := List.filterMap_map.trans List.filterMap_some

theorem Fresh.take {u : UwsClient} {items : List Json} {keys : List String} (h : u.Fresh items keys) (n : Nat) :
    u.Fresh (items.take n) (keys.take n) := by
  refine ⟨?_, h.nodup.sublist (List.take_sublist n keys), fun k hk => h.new k (List.mem_of_mem_take hk)⟩
  rw [List.map_take, h.read, List.map_take]

theorem Fresh.length_eq {u : UwsClient} {items : List Json} {keys : List String} (h : u.Fresh items keys) :
    items.length = keys.length := by
  rw [← List.length_map Json.entryKey, h.read, List.length_map]

theorem places_eq {u : UwsClient} {ptr : Nat} {conn : WsConnections} (h : u.conns[ptr]? = some conn) :
    u.places (some ptr) = (perWsCodeNums - conn.counts).toNat := by
  unfold places
  rw [Option.bind_some, h]

/-- **A connection** takes as many of the elements as it has places for, in one message. -/
theorem Alloc.subOn {u : UwsClient} (hAlloc : u.Alloc) {ws : Ws} {ptr : Nat} (reqid : Int)
    {items : List Json} {keys : List String} (hStored : u.allWsMap.lookup ws = some (some ptr))
    (hFresh : u.Fresh items keys) :
    ∃ u' out, u.subOn (some reqid) (some ptr) (items.map some) =
        some (u', out, (items.drop (u.places (some ptr))).map some) ∧ u'.Alloc ∧
      Given u u' ptr (keys.take (u.places (some ptr))) ∧
      out.flatMap Written.symbols = keys.take (u.places (some ptr)) ∧
      ∀ w ∈ out, w.ws = ws ∧ ∃ data, w.msg = subMsg 200 (some reqid) data := by
  obtain ⟨_, hPtr, hAt⟩ := hAlloc.inv.allWs ws _ hStored
  cases hPtr
  obtain ⟨conn, hConn, rfl⟩ := conn_at hAt
  rw [places_eq hConn]
  by_cases hFull : perWsCodeNums - conn.counts ≤ 0
  · refine ⟨u, [], ?_, hAlloc, ?_, ?_, fun w hw => absurd hw List.not_mem_nil⟩
    · simp only [UwsClient.subOn, Option.bind_eq_bind, Option.bind_some, hConn, if_pos hFull,
        Int.toNat_of_nonpos hFull, List.drop_zero]
    · rw [Int.toNat_of_nonpos hFull, List.take_zero]
      exact .nil u ptr
    · rw [Int.toNat_of_nonpos hFull, List.take_zero]
      rfl
  generalize hPlaces : (perWsCodeNums - conn.counts).toNat = places
  have hSet : Alloc { u with subReqid := some reqid } :=
    ⟨⟨hAlloc.inv.allWs, hAlloc.inv.symbols, hAlloc.inv.dropped⟩, hAlloc.allOpen, hAlloc.holds⟩
  have hFreshSet : Fresh { u with subReqid := some reqid } (items.take places) (keys.take places) :=
    ⟨(hFresh.take places).read, (hFresh.take places).nodup, (hFresh.take places).new⟩
  obtain ⟨u', hTakes, hAlloc', hGiven⟩ := hSet.subTakes hStored hConn
    (by rw [List.length_take]; omega) hFreshSet
  have hOpen : conn.ws ∈ u'.openWs := by
    rw [(subTakes_kept hTakes).openWs]
    exact hAlloc.allOpen conn.ws (AList.lookup_isSome.mp (Option.isSome_iff_exists.mpr ⟨_, hStored⟩))
  refine ⟨u', [⟨conn.ws, subMsg 200 (some reqid) (items.take places)⟩], ?_, hAlloc', ⟨hGiven.counts,
    hGiven.others, hGiven.symbols⟩, ?_, ?_⟩
  · simp only [UwsClient.subOn, Option.bind_eq_bind, Option.bind_some, hConn, if_neg hFull, hPlaces,
      ← List.map_take, ← List.map_drop, hTakes, sendTo_open hOpen]
  · rw [List.flatMap_singleton]
    exact symbols_subMsg (hFresh.take places).read conn.ws 200 (some reqid)
  · intro w hw
    rw [List.mem_singleton.mp hw]
    exact ⟨rfl, _, rfl⟩

theorem placesOn_cons (u : UwsClient) (it : Σ _ : Ws, Option Nat) (its : List (Σ _ : Ws, Option Nat)) :
    u.placesOn (it :: its) = u.places it.2 + u.placesOn its := by
  rw [placesOn, List.map_cons, List.sum_cons]
  rfl

/-- What is given to one connection leaves the places of the others. -/
theorem Given.placesOn_eq {u u' : UwsClient} {ptr : Nat} {keys : List String} (h : Given u u' ptr keys)
    {its : List (Σ _ : Ws, Option Nat)} (hOther : ∀ it ∈ its, it.2 ≠ some ptr) :
    u'.placesOn its = u.placesOn its := by
  rw [placesOn, placesOn]
  congr 1
  apply List.map_congr_left
  intro it hIt
  unfold places
  rcases hCon : it.2 with _ | ptr'
  · rfl
  · have hNe : ptr' ≠ ptr := by
      rintro rfl
      exact hOther it hIt hCon
    rw [Option.bind_some, Option.bind_some, h.others ptr' hNe]

theorem wsOf_congr {u u' : UwsClient} {symbol : String} (hAt : u'.wsAt = u.wsAt)
    (h : u'.symbol2conMap.lookup symbol = u.symbol2conMap.lookup symbol) : u'.wsOf symbol = u.wsOf symbol := by
  rw [wsOf, wsOf, hAt, h]

/-- What a subscription with `keys` does, when the connections it is offered have so many `places`. -/
structure Spread (u u' : UwsClient) (reqid : Int) (keys : List String) (places : Nat) (out : List Written) :
    Prop where
  named : out.flatMap Written.symbols = keys.take places
  written : ∀ w ∈ out, w.ws ∈ u.allWsMap ∧ ∃ data, w.msg = subMsg 200 (some reqid) data
  stored : ∀ w ∈ out, ∀ symbol ∈ w.symbols, u'.wsOf symbol = some w.ws
  others : ∀ symbol, symbol ∉ keys.take places →
    u'.symbol2conMap.lookup symbol = u.symbol2conMap.lookup symbol

/-- A connection that takes what it has places for, and then the others. -/
theorem Spread.cons {u u₁ u' : UwsClient} {reqid : Int} {keys : List String} {here rest : Nat} {ws : Ws}
    {ptr : Nat} {out₁ out₂ : List Written} (hSpread : Spread u₁ u' reqid (keys.drop here) rest out₂)
    (hGiven : Given u u₁ ptr (keys.take here)) (hNamed : out₁.flatMap Written.symbols = keys.take here)
    (hWritten : ∀ w ∈ out₁, w.ws = ws ∧ ∃ data, w.msg = subMsg 200 (some reqid) data)
    (hStored : u.allWsMap.lookup ws = some (some ptr)) (hAt : u.wsAt ptr = some ws) (hNodup : keys.Nodup)
    (hKept : Kept u u₁) (hKeptRest : Kept u₁ u') :
    Spread u u' reqid keys (here + rest) (out₁ ++ out₂) := by
  constructor
  · rw [List.flatMap_append, hNamed, hSpread.named, List.take_add]
  · intro w hw
    rcases List.mem_append.mp hw with hw | hw
    · obtain ⟨hWs, hMsg⟩ := hWritten w hw
      refine ⟨?_, hMsg⟩
      rw [hWs]
      exact AList.lookup_isSome.mp (Option.isSome_iff_exists.mpr ⟨_, hStored⟩)
    · rw [← hKept.allWsMap]
      exact hSpread.written w hw
  · intro w hw symbol hSymbol
    rcases List.mem_append.mp hw with hw | hw
    · have hTake : symbol ∈ keys.take here := by
        rw [← hNamed]
        exact List.mem_flatMap_of_mem hw hSymbol
      have hLater : symbol ∉ (keys.drop here).take rest := fun hIn =>
        List.disjoint_take_drop hNodup (Nat.le_refl here) hTake (List.mem_of_mem_take hIn)
      rw [wsOf_congr hKeptRest.wsAt (hSpread.others symbol hLater), wsOf, hGiven.symbols, if_pos hTake,
        hKept.wsAt, (hWritten w hw).1]
      exact hAt
    · exact hSpread.stored w hw symbol hSymbol
  · intro symbol hSymbol
    rw [List.take_add, List.mem_append, not_or] at hSymbol
    rw [hSpread.others symbol hSymbol.2, hGiven.symbols, if_neg hSymbol.1]

theorem Fresh.drop {u u₁ : UwsClient} {ptr here : Nat} {items : List Json} {keys : List String}
    (h : u.Fresh items keys) (hGiven : Given u u₁ ptr (keys.take here)) :
    u₁.Fresh (items.drop here) (keys.drop here) := by
  refine ⟨?_, h.nodup.sublist (List.drop_sublist here keys), fun k hk => ?_⟩
  · rw [List.map_drop, h.read, List.map_drop]
  · refine hGiven.not_mem ?_ (h.new k (List.mem_of_mem_drop hk))
    exact fun hTake => List.disjoint_take_drop h.nodup (Nat.le_refl here) hTake hk

/-- **The connections in their order** take the elements that they have places for, from the first on. -/
theorem Alloc.subLoop {its : List (Σ _ : Ws, Option Nat)} {u : UwsClient} (hAlloc : u.Alloc) (reqid : Int)
    {items : List Json} {keys : List String} (hIts : ∀ it ∈ its, u.allWsMap.lookup it.1 = some it.2)
    (hDistinct : (its.map Sigma.fst).Nodup) (hFresh : u.Fresh items keys) :
    ∃ u' out, u.subLoop (some reqid) its (items.map some) =
        some (u', out, (items.drop (u.placesOn its)).map some) ∧ u'.Alloc ∧
      Spread u u' reqid keys (u.placesOn its) out := by
  induction its generalizing u items keys with
  | nil =>
    refine ⟨u, [], rfl, hAlloc, rfl, fun w hw => absurd hw List.not_mem_nil,
      fun w hw => absurd hw List.not_mem_nil, fun _ _ => rfl⟩
  | cons it its ih =>
    cases items with
    | nil =>
      obtain rfl : keys = [] := List.map_eq_nil_iff.mp hFresh.read.symm
      refine ⟨u, [], ?_, hAlloc, List.take_nil.symm, fun w hw => absurd hw List.not_mem_nil,
        fun w hw => absurd hw List.not_mem_nil, fun _ _ => rfl⟩
      rw [List.drop_nil]
      exact subLoop_nil _ _ _
    | cons info items =>
      obtain ⟨ws, con⟩ := it
      have hStored : u.allWsMap.lookup ws = some con := hIts _ List.mem_cons_self
      obtain ⟨ptr, rfl, hAt⟩ := hAlloc.inv.allWs ws con hStored
      obtain ⟨hNotIn, hDistinctRest⟩ := List.nodup_cons.mp hDistinct
      obtain ⟨u₁, out₁, hOn, hAlloc₁, hGiven, hNamed, hWritten⟩ :=
        hAlloc.subOn reqid hStored hFresh
      have hKept := subOn_kept hOn
      have hOther : ∀ it ∈ its, it.2 ≠ some ptr := by
        intro it hIt hCon
        have hStoredIt := hIts it (List.mem_cons_of_mem _ hIt)
        rw [hCon] at hStoredIt
        have hIn : it.1 ∈ its.map Sigma.fst := List.mem_map_of_mem hIt
        exact hNotIn (hAlloc.inv.ws_unique hStoredIt hStored ▸ hIn)
      generalize hPlaces : u.places (some ptr) = here at hOn hGiven hNamed
      obtain ⟨u', out₂, hRest, hAlloc', hSpread⟩ := ih hAlloc₁
        (fun it hIt => by rw [hKept.allWsMap]; exact hIts it (List.mem_cons_of_mem _ hIt))
        hDistinctRest (hFresh.drop hGiven)
      have hWhole : u.placesOn (⟨ws, some ptr⟩ :: its) = here + u.placesOn its := by
        rw [placesOn_cons, hPlaces]
      rw [hGiven.placesOn_eq hOther] at hRest hSpread
      rw [hWhole]
      refine ⟨u', out₁ ++ out₂, ?_, hAlloc', hSpread.cons hGiven hNamed hWritten hStored hAt hFresh.nodup hKept
        (subLoop_kept hRest)⟩
      rw [UwsClient.subLoop, if_neg (by simp), ← List.drop_drop]
      simp only [Option.bind_eq_bind, Option.bind_some, hOn, hRest]

/-! ### Requests -/

end UwsClient

/-- A request of a type and an id, with elements and their keys. -/
structure Lists (reqJson : Json) (reqtype reqid : Int) (items : List Json) (keys : List String) : Prop where
  type : reqJson.getInt "reqtype" = some reqtype
  reqid : reqJson.getInt "reqid" = some reqid
  data : reqJson.get "data" = some (.arr items)
  read : items.map Json.entryKey = keys.map some

/-- What `ConvertService` sends. -/
theorem lists_requestJson {reqtype reqid : Int} (hType : IsInt reqtype) (hReqid : IsInt reqid) (session : String)
    (es : List SubEntry) : Lists (requestJson reqtype reqid session (.arr (es.map SubEntry.json))) reqtype reqid
      (es.map SubEntry.json) (es.map SubEntry.key) := by
  refine ⟨requestJson_reqtype hType, requestJson_reqid hReqid, requestJson_data, ?_⟩
  rw [List.map_map, List.map_map]
  exact List.map_congr_left fun e _ => e.entryKey_json

namespace UwsClient

theorem Alloc.unsubLoop {items : List Json} {u : UwsClient} (hAlloc : u.Alloc) (reqid : Int)
    {keys : List String} (hRead : items.map Json.entryKey = keys.map some) :
    ∃ u' out, u.unsubLoop id (some reqid) (items.map some) = some (u', out) ∧ u'.Alloc := by
  induction items generalizing u keys with
  | nil => exact ⟨u, [], rfl, hAlloc⟩
  | cons info items ih =>
    cases keys with
    | nil => exact absurd hRead (by simp)
    | cons key keys =>
      obtain ⟨hKey, hKeys⟩ := List.cons.inj hRead
      obtain ⟨u₁, out₁, hTake, hAlloc₁⟩ := hAlloc.unsubTake reqid hKey
      obtain ⟨u', out₂, hRest, hAlloc'⟩ := ih hAlloc₁ hKeys
      refine ⟨u', out₁ ++ out₂, ?_, hAlloc'⟩
      simp only [List.map_cons, UwsClient.unsubLoop, Option.bind_eq_bind, Option.bind_some, hTake, hRest]

/-- The end of a subscription. -/
theorem Alloc.sendReq_unsub {u : UwsClient} (hAlloc : u.Alloc) {reqJson : Json} {reqid : Int}
    {items : List Json} {keys : List String} (hLists : Lists reqJson 201 reqid items keys) :
    ∃ u' out, u.sendReq id reqJson = some (u', out, none) ∧ u'.Alloc := by
  obtain ⟨u', out, hLoop, hAlloc'⟩ := hAlloc.unsubLoop reqid hLists.read
  refine ⟨u', out, ?_, hAlloc'⟩
  simp only [sendReq, hLists.type, hLists.reqid, hLists.data, Json.items_arr, Option.bind_eq_bind,
    Option.bind_some, hLoop, Int.reduceEq, if_false, if_true]

/-- **A subscription** to new symbols. -/
theorem Alloc.sendReq_sub {u : UwsClient} (hAlloc : u.Alloc) {reqJson : Json} {reqid : Int}
    {items : List Json} {keys : List String} (hLists : Lists reqJson 200 reqid items keys)
    (hNodup : keys.Nodup) (hNew : ∀ k ∈ keys, k ∉ u.symbol2conMap) :
    ∃ u' out, u.sendReq id reqJson =
        some (u', out, some (if keys.length ≤ u.freePlaces then 0 else -1)) ∧ u'.Alloc ∧
      Spread u u' reqid keys u.freePlaces out := by
  have hFresh : u.Fresh items keys := ⟨hLists.read, hNodup, hNew⟩
  obtain ⟨u', out, hLoop, hAlloc', hSpread⟩ := hAlloc.subLoop reqid
    (fun it hIt => AList.mem_lookup_iff.mpr hIt) u.allWsMap.nodupKeys hFresh
  refine ⟨u', out, ?_, hAlloc', hSpread⟩
  have hAll : ((items.drop u.freePlaces).map some).isEmpty = decide (keys.length ≤ u.freePlaces) := by
    rw [List.isEmpty_map, ← hFresh.length_eq, Bool.eq_iff_iff, List.isEmpty_iff, List.drop_eq_nil_iff,
      decide_eq_true_iff]
  rw [← freePlaces] at hLoop
  simp only [sendReq, hLists.type, hLists.reqid, hLists.data, Json.items_arr, Option.bind_eq_bind,
    Option.bind_some, if_true, hLoop, hAll, decide_eq_true_iff]

/-- A subscription to new and different symbols, or the end of one. -/
def Asked (u : UwsClient) (reqJson : Json) : Prop :=
  ∃ reqid items keys,
    (Lists reqJson 200 reqid items keys ∧ keys.Nodup ∧ ∀ k ∈ keys, k ∉ u.symbol2conMap) ∨
      Lists reqJson 201 reqid items keys

theorem Alloc.step {u : UwsClient} (hAlloc : u.Alloc) {reqJson : Json} (hAsked : u.Asked reqJson) :
    ∃ u' out, u.sendReq id reqJson = some (u', out) ∧ u'.Alloc := by
  obtain ⟨reqid, items, keys, ⟨hLists, hNodup, hNew⟩ | hLists⟩ := hAsked
  · obtain ⟨u', out, hSend, hAlloc', -⟩ := hAlloc.sendReq_sub hLists hNodup hNew
    exact ⟨u', _, hSend, hAlloc'⟩
  · obtain ⟨u', out, hSend, hAlloc'⟩ := hAlloc.sendReq_unsub hLists
    exact ⟨u', _, hSend, hAlloc'⟩

/-! ### From the first connections on -/

/-- Open connections that hold nothing. -/
structure Idle (u : UwsClient) : Prop where
  inv : u.Inv
  allOpen : u.AllOpen
  counts : ∀ conn ∈ u.conns, conn.counts = 0
  symbols : u.symbol2conMap = ∅
  held : u.con2symbolMap = ∅

theorem Idle.alloc {u : UwsClient} (h : u.Idle) : u.Alloc := by
  refine ⟨h.inv, h.allOpen, fun ws ptr conn _ hConn => ?_⟩
  have hNone : u.symbolsOf ws = [] := by
    rw [symbolsOf, h.held]
    rfl
  rw [hNone, h.counts conn (List.mem_of_getElem? hConn), h.symbols]
  refine ⟨rfl, by decide, List.nodup_nil, fun symbol => iff_of_false List.not_mem_nil ?_⟩
  rw [AList.lookup_empty]
  exact (Option.some_ne_none _).symm

theorem Idle.empty : Idle {} :=
  ⟨.empty, fun _ hIn => absurd hIn (AList.notMem_empty _), fun _ hIn => absurd hIn List.not_mem_nil, rfl, rfl⟩

/-- The hub makes another connection. -/
theorem Idle.connection {freed : Ws → Ws} {u u' : UwsClient} {ws : Ws} {out : List Written} (h : u.Idle)
    (hQue : u.disconWsQue = []) (hStep : u.step freed (.connection ws) = some (u', out)) : u'.Idle := by
  have hReplaces : u.ReplacesIdle (.connection ws) := by
    intro disWs hHead
    rw [hQue] at hHead
    cases hHead
  have hInv := h.inv.step hReplaces hStep
  obtain ⟨-, rfl⟩ := step_connection hStep
  rcases Option.eq_none_or_eq_some u.queryWs with hQuery | ⟨queryWs, hQuery⟩
  · rw [onConnection_query (u := { u with openWs := ws :: u.openWs }) hQue hQuery] at hInv ⊢
    exact ⟨hInv, fun ws' hIn => List.mem_cons_of_mem _ (h.allOpen ws' hIn), h.counts, h.symbols, h.held⟩
  · rw [onConnection_first (u := { u with openWs := ws :: u.openWs }) hQue hQuery] at hInv ⊢
    refine ⟨hInv, fun ws' hIn => ?_, ?_, h.symbols, h.held⟩
    · dsimp only [UwsClient.insertWs, Map.emplace] at hIn ⊢
      split at hIn
      · exact List.mem_cons_of_mem _ (h.allOpen ws' hIn)
      · rcases (AList.mem_insert _).mp hIn with rfl | hOld
        · exact List.mem_cons_self
        · exact List.mem_cons_of_mem _ (h.allOpen ws' hOld)
    · intro conn hConn
      rcases List.mem_append.mp hConn with hOld | hNew
      · exact h.counts conn hOld
      · rw [List.mem_singleton.mp hNew]

theorem Idle.connections {freed : Ws → Ws} {wss : List Ws} {u u' : UwsClient} {outs : List (List Written)}
    (h : u.Idle) (hQue : u.disconWsQue = [])
    (hRun : Machine.run (step freed) u (wss.map .connection) = some (u', outs)) : u'.Idle := by
  induction wss generalizing u outs with
  | nil =>
    cases hRun
    exact h
  | cons ws wss ih =>
    obtain ⟨u₁, out, outs', hStep, hRest, -⟩ := Machine.run_cons hRun
    refine ih (h.connection hQue hStep) ?_ hRest
    rw [(step_connection hStep).2]
    exact onConnection_que (u := { u with openWs := ws :: u.openWs }) hQue ws

/-- What every connection counts. -/
def Counted (u : UwsClient) : Prop :=
  ∀ ws ∈ u.allWsMap, ∃ ptr conn, u.allWsMap.lookup ws = some (some ptr) ∧ u.conns[ptr]? = some conn ∧
    conn.counts = (u.symbol2conMap.keys.filter fun symbol => u.wsOf symbol = some ws).length ∧
    conn.counts = (u.symbolsOf ws).length ∧ 0 ≤ conn.counts ∧ conn.counts ≤ perWsCodeNums ∧
    (u.symbolsOf ws).Nodup ∧ ∀ symbol, symbol ∈ u.symbolsOf ws ↔ u.wsOf symbol = some ws

theorem Alloc.counted {u : UwsClient} (hAlloc : u.Alloc) : u.Counted := by
  intro ws hIn
  obtain ⟨con, hStored⟩ := Option.isSome_iff_exists.mp (AList.lookup_isSome.mpr hIn)
  obtain ⟨ptr, rfl, hAt⟩ := hAlloc.inv.allWs ws con hStored
  obtain ⟨conn, hConn, rfl⟩ := conn_at hAt
  obtain ⟨hCounts, hMax, hNodup, hMem⟩ := hAlloc.holds conn.ws ptr conn hStored hConn
  have hHolds : ∀ symbol, symbol ∈ u.symbolsOf conn.ws ↔ u.wsOf symbol = some conn.ws := by
    intro symbol
    rw [hMem]
    constructor
    · intro hLookup
      rw [wsOf, hLookup]
      exact hAt
    · intro hWs
      rcases hLookup : u.symbol2conMap.lookup symbol with _ | con
      · rw [wsOf, hLookup] at hWs
        cases hWs
      · obtain ⟨ptr', ws', rfl, hAt', hStored', -⟩ := hAlloc.inv.symbols symbol con hLookup
        rw [wsOf, hLookup] at hWs
        obtain rfl : ws' = conn.ws := Option.some.inj (hAt'.symm.trans hWs)
        cases hStored.symm.trans hStored'
        rfl
  have hPerm : (u.symbol2conMap.keys.filter fun symbol => u.wsOf symbol = some conn.ws).Perm
      (u.symbolsOf conn.ws) := by
    refine (List.perm_ext_iff_of_nodup (u.symbol2conMap.keys_nodup.filter _) hNodup).mpr fun symbol => ?_
    rw [List.mem_filter, decide_eq_true_iff, hHolds, and_iff_right_iff_imp]
    intro hWs
    rw [← AList.mem_keys, ← AList.lookup_isSome]
    exact Option.isSome_iff_exists.mpr ⟨_, (hMem symbol).mp ((hHolds symbol).mpr hWs)⟩
  exact ⟨ptr, conn, hStored, hConn, by rw [hPerm.length_eq, hCounts], hCounts, by omega, hMax, hNodup, hHolds⟩

/-- **Allocation**: after any subscriptions to new symbols and ends of subscriptions, every connection
counts the symbols that are stored for it, which are those that it holds, and has no more than its
share; the next subscription stores the first of its symbols, as many as there are places, each for the
connection whose only message names it, and says whether these are all. -/
theorem sendReq_allocates {u₀ : UwsClient} (hIdle : u₀.Idle) {reqs : List Json}
    (hAsked : Machine.Along (sendReq id) Asked u₀ reqs) :
    ∃ u outs, Machine.run (sendReq id) u₀ reqs = some (u, outs) ∧ u.Counted ∧
      ∀ reqJson reqid items keys, Lists reqJson 200 reqid items keys → keys.Nodup →
        (∀ k ∈ keys, k ∉ u.symbol2conMap) → ∃ u' out, u.sendReq id reqJson =
            some (u', out, some (if keys.length ≤ u.freePlaces then 0 else -1)) ∧ u'.Counted ∧
          Spread u u' reqid keys u.freePlaces out := by
  obtain ⟨u, outs, hRun, hAlloc⟩ := Machine.run_returns (fun hAlloc hAsked => hAlloc.step hAsked)
    hIdle.alloc hAsked
  refine ⟨u, outs, hRun, hAlloc.counted, fun reqJson reqid items keys hLists hNodup hNew => ?_⟩
  obtain ⟨u', out, hSend, hAlloc', hSpread⟩ := hAlloc.sendReq_sub hLists hNodup hNew
  exact ⟨u', out, hSend, hAlloc'.counted, hSpread⟩

/-- One connection for subscriptions, and a symbol that comes and goes. -/
theorem sendReq_allocates_one : ∃ u₀ outs₀,
    Machine.run (step id) {} ([1, 2].map .connection) = some (u₀, outs₀) ∧
      ∃ u outs, Machine.run (sendReq id) u₀ [requestJson 200 7 "" (.arr [SubEntry.json ⟨1, 2, "HSI"⟩]),
          requestJson 201 8 "" (.arr [SubEntry.json ⟨1, 2, "HSI"⟩])] = some (u, outs) ∧ u.Counted ∧
        ∀ reqJson reqid items keys, Lists reqJson 200 reqid items keys → keys.Nodup →
          (∀ k ∈ keys, k ∉ u.symbol2conMap) → ∃ u' out, u.sendReq id reqJson =
              some (u', out, some (if keys.length ≤ u.freePlaces then 0 else -1)) ∧ u'.Counted ∧
            Spread u u' reqid keys u.freePlaces out := by
  obtain ⟨u₀, outs₀, hRun⟩ : ∃ u₀ outs₀, Machine.run (step id) {} ([1, 2].map .connection) = some (u₀, outs₀) :=
    ⟨_, _, rfl⟩
  have hIdle := Idle.empty.connections rfl hRun
  have hInt : ∀ n ∈ [7, 8, 200, 201], IsInt n := by
    unfold IsInt
    decide
  have hSub := lists_requestJson (hInt 200 (by decide)) (hInt 7 (by decide)) "" [⟨1, 2, "HSI"⟩]
  have hUnsub := lists_requestJson (hInt 201 (by decide)) (hInt 8 (by decide)) "" [⟨1, 2, "HSI"⟩]
  refine ⟨u₀, outs₀, hRun, sendReq_allocates hIdle ⟨⟨_, _, _, .inl ⟨hSub, by simp, fun k _ => ?_⟩⟩, fun _ _ _ =>
    ⟨⟨_, _, _, .inr hUnsub⟩, fun _ _ _ => trivial⟩⟩⟩
  rw [hIdle.symbols]
  exact AList.notMem_empty k

end UwsClient

end DemoCode.FeedProxy
