import DemoCode.FeedProxy.Runs

/-! The maps `m_type2ctxsMap` and `m_ctx2typeMap` as subscriptions: every callback does to them
what its actions do to the relation between connections and keys. -/

namespace DemoCode.FeedProxy

open PubSub (Act act acts)

/-- The connections of a key. -/
def ConvertService.ctxsOf (s : ConvertService) (key : String) : Map CContext (Option CContext) :=
  (s.type2ctxsMap.lookup key).getD ∅

/-- The keys in the list of a connection. -/
def ConvertService.keysOf (s : ConvertService) (conn : CContext) : List String :=
  (s.ctx2typeMap.lookup conn).getD []

/-- Which connection is subscribed to which key. -/
def ConvertService.subs (s : ConvertService) : Set (CContext × String) :=
  {p | p.1 ∈ s.ctxsOf p.2}

theorem ConvertService.mem_subs {s : ConvertService} {conn : CContext} {key : String} :
    (conn, key) ∈ s.subs ↔ conn ∈ s.ctxsOf key := Iff.rfl

/-- Every connection is kept under its own address, and the list of a connection names every key
that it is subscribed to. -/
structure ConvertService.Wf (s : ConvertService) : Prop where
  own : ∀ key conn value, (s.ctxsOf key).lookup conn = some value → value = some conn
  listed : ∀ conn key, (conn, key) ∈ s.subs → key ∈ s.keysOf conn

/-- The maps of the second state are those of the first after some actions. -/
def Follows (s s' : ConvertService) (as : List (Act CContext String)) : Prop :=
  s.Wf → s'.Wf ∧ s'.subs = acts s.subs as

theorem Follows.trans {s s' s'' : ConvertService} {as bs : List (Act CContext String)}
    (h : Follows s s' as) (h' : Follows s' s'' bs) : Follows s s'' (as ++ bs) := by
  intro hWf
  obtain ⟨hWf', hSubs⟩ := h hWf
  obtain ⟨hWf'', hSubs'⟩ := h' hWf'
  exact ⟨hWf'', by rw [hSubs', hSubs, PubSub.acts_append]⟩

theorem follows_of_ctxsOf {s s' : ConvertService} (hCtxs : s'.ctxsOf = s.ctxsOf)
    (hKeys : s'.keysOf = s.keysOf) : Follows s s' [] := by
  intro hWf
  have hSubs : s'.subs = s.subs := by
    unfold ConvertService.subs
    rw [hCtxs]
  refine ⟨⟨?_, ?_⟩, hSubs⟩
  · rw [hCtxs]
    exact hWf.own
  · rw [hSubs, hKeys]
    exact hWf.listed

theorem follows_of_maps {s s' : ConvertService} (hTypes : s'.type2ctxsMap = s.type2ctxsMap)
    (hKeys : s'.ctx2typeMap = s.ctx2typeMap) : Follows s s' [] :=
  follows_of_ctxsOf (by unfold ConvertService.ctxsOf; rw [hTypes])
    (by unfold ConvertService.keysOf; rw [hKeys])

/-! ### One key -/

theorem Map.mem_emplace {κ β : Type*} [DecidableEq κ] {m : Map κ β} {k k' : κ} {v : β} :
    k' ∈ Map.emplace m k v ↔ k' = k ∨ k' ∈ m := by
  unfold Map.emplace
  split
  · rename_i hMem
    constructor
    · exact .inr
    · rintro (rfl | h)
      · exact hMem
      · exact h
  · exact AList.mem_insert m

theorem Map.lookup_emplace {κ β : Type*} [DecidableEq κ] {m : Map κ β} {k k' : κ} {v w : β}
    (h : (Map.emplace m k v).lookup k' = some w) : m.lookup k' = some w ∨ (k' = k ∧ w = v) := by
  unfold Map.emplace at h
  split at h
  · exact .inl h
  · by_cases hKey : k' = k
    · rw [hKey, AList.lookup_insert, Option.some.injEq] at h
      exact .inr ⟨hKey, h.symm⟩
    · rw [AList.lookup_insert_ne hKey] at h
      exact .inl h

theorem Map.lookup_of_erase {κ β : Type*} [DecidableEq κ] {m : Map κ β} {k k' : κ} {v : β}
    (h : (m.erase k).lookup k' = some v) : m.lookup k' = some v := by
  by_cases hKey : k' = k
  · rw [hKey, AList.lookup_erase] at h
    cases h
  · rwa [AList.lookup_erase_ne hKey] at h

theorem Map.mem_empty_iff {κ β : Type*} {m : Map κ β} : m.entries = [] ↔ ∀ k, k ∉ m := by
  constructor
  · intro h k hk
    rw [AList.mem_keys, AList.keys, h] at hk
    cases hk
  · intro h
    rcases hEntries : m.entries with _ | ⟨⟨k, v⟩, rest⟩
    · rfl
    · refine absurd ?_ (h k)
      rw [AList.mem_keys, AList.keys, hEntries]
      exact List.mem_cons_self

/-- A change at one key, where a connection comes or goes, is an action. -/
theorem follows_at {s s' : ConvertService} {a : Act CContext String} (key : String)
    (hOther : ∀ key', key' ≠ key → s'.ctxsOf key' = s.ctxsOf key' ∧
      ∀ c, (c, key') ∈ act s.subs a ↔ (c, key') ∈ s.subs)
    (hMem : ∀ c, c ∈ s'.ctxsOf key ↔ (c, key) ∈ act s.subs a)
    (hOwn : ∀ c v, (s'.ctxsOf key).lookup c = some v →
      (s.ctxsOf key).lookup c = some v ∨ v = some c)
    (hListed : ∀ c k, (c, k) ∈ act s.subs a → (∀ k', (c, k') ∈ s.subs → k' ∈ s.keysOf c) →
      k ∈ s'.keysOf c) :
    Follows s s' [a] := by
  intro hWf
  have hSubs : s'.subs = act s.subs a := by
    ext ⟨c, k⟩
    rw [ConvertService.mem_subs]
    by_cases hKey : k = key
    · rw [hKey]
      exact hMem c
    · rw [(hOther k hKey).1, (hOther k hKey).2 c]
      rfl
  refine ⟨⟨?_, ?_⟩, hSubs⟩
  · intro k c v hLookup
    by_cases hKey : k = key
    · rw [hKey] at hLookup
      rcases hOwn c v hLookup with hOld | hNew
      · exact hWf.own key c v hOld
      · exact hNew
    · rw [(hOther k hKey).1] at hLookup
      exact hWf.own k c v hLookup
  · intro c k hIn
    rw [hSubs] at hIn
    exact hListed c k hIn (hWf.listed c)

theorem mem_act_of_ne {R : Set (CContext × String)} {conn c : CContext} {key key' : String}
    (hKey : key' ≠ key) : ((c, key') ∈ act R (.sub conn key) ↔ (c, key') ∈ R) ∧
      ((c, key') ∈ act R (.unsub conn key) ↔ (c, key') ∈ R) := by
  simp only [PubSub.mem_act, Act.Ends, Act.sub.injEq, reduceCtorEq]
  constructor
  · constructor
    · rintro (⟨-, rfl⟩ | h)
      · exact absurd rfl hKey
      · exact h.1
    · exact fun h => .inr ⟨h, not_false⟩
  · constructor
    · rintro (h | h)
      · exact h.elim
      · exact h.1
    · exact fun h => .inr ⟨h, fun hEq => hKey hEq.2.symm⟩

/-- The connections of a key after a map update at a key. -/
theorem ctxsOf_insert (s : ConvertService) (key key' : String)
    (ctxs : Map CContext (Option CContext)) :
    ((s.type2ctxsMap.insert key ctxs).lookup key').getD ∅ =
      if key' = key then ctxs else s.ctxsOf key' := by
  by_cases hKey : key' = key
  · rw [if_pos hKey, hKey, AList.lookup_insert, Option.getD_some]
  · rw [if_neg hKey, AList.lookup_insert_ne hKey]
    rfl

theorem subOne_follows (conn : CContext) (s : ConvertService) (e : SubEntry) :
    Follows s (subOne conn s e).1 [.sub conn e.key] := by
  have hCtxs : ∀ key', (subOne conn s e).1.ctxsOf key' =
      if key' = e.key then Map.emplace (s.ctxsOf e.key) conn (some conn) else s.ctxsOf key' :=
    fun key' => ctxsOf_insert s e.key key' _
  have hKeys : ∀ c, (subOne conn s e).1.keysOf c =
      if c = conn then s.keysOf conn ++ [e.key] else s.keysOf c := by
    intro c
    show ((s.ctx2typeMap.insert conn _).lookup c).getD [] = _
    by_cases hConn : c = conn
    · rw [if_pos hConn, hConn, AList.lookup_insert, Option.getD_some]
      rfl
    · rw [if_neg hConn, AList.lookup_insert_ne hConn]
      rfl
  apply follows_at e.key
  · intro key' hKey
    exact ⟨by rw [hCtxs, if_neg hKey], fun c => (mem_act_of_ne hKey).1⟩
  · intro c
    rw [hCtxs, if_pos rfl, Map.mem_emplace, PubSub.mem_act, ConvertService.mem_subs]
    simp [Act.Ends, eq_comm]
  · intro c v h
    rw [hCtxs, if_pos rfl] at h
    rcases Map.lookup_emplace h with h | ⟨rfl, rfl⟩
    · exact .inl h
    · exact .inr rfl
  · intro c k hIn hListed
    rw [hKeys]
    rcases PubSub.mem_act.mp hIn with hNew | ⟨hOld, -⟩
    · rw [Act.sub.injEq] at hNew
      rw [if_pos hNew.1.symm, ← hNew.2]
      simp
    · split
      · rename_i hConn
        rw [← hConn]
        exact List.mem_append_left _ (hListed k hOld)
      · exact hListed k hOld

/-- A connection is taken out of the connections of a key. -/
theorem follows_erase {s s' : ConvertService} {conn : CContext} {key : String}
    (hCtxs : ∀ key', s'.ctxsOf key' =
      if key' = key then (s.ctxsOf key).erase conn else s.ctxsOf key')
    (hKeys : s'.keysOf = s.keysOf) : Follows s s' [.unsub conn key] := by
  apply follows_at key
  · intro key' hKey
    exact ⟨by rw [hCtxs, if_neg hKey], fun c => (mem_act_of_ne hKey).2⟩
  · intro c
    rw [hCtxs, if_pos rfl, AList.mem_erase, PubSub.mem_act, ConvertService.mem_subs]
    simp [Act.Ends, eq_comm, and_comm]
  · intro c v h
    rw [hCtxs, if_pos rfl] at h
    exact .inl (Map.lookup_of_erase h)
  · intro c k hIn hListed
    rw [hKeys]
    rcases PubSub.mem_act.mp hIn with hNew | ⟨hOld, -⟩
    · cases hNew
    · exact hListed k hOld

theorem ctxsOf_of_lookup {s : ConvertService} {key : String}
    {ctxs : Map CContext (Option CContext)} (h : s.type2ctxsMap.lookup key = some ctxs) :
    s.ctxsOf key = ctxs := by rw [ConvertService.ctxsOf, h, Option.getD_some]

theorem ctxsOf_of_none {s : ConvertService} {key : String}
    (h : s.type2ctxsMap.lookup key = none) : s.ctxsOf key = ∅ := by
  rw [ConvertService.ctxsOf, h, Option.getD_none]

/-- Nothing is taken out where the connection is not. -/
theorem follows_absent {s : ConvertService} {conn : CContext} {key : String}
    (h : (conn, key) ∉ s.subs) : Follows s s [.unsub conn key] :=
  fun hWf => ⟨hWf, (PubSub.act_unsub_absent h).symm⟩

theorem unsubOne_follows (conn : CContext) (s : ConvertService) (e : SubEntry) :
    Follows s (unsubOne conn s e).1 [.unsub conn e.key] := by
  unfold unsubOne
  split
  · rename_i hLookup
    apply follows_absent
    rw [ConvertService.mem_subs, ctxsOf_of_none hLookup]
    exact AList.notMem_empty conn
  rename_i ctxs hLookup
  split
  · rename_i hMem
    split
    · rename_i hLast
      refine follows_erase (fun key' => ?_) rfl
      show ((s.type2ctxsMap.erase e.key).lookup key').getD ∅ = _
      by_cases hKey : key' = e.key
      · rw [if_pos hKey, hKey, AList.lookup_erase, Option.getD_none, ctxsOf_of_lookup hLookup]
        exact (AList.ext hLast).symm
      · rw [if_neg hKey, AList.lookup_erase_ne hKey]
        rfl
    · refine follows_erase (fun key' => ?_) rfl
      rw [ctxsOf_of_lookup hLookup]
      exact ctxsOf_insert s e.key key' _
  · rename_i hMem
    apply follows_absent
    rw [ConvertService.mem_subs, ctxsOf_of_lookup hLookup]
    exact hMem

theorem disconnectKey_ctxsOf (conn : CContext) (s : ConvertService) (key key' : String) :
    (disconnectKey conn s key).1.ctxsOf key' =
      if key' = key then (s.ctxsOf key).erase conn else s.ctxsOf key' := by
  unfold disconnectKey
  split
  · rename_i hLookup
    split
    · rename_i hKey
      rw [hKey, ctxsOf_of_none hLookup]
      rfl
    · rfl
  · rename_i ctxs hLookup
    rw [ctxsOf_of_lookup hLookup]
    exact ctxsOf_insert s key key' _

theorem disconnectKey_keysOf (conn : CContext) (s : ConvertService) (key : String) :
    (disconnectKey conn s key).1.keysOf = s.keysOf := by
  unfold disconnectKey
  split <;> rfl

theorem disconnectKey_follows (conn : CContext) (s : ConvertService) (key : String) :
    Follows s (disconnectKey conn s key).1 [.unsub conn key] :=
  follows_erase (disconnectKey_ctxsOf conn s key) (disconnectKey_keysOf conn s key)

/-! ### Callbacks -/

theorem realArray_follows {one : ConvertService → SubEntry → ConvertService × List SubEntry}
    {a : SubEntry → Act CContext String} (hOne : ∀ s e, Follows s (one s e).1 [a e])
    (s : ConvertService) (es : List SubEntry) :
    Follows s (realArray one s es).1 (es.map a) := by
  induction es generalizing s with
  | nil => exact follows_of_maps rfl rfl
  | cons e es ih => exact (hOne s e).trans (ih (one s e).1)

theorem eachOut_follows {α : Type} {one : ConvertService → α → ConvertService × List Out}
    {as : α → List (Act CContext String)} (hOne : ∀ s x, Follows s (one s x).1 (as x))
    (s : ConvertService) (xs : List α) : Follows s (eachOut one s xs).1 (xs.flatMap as) := by
  induction xs generalizing s with
  | nil => exact follows_of_maps rfl rfl
  | cons x xs ih => exact (hOne s x).trans (ih (one s x).1)

theorem forwardSub_follows (conn : CContext) (ret : UInt64) (reqJson : ReqJson)
    (s : ConvertService) : Follows s (forwardSub conn ret reqJson s).1 [] := by
  unfold forwardSub queryQuotes
  split <;> exact follows_of_maps rfl rfl

theorem handleReq_follows (s : ConvertService) (conn : CContext) (ret : UInt64)
    (reqJson : ReqJson) :
    Follows s (handleReq s conn ret reqJson).1 (reqJson.data.acts conn) := by
  unfold handleReq
  split
  · rename_i h
    rw [h]
    exact follows_of_maps rfl rfl
  · rename_i h
    rw [h]
    exact follows_of_maps rfl rfl
  · rename_i h
    rw [h]
    exact follows_of_maps rfl rfl
  · rename_i data h
    rw [h, ← List.append_nil (ReqData.acts _ _)]
    exact (realArray_follows (subOne_follows conn) s data).trans (forwardSub_follows conn ret _ _)
  · rename_i data h
    rw [h, ← List.append_nil (ReqData.acts _ _)]
    exact (realArray_follows (unsubOne_follows conn) s data).trans (forwardSub_follows conn ret _ _)
  · rename_i h
    rw [h]
    exact follows_of_maps rfl rfl
  · rename_i h
    rw [h]
    exact follows_of_maps rfl rfl

/-- The keys of the list, one by one, are all the subscriptions of the connection. -/
theorem onLevDisConnect_follows (s : ConvertService) (conn : CContext) :
    Follows s (onLevDisConnect s conn).1 [.drop conn] := by
  intro hWf
  have hKeys : Follows s (onLevDisConnect s conn).1 ((s.keysOf conn).map (.unsub conn)) := by
    unfold onLevDisConnect ConvertService.keysOf
    split
    · rename_i hNone
      rw [hNone]
      exact follows_of_maps rfl rfl
    · rename_i keyVec hSome
      rw [hSome, Option.getD_some, List.map_eq_flatMap]
      exact eachOut_follows (disconnectKey_follows conn) s keyVec
  obtain ⟨hWf', hSubs⟩ := hKeys hWf
  refine ⟨hWf', ?_⟩
  rw [hSubs, PubSub.acts_unsub_all (hWf.listed conn)]
  rfl

theorem checkClientAlive_follows (s : ConvertService) :
    Follows s (checkClientAlive s).1 (s.dead.map .drop) := by
  have hOne : ∀ s it, Follows s (checkOne s it).1 (if it.2 then [] else [.drop it.1]) := by
    intro s it
    unfold checkOne
    split
    · exact follows_of_maps rfl rfl
    · rw [← List.append_nil [Act.drop it.1]]
      exact (onLevDisConnect_follows s it.1).trans (follows_of_maps rfl rfl)
  have hAll := eachOut_follows hOne s s.ctx2isLiveMap.entries
  have hActs : ∀ its : List (Σ _ : CContext, Bool),
      its.flatMap (fun it => if it.2 then [] else [(Act.drop it.1 : Act CContext String)]) =
        ((its.filter fun it => !it.2).map Sigma.fst).map .drop := by
    intro its
    induction its with
    | nil => rfl
    | cons it its ih =>
      rw [List.flatMap_cons, ih]
      cases hLive : it.2 <;> simp [hLive]
  rw [hActs] at hAll
  exact hAll

/-! ### Responses -/

theorem sendEach_suffix {msgs : List (MsgCarrier Reply)}
    {it it' : List (Σ _ : CContext, Option CContext)} {out : List Out}
    (h : sendEach msgs it = (out, some it')) : it' <:+ it := by
  induction msgs generalizing it out with
  | nil =>
    cases h
    exact List.suffix_refl _
  | cons mc msgs ih =>
    rcases it with _ | ⟨⟨c, _ | conn⟩, it⟩
    · cases h
    · cases h
    · simp only [sendEach, Prod.mk.injEq] at h
      exact (ih (Prod.ext rfl h.2)).trans (List.suffix_cons _ it)

/-- Without empty pointers the loop over the connections takes none of them out. -/
theorem fanOut_same {msgs : List (MsgCarrier Reply)} {ctxs ctxs' : Map CContext (Option CContext)}
    {out : List Out} (hOwn : ∀ x ∈ ctxs.entries, x.2 = some x.1)
    (h : fanOut msgs ctxs = some (ctxs', out)) : ctxs' = ctxs := by
  have hRun : ∀ (fuel : Nat) it out r, it <:+ ctxs.entries →
      Loop.run (fanOutPass msgs) fuel (ctxs, it) = some (out, some r) → r = ctxs := by
    intro fuel
    induction fuel with
    | zero =>
      intro it out r hSuffix hRun
      cases hRun
    | succ fuel ih =>
      intro it out r hSuffix hRun
      rcases it with _ | ⟨⟨c, p⟩, it⟩
      · cases hRun
        rfl
      have hPtr : p = some c := hOwn ⟨c, p⟩ (hSuffix.subset List.mem_cons_self)
      subst hPtr
      rcases hSend : sendEach msgs (⟨c, some c⟩ :: it) with ⟨sent, _ | it'⟩
      · simp only [Loop.run, fanOutPass, hSend] at hRun
        cases hRun
      · simp only [Loop.run, fanOutPass, hSend, Option.map_eq_some_iff] at hRun
        obtain ⟨⟨out', r'⟩, hRest, hEq⟩ := hRun
        cases hEq
        exact ih it' out' r ((sendEach_suffix hSend).trans hSuffix) hRest
  unfold fanOut at h
  split at h
  · rename_i hLoop
    cases h
    exact hRun _ _ _ _ (List.suffix_refl _) hLoop
  · cases h

theorem ConvertService.Wf.own_entries {s : ConvertService} (hWf : s.Wf) (key : String) :
    ∀ x ∈ (s.ctxsOf key).entries, x.2 = some x.1 := by
  intro x hx
  exact hWf.own key x.1 x.2 (AList.mem_lookup_iff.mpr hx)

theorem processPush_follows {s s' : ConvertService} {resJson : Json}
    {msgs : List (MsgCarrier Reply)} {out : List Out}
    (h : processPush s resJson msgs = some (s', out)) : Follows s s' [] := by
  intro hWf
  unfold processPush at h
  simp only [Option.bind_eq_bind, Option.bind_eq_some_iff] at h
  obtain ⟨_ | key, hKey, h⟩ := h
  · cases h
    exact follows_of_maps rfl rfl hWf
  dsimp only at h
  cases hLookup : s.type2ctxsMap.lookup key with
  | none =>
    rw [hLookup] at h
    cases h
    exact follows_of_maps rfl rfl hWf
  | some ctxs =>
    simp only [hLookup, Option.bind_eq_some_iff, Prod.exists] at h
    obtain ⟨ctxs', out', hFan, h⟩ := h
    cases h
    have hSame : ctxs' = ctxs := by
      refine fanOut_same ?_ hFan
      rw [← ctxsOf_of_lookup hLookup]
      exact hWf.own_entries key
    refine follows_of_ctxsOf ?_ rfl hWf
    funext key'
    show ((s.type2ctxsMap.insert key ctxs').lookup key').getD ∅ = s.ctxsOf key'
    rw [ctxsOf_insert, hSame]
    split
    · rename_i hEq
      rw [hEq, ctxsOf_of_lookup hLookup]
    · rfl

theorem processInsRes_follows {s s' : ConvertService} {resJson : Json} {out : List Out}
    (h : processInsRes s resJson = some (s', out)) : Follows s s' [] := by
  unfold processInsRes at h
  split at h
  · simp only [Option.bind_eq_bind, Option.bind_eq_some_iff] at h
    obtain ⟨data, -, beginpos, -, totalCount, -, h⟩ := h
    split at h
    · obtain ⟨market, -, h⟩ := Option.bind_eq_some_iff.mp h
      cases h
      exact follows_of_maps rfl rfl
    · obtain ⟨market, -, h⟩ := Option.bind_eq_some_iff.mp h
      cases h
      exact follows_of_maps rfl rfl
  · cases h
    exact follows_of_maps rfl rfl

theorem processReply_follows (s : ConvertService) (reqId : Int) (msgs : List (MsgCarrier Reply)) :
    Follows s (processReply s reqId msgs).1 [] := by
  unfold processReply
  split <;> exact follows_of_maps rfl rfl

theorem processRes_follows {env : Env} {s s' : ConvertService} {res : String} {out : List Out}
    (h : processRes env s res = some (s', out)) : Follows s s' [] := by
  rcases processRes_cases h with ⟨rfl, -⟩ | ⟨resJson, reqId, msgs, utils, -, -, hCase⟩
  · exact follows_of_maps rfl rfl
  have hUtils : Follows s { s with utils } [] := follows_of_maps rfl rfl
  rcases hCase with ⟨rfl, -⟩ | ⟨-, hIns⟩ | ⟨-, hPush⟩ | ⟨-, hReply⟩
  · exact hUtils
  · exact hUtils.trans (processInsRes_follows hIns)
  · exact hUtils.trans (processPush_follows hPush)
  · have hAll := hUtils.trans (processReply_follows { s with utils } reqId msgs)
    rw [hReply] at hAll
    exact hAll

/-! ### Runs -/

/-- **Step**: every callback does to the maps what its actions do to the subscriptions. -/
theorem step_follows {env : Env} {s s' : ConvertService} {ev : Event} {out : List Out}
    (h : step env s ev = some (s', out)) : Follows s s' (stepActs env s ev) := by
  cases ev with
  | accept conn =>
    cases h
    exact follows_of_maps rfl rfl
  | request conn reqStr =>
    simp only [step, Option.map_eq_some_iff, Prod.exists] at h
    obtain ⟨s₁, out₁, ret, hReq, hEq⟩ := h
    cases hEq
    rcases processReq_cases hReq with ⟨rfl, -, hActs⟩ | ⟨id, reqJson, -, -, hHandle, hActs⟩
    · rw [hActs]
      exact follows_of_maps rfl rfl
    · have hCounter : Follows s { s with reqId := nextReqId s.reqId } [] := follows_of_maps rfl rfl
      have hAll := hCounter.trans (handleReq_follows _ conn (UInt64.ofInt id) reqJson)
      rw [hHandle] at hAll
      rw [hActs]
      exact hAll
  | response res => exact processRes_follows h
  | disconnect conn =>
    have hStep := onLevDisConnect_follows s conn
    rw [Option.some.inj h] at hStep
    exact hStep
  | heartbeatTimer =>
    cases h
    exact checkClientAlive_follows s
  | queryInsInfoTimer =>
    cases h
    exact follows_of_maps rfl rfl

/-- **Run**: after a run the maps are the subscriptions that its actions make. -/
theorem run_follows {env : Env} {s t : ConvertService} {evs : List Event} {log : List Logged}
    (h : run env s evs = some (t, log)) : Follows s t (log.flatMap Logged.acts) := by
  induction evs generalizing s log with
  | nil =>
    cases h
    exact follows_of_maps rfl rfl
  | cons ev evs ih =>
    obtain ⟨s', out, log', hFirst, hRest, rfl⟩ := run_cons h
    exact (step_follows hFirst).trans (ih hRest)

/-- No connection is subscribed, and no list is kept. -/
def ConvertService.Unsubscribed (s : ConvertService) : Prop :=
  s.type2ctxsMap = ∅ ∧ s.ctx2typeMap = ∅

theorem ConvertService.Unsubscribed.wf {s : ConvertService} (h : s.Unsubscribed) :
    s.Wf ∧ s.subs = ∅ := by
  have hCtxs : ∀ key, s.ctxsOf key = ∅ := by
    intro key
    rw [ConvertService.ctxsOf, h.1]
    rfl
  have hSubs : s.subs = ∅ := by
    ext ⟨c, key⟩
    rw [ConvertService.mem_subs, hCtxs]
    exact iff_of_false (AList.notMem_empty c) (Set.notMem_empty _)
  refine ⟨⟨?_, ?_⟩, hSubs⟩
  · intro key c v hLookup
    rw [hCtxs] at hLookup
    cases hLookup
  · intro c key hIn
    rw [hSubs] at hIn
    exact absurd hIn (Set.notMem_empty _)

/-- After a run from the start a connection is subscribed to a key exactly when its latest action
for it is a subscription. -/
theorem mem_subs_run {env : Env} {s t : ConvertService} {evs : List Event} {log : List Logged}
    (hStart : s.Unsubscribed) (h : run env s evs = some (t, log)) {conn : CContext}
    {key : String} :
    (conn, key) ∈ t.subs ↔ PubSub.LatestIsSub (log.flatMap Logged.acts) conn key := by
  rw [(run_follows h hStart.wf.1).2, hStart.wf.2, PubSub.mem_acts_empty]

end DemoCode.FeedProxy
