import Mathlib.Data.List.TakeWhile
import DemoCode.FeedProxy.FanOut

/-! What `ConvertService` tells upstream: the entries that subscribe or unsubscribe a key are the
edges of the key, where its first connection comes and its last one goes, in every run whose steps
keep off the keys that a disconnect has emptied. -/

namespace DemoCode.FeedProxy

open PubSub (Act act acts edge edges)

/-! ### Entries -/

/-- The key of an element of an upstream request. -/
def Json.entryKey (info : Json) : Option String := do
  let type ← info.getString "type"
  let market ← info.getString "market"
  let code ← info.getString "code"
  some (type ++ "|" ++ market ++ "|" ++ code)

/-- The entries of a text: whether it subscribes, and the key. -/
def textEntries (env : Env) (msg : String) : List (Bool × String) :=
  let entries := do
    let json ← env.parseJson msg
    let reqtype ← json.getInt "reqtype"
    if reqtype = 200 ∨ reqtype = 201 then
      let data ← (← json.get "data").elemsFrom 0
      some ((data.filterMap Json.entryKey).map fun key => (decide (reqtype = 200), key))
    else
      none
  entries.getD []

def ReqData.entries : ReqData → List (Bool × String)
  | .sub data => data.map fun e => (true, e.key)
  | .unsub data => data.map fun e => (false, e.key)
  | _ => []

/-- The entries of what is handed to `SendReq`. -/
def Out.entries (env : Env) : Out → List (Bool × String)
  | .sendReq (.req reqJson) => reqJson.data.entries
  | .sendReq (.text msg) => textEntries env msg
  | _ => []

/-- The entries of a key: whether each of them subscribes. -/
def entriesOf (env : Env) (key : String) (out : List Out) : List Bool :=
  ((out.flatMap (Out.entries env)).filter fun x => x.2 = key).map Prod.fst

theorem entriesOf_append (env : Env) (key : String) (out out' : List Out) :
    entriesOf env key (out ++ out') = entriesOf env key out ++ entriesOf env key out' := by
  rw [entriesOf, List.flatMap_append, List.filter_append, List.map_append]
  rfl

/-! ### The text that ends a subscription -/

/-- A character that a JSON text has as itself, and a key in one part. -/
def plainChar (c : Char) : Bool := c ≠ '|' && c ≠ '"' && c ≠ '\\' && 0x20 ≤ c.toNat

def SubEntry.unsubText (e : SubEntry) : String :=
  unSubFormat (toString e.market) e.code (toString e.type)

/-- Numbers of type `int`, a code of plain characters, and a text that fits the buffer. -/
structure SubEntry.Plain (e : SubEntry) : Prop where
  type : intMin ≤ e.type ∧ e.type ≤ intMax
  market : intMin ≤ e.market ∧ e.market ≤ intMax
  code : e.code.toList.all plainChar
  fits : e.unsubText.utf8ByteSize < 1024

/-- What the text of a plain element reads as. -/
def SubEntry.unsubJson (e : SubEntry) : Json :=
  .obj [("reqtype", .int 201), ("reqid", .int 2), ("session", .str ""),
    ("data", .arr [.obj [("market", .int e.market), ("code", .str e.code), ("type", .int e.type)]])]

/-- The JSON reader reads the text of a plain element. -/
def ReadsUnsub (env : Env) : Prop :=
  ∀ e : SubEntry, e.Plain → env.parseJson e.unsubText = some e.unsubJson

theorem mem_toString_int {n : Int} {c : Char} (h : c ∈ (toString n).toList) :
    c.isDigit ∨ c = '-' := by
  have hNat : ∀ m : Nat, c ∈ m.repr.toList → c.isDigit := by
    intro m hm
    rw [Nat.toList_repr] at hm
    exact Nat.isDigit_of_mem_toDigits (by decide) (by decide) hm
  change c ∈ n.repr.toList at h
  rw [Int.repr_eq_if] at h
  split at h
  · exact .inl (hNat _ h)
  · rw [String.toList_append, List.mem_append] at h
    rcases h with h | h
    · exact .inr (by simpa using h)
    · exact .inl (hNat _ h)

theorem toString_int_ne {n : Int} {c : Char} (h : c ∈ (toString n).toList) {d : Char}
    (hd : ¬d.isDigit ∧ d ≠ '-') : c ≠ d := by
  rintro rfl
  rcases mem_toString_int h with hDigit | rfl
  · exact hd.1 hDigit
  · exact hd.2 rfl

theorem splitKey_append {p : List Char} (h : ∀ c ∈ p, c ≠ '|') (start rest : List Char) :
    splitKey start (p ++ '|' :: rest) = String.ofList (start ++ p) :: splitKey [] rest := by
  induction p generalizing start with
  | nil => rw [List.nil_append, splitKey, if_pos rfl, List.append_nil]
  | cons c p ih =>
    have hRest := ih (fun d hd => h d (List.mem_cons_of_mem _ hd)) (start ++ [c])
    rw [List.cons_append, splitKey, if_neg (h c List.mem_cons_self), hRest, List.append_assoc,
      List.singleton_append]

theorem splitKey_last {p : List Char} (h : ∀ c ∈ p, c ≠ '|') (start : List Char) :
    splitKey start p = [String.ofList (start ++ p)] := by
  induction p generalizing start with
  | nil => rw [splitKey, List.append_nil]
  | cons c p ih =>
    have hRest := ih (fun d hd => h d (List.mem_cons_of_mem _ hd)) (start ++ [c])
    rw [splitKey, if_neg (h c List.mem_cons_self), hRest, List.append_assoc,
      List.singleton_append]

/-- The parts of a key are those that it is made of. -/
theorem splitKey_key {e : SubEntry} (h : ∀ c ∈ e.code.toList, c ≠ '|') :
    splitKey [] e.key.toList = [toString e.type, toString e.market, e.code] := by
  have hKey : e.key.toList =
      (toString e.type).toList ++ '|' :: ((toString e.market).toList ++ '|' :: e.code.toList) := by
    simp [SubEntry.key]
  have hInt : ∀ n : Int, ∀ c ∈ (toString n).toList, c ≠ '|' :=
    fun n c hc => toString_int_ne hc (by decide)
  rw [hKey, splitKey_append (hInt _), splitKey_append (hInt _), splitKey_last h]
  simp

theorem cStr_eq {s : String} (h : ∀ c ∈ s.toList, c ≠ '\x00') : cStr s = s := by
  have hAll : s.toList.takeWhile (· ≠ '\x00') = s.toList :=
    List.takeWhile_eq_self_iff.mpr fun c hc => by simpa using h c hc
  rw [cStr, hAll, String.ofList_toList]

theorem utf8ByteSize_cons (c : Char) (cs : List Char) :
    (String.ofList (c :: cs)).utf8ByteSize = c.utf8Size + (String.ofList cs).utf8ByteSize := by
  rw [← List.singleton_append, String.ofList_append, String.utf8ByteSize_append,
    ← String.singleton_eq_ofList, String.utf8ByteSize_singleton]

theorem truncated_eq {cs : List Char} {size : Nat}
    (h : (String.ofList cs).utf8ByteSize ≤ size) : truncated size cs = cs := by
  induction cs generalizing size with
  | nil => rfl
  | cons c cs ih =>
    rw [utf8ByteSize_cons] at h
    rw [truncated, if_pos (by omega), ih (by omega)]

theorem snprintf1024_eq {s : String} (h : s.utf8ByteSize < 1024) : snprintf1024 s = s := by
  rw [snprintf1024, truncated_eq (by rw [String.ofList_toList]; omega), String.ofList_toList]

theorem SubEntry.Plain.code_ne {e : SubEntry} (h : e.Plain) {c : Char} (hc : c ∈ e.code.toList) :
    c ≠ '|' ∧ c ≠ '"' ∧ c ≠ '\x00' := by
  have hPlain := List.all_eq_true.mp h.code c hc
  simp only [plainChar, Bool.and_eq_true, decide_eq_true_eq] at hPlain
  obtain ⟨⟨⟨hBar, hQuote⟩, -⟩, hLow⟩ := hPlain
  refine ⟨hBar, hQuote, ?_⟩
  rintro rfl
  exact absurd hLow (by decide)

theorem unsubMsg_key {e : SubEntry} (h : e.Plain) :
    unsubMsg e.key = [.sendReq (.text e.unsubText)] := by
  have hInt : ∀ n : Int, cStr (toString n) = toString n :=
    fun n => cStr_eq fun c hc => toString_int_ne hc (by decide)
  have hCode : cStr e.code = e.code := cStr_eq fun c hc => (h.code_ne hc).2.2
  rw [unsubMsg, splitKey_key fun c hc => (h.code_ne hc).1]
  dsimp only
  rw [hInt, hInt, hCode]
  exact congrArg (fun msg => [Out.sendReq (.text msg)]) (snprintf1024_eq h.fits)

/-- The text of a plain key is one entry that unsubscribes it. -/
theorem entriesOf_unsubMsg {env : Env} (hReads : ReadsUnsub env) {e : SubEntry} (h : e.Plain)
    (key : String) : entriesOf env key (unsubMsg e.key) = if e.key = key then [false] else [] := by
  have hText : textEntries env e.unsubText = [(false, e.key)] := by
    rw [textEntries, hReads e h]
    rfl
  rw [unsubMsg_key h]
  simp only [entriesOf, List.flatMap_cons, List.flatMap_nil, List.append_nil, Out.entries, hText]
  split <;> simp_all

/-! ### Steps -/

theorem occupied_iff {s : ConvertService} {key : String} :
    PubSub.Occupied s.subs key ↔ (s.ctxsOf key).entries ≠ [] := by
  rw [Ne, Map.mem_empty_iff, not_forall_not]
  rfl

/-- A key that no connection has, with connections of none: what a disconnect leaves. -/
def ConvertService.Emptied (s : ConvertService) (key : String) : Prop :=
  key ∈ s.type2ctxsMap ∧ (s.ctxsOf key).entries = []

theorem occupied_iff_mem {s : ConvertService} {key : String} (h : ¬s.Emptied key) :
    PubSub.Occupied s.subs key ↔ key ∈ s.type2ctxsMap := by
  rw [occupied_iff]
  constructor
  · intro hFull
    by_contra hOut
    rw [ctxsOf_of_none (AList.lookup_eq_none.mpr hOut)] at hFull
    exact hFull rfl
  · exact fun hIn hEmpty => h ⟨hIn, hEmpty⟩

theorem edge_of_ne {R : Set (CContext × String)} {conn : CContext} {key key' : String}
    (h : key' ≠ key) : edge key' R (act R (.sub conn key)) = [] ∧
      edge key' R (act R (.unsub conn key)) = [] := by
  constructor
  · apply PubSub.edge_of_iff
    exact exists_congr fun c => (mem_act_of_ne h).1.symm
  · apply PubSub.edge_of_iff
    exact exists_congr fun c => (mem_act_of_ne h).2.symm

/-- The keys of some elements that are a key. -/
def marksOf (subscribes : Bool) (key : String) (es : List SubEntry) : List Bool :=
  (es.filter fun e => e.key = key).map fun _ => subscribes

theorem marksOf_append (subscribes : Bool) (key : String) (es es' : List SubEntry) :
    marksOf subscribes key (es ++ es') =
      marksOf subscribes key es ++ marksOf subscribes key es' := by
  rw [marksOf, List.filter_append, List.map_append]
  rfl

theorem marksOf_singleton (subscribes : Bool) (key : String) (e : SubEntry) :
    marksOf subscribes key [e] = if e.key = key then [subscribes] else [] := by
  by_cases hKey : e.key = key <;> simp [marksOf, hKey]

theorem subOne_marks {s : ConvertService} (conn : CContext) {e : SubEntry}
    (h : ¬s.Emptied e.key) (key : String) :
    marksOf true key (subOne conn s e).2 = edge key s.subs (act s.subs (.sub conn e.key)) := by
  have hOut : (subOne conn s e).2 = if e.key ∈ s.type2ctxsMap then [] else [e] := rfl
  rw [hOut]
  by_cases hKey : key = e.key
  · rw [hKey]
    have hAfter : PubSub.Occupied (act s.subs (.sub conn e.key)) e.key :=
      ⟨conn, PubSub.mem_act.mpr (.inl rfl)⟩
    by_cases hIn : e.key ∈ s.type2ctxsMap
    · rw [if_pos hIn, PubSub.edge_of_iff (iff_of_true ((occupied_iff_mem h).mpr hIn) hAfter)]
      rfl
    · rw [if_neg hIn, marksOf_singleton, if_pos rfl,
        PubSub.edge_up (fun hOcc => hIn ((occupied_iff_mem h).mp hOcc)) hAfter]
  · rw [(edge_of_ne hKey).1]
    split
    · rfl
    · rw [marksOf_singleton, if_neg (Ne.symm hKey)]

/-- What the end of a subscription leaves of a key. -/
theorem occupied_unsub {s : ConvertService} {conn : CContext} {key : String} :
    PubSub.Occupied (act s.subs (.unsub conn key)) key ↔
      ((s.ctxsOf key).erase conn).entries ≠ [] := by
  rw [Ne, Map.mem_empty_iff, not_forall_not]
  refine exists_congr fun c => ?_
  rw [AList.mem_erase, PubSub.mem_act, ConvertService.mem_subs]
  simp [Act.Ends, eq_comm, and_comm]

theorem edge_unsub {s : ConvertService} {conn : CContext} {key : String}
    (h : conn ∈ s.ctxsOf key) : edge key s.subs (act s.subs (.unsub conn key)) =
      if ((s.ctxsOf key).erase conn).entries = [] then [false] else [] := by
  have hBefore : PubSub.Occupied s.subs key := ⟨conn, h⟩
  split
  · rename_i hLast
    exact PubSub.edge_down hBefore fun hOcc => occupied_unsub.mp hOcc hLast
  · rename_i hMore
    exact PubSub.edge_of_iff (iff_of_true hBefore (occupied_unsub.mpr hMore))

theorem edge_absent {s : ConvertService} {conn : CContext} {key : String}
    (h : conn ∉ s.ctxsOf key) : edge key s.subs (act s.subs (.unsub conn key)) = [] := by
  rw [PubSub.act_unsub_absent h, PubSub.edge_self]

theorem unsubOne_marks (s : ConvertService) (conn : CContext) (e : SubEntry) (key : String) :
    marksOf false key (unsubOne conn s e).2 =
      edge key s.subs (act s.subs (.unsub conn e.key)) := by
  by_cases hKey : key = e.key
  · rw [hKey]
    unfold unsubOne
    split
    · rename_i hLookup
      rw [edge_absent (by rw [ctxsOf_of_none hLookup]; exact AList.notMem_empty conn)]
      rfl
    rename_i ctxs hLookup
    have hCtxs := ctxsOf_of_lookup hLookup
    split
    · rename_i hMem
      rw [edge_unsub (by rw [hCtxs]; exact hMem), hCtxs]
      split
      · rw [marksOf_singleton, if_pos rfl]
      · rfl
    · rename_i hMem
      rw [edge_absent (by rw [hCtxs]; exact hMem)]
      rfl
  · rw [(edge_of_ne hKey).2]
    unfold unsubOne
    split
    · rfl
    split
    · split
      · rw [marksOf_singleton, if_neg (Ne.symm hKey)]
      · rfl
    · rfl

/-- A subscription empties no key. -/
theorem subOne_emptied {s : ConvertService} {conn : CContext} {e : SubEntry} {key : String}
    (h : ¬s.Emptied key) : ¬(subOne conn s e).1.Emptied key := by
  rintro ⟨hIn, hEmpty⟩
  have hCtxs : (subOne conn s e).1.ctxsOf key =
      if key = e.key then Map.emplace (s.ctxsOf e.key) conn (some conn) else s.ctxsOf key :=
    ctxsOf_insert s e.key key _
  rw [hCtxs] at hEmpty
  by_cases hKey : key = e.key
  · rw [if_pos hKey] at hEmpty
    exact Map.mem_empty_iff.mp hEmpty conn (Map.mem_emplace.mpr (.inl rfl))
  · rw [if_neg hKey] at hEmpty
    change key ∈ s.type2ctxsMap.insert e.key _ at hIn
    rw [AList.mem_insert] at hIn
    exact h ⟨hIn.resolve_left hKey, hEmpty⟩

theorem realArray_sub_marks {s : ConvertService} (hWf : s.Wf) (conn : CContext)
    {es : List SubEntry} (h : ∀ e ∈ es, ¬s.Emptied e.key) (key : String) :
    marksOf true key (realArray (subOne conn) s es).2 =
      edges key s.subs (es.map fun e => .sub conn e.key) := by
  induction es generalizing s with
  | nil => rfl
  | cons e es ih =>
    obtain ⟨hWf', hSubs⟩ := subOne_follows conn s e hWf
    have hRest := ih hWf' fun e' he' => subOne_emptied (h e' (List.mem_cons_of_mem _ he'))
    rw [hSubs] at hRest
    show marksOf true key ((subOne conn s e).2 ++ _) = _
    rw [marksOf_append, hRest, subOne_marks conn (h e List.mem_cons_self)]
    rfl

theorem realArray_unsub_marks {s : ConvertService} (hWf : s.Wf) (conn : CContext)
    (es : List SubEntry) (key : String) :
    marksOf false key (realArray (unsubOne conn) s es).2 =
      edges key s.subs (es.map fun e => .unsub conn e.key) := by
  induction es generalizing s with
  | nil => rfl
  | cons e es ih =>
    obtain ⟨hWf', hSubs⟩ := unsubOne_follows conn s e hWf
    have hRest := ih hWf'
    rw [hSubs] at hRest
    show marksOf false key ((unsubOne conn s e).2 ++ _) = _
    rw [marksOf_append, hRest, unsubOne_marks]
    rfl

/-- The query of quotes has no entry, so those of a request are those of its elements. -/
theorem entriesOf_forwardSub (env : Env) (key : String) (conn : CContext) (ret : UInt64)
    (reqJson : ReqJson) (s : ConvertService) :
    entriesOf env key (forwardSub conn ret reqJson s).2 =
      (reqJson.data.entries.filter fun x => x.2 = key).map Prod.fst := by
  unfold forwardSub queryQuotes
  split <;> simp [forward, entriesOf, Out.entries]

theorem filter_entries (subscribes : Bool) (key : String) (es : List SubEntry) :
    ((es.map fun e => (subscribes, e.key)).filter fun x => x.2 = key).map Prod.fst =
      marksOf subscribes key es := by
  simp only [List.filter_map, List.map_map, marksOf]
  rfl

theorem handleReq_entries {env : Env} {s : ConvertService} (hWf : s.Wf) {conn : CContext}
    (ret : UInt64) {reqJson : ReqJson}
    (h : ∀ key, .sub conn key ∈ reqJson.data.acts conn → ¬s.Emptied key) (key : String) :
    entriesOf env key (handleReq s conn ret reqJson).2 =
      edges key s.subs (reqJson.data.acts conn) := by
  unfold handleReq
  cases hData : reqJson.data with
  | heartbeat => rfl
  | tradeDate => rfl
  | allInsInfo => rfl
  | sub es =>
    rw [hData] at h
    show entriesOf env key (forwardSub conn ret _ _).2 = _
    rw [entriesOf_forwardSub, ReqData.entries, filter_entries]
    exact realArray_sub_marks hWf conn (fun e he => h e.key (List.mem_map.mpr ⟨e, he, rfl⟩)) key
  | unsub es =>
    show entriesOf env key (forwardSub conn ret _ _).2 = _
    rw [entriesOf_forwardSub, ReqData.entries, filter_entries]
    exact realArray_unsub_marks hWf conn es key
  | kLine => simp [forward, entriesOf, Out.entries, hData, ReqData.entries, ReqData.acts, edges]
  | broker => simp [forward, entriesOf, Out.entries, hData, ReqData.entries, ReqData.acts, edges]

/-- No connection of the key is left when this one is taken out. -/
def ConvertService.LeftEmpty (s : ConvertService) (conn : CContext) (key : String) : Prop :=
  key ∈ s.type2ctxsMap ∧ ((s.ctxsOf key).erase conn).entries = []

/-- A key that can be unsubscribed by its text. -/
def PlainKey (key : String) : Prop := ∃ e : SubEntry, e.Plain ∧ e.key = key

theorem disconnectKey_entries {env : Env} (hReads : ReadsUnsub env) {s : ConvertService}
    {conn : CContext} {key' : String}
    (h : s.LeftEmpty conn key' → conn ∈ s.ctxsOf key' ∧ PlainKey key') (key : String) :
    entriesOf env key (disconnectKey conn s key').2 =
      edge key s.subs (act s.subs (.unsub conn key')) := by
  unfold disconnectKey
  split
  · rename_i hLookup
    rw [PubSub.act_unsub_absent, PubSub.edge_self]
    · rfl
    · rw [ConvertService.mem_subs, ctxsOf_of_none hLookup]
      exact AList.notMem_empty conn
  rename_i ctxs hLookup
  have hCtxs := ctxsOf_of_lookup hLookup
  have hKeyIn : key' ∈ s.type2ctxsMap := AList.lookup_isSome.mp (by rw [hLookup]; rfl)
  dsimp only
  split
  · rename_i hLast
    obtain ⟨hMem, e, hPlain, rfl⟩ := h ⟨hKeyIn, by rw [hCtxs]; exact hLast⟩
    rw [entriesOf_unsubMsg hReads hPlain]
    by_cases hKey : key = e.key
    · rw [if_pos hKey.symm, hKey, edge_unsub hMem, hCtxs, if_pos hLast]
    · rw [if_neg (Ne.symm hKey), (edge_of_ne hKey).2]
  · rename_i hMore
    by_cases hKey : key = key'
    · rw [hKey]
      by_cases hMem : conn ∈ s.ctxsOf key'
      · rw [edge_unsub hMem, hCtxs, if_neg hMore]
        rfl
      · rw [edge_absent hMem]
        rfl
    · rw [(edge_of_ne hKey).2]
      rfl

/-- A disconnect leaves keys empty only where its connection is, once in its list, and in plain
keys. -/
def CleanDisconnect (s : ConvertService) (conn : CContext) (keys : List String) : Prop :=
  ∀ key ∈ keys, s.LeftEmpty conn key → conn ∈ s.ctxsOf key ∧ keys.count key = 1 ∧ PlainKey key

theorem disconnectKey_mem (conn : CContext) (s : ConvertService) (key key' : String) :
    key' ∈ (disconnectKey conn s key).1.type2ctxsMap ↔ key' ∈ s.type2ctxsMap := by
  unfold disconnectKey
  split
  · rfl
  · rename_i ctxs hLookup
    have hKeyIn : key ∈ s.type2ctxsMap := AList.lookup_isSome.mp (by rw [hLookup]; rfl)
    rw [AList.mem_insert]
    constructor
    · rintro (rfl | h)
      · exact hKeyIn
      · exact h
    · exact .inr

theorem CleanDisconnect.tail {s : ConvertService} {conn : CContext} {key : String}
    {keys : List String} (h : CleanDisconnect s conn (key :: keys)) :
    CleanDisconnect (disconnectKey conn s key).1 conn keys := by
  intro key' hIn hLeft
  rw [ConvertService.LeftEmpty, disconnectKey_mem, disconnectKey_ctxsOf] at hLeft
  rw [disconnectKey_ctxsOf]
  by_cases hKey : key' = key
  · -- the key stands twice in the list, so its connections cannot be left empty
    rw [if_pos hKey, ← hKey] at hLeft
    have hTwice : ((s.ctxsOf key').erase conn).erase conn = (s.ctxsOf key').erase conn := by
      apply AList.ext
      exact List.kerase_of_notMem_keys fun hMem => (AList.mem_erase.mp hMem).1 rfl
    rw [hTwice] at hLeft
    have hOnce := (h key' (List.mem_cons_of_mem _ hIn) hLeft).2.1
    rw [hKey, List.count_cons_self] at hOnce
    have hMore := List.count_pos_iff.mpr hIn
    rw [hKey] at hMore
    omega
  · rw [if_neg hKey] at hLeft ⊢
    obtain ⟨hMem, hOnce, hPlain⟩ := h key' (List.mem_cons_of_mem _ hIn) hLeft
    rw [List.count_cons_of_ne (Ne.symm hKey)] at hOnce
    exact ⟨hMem, hOnce, hPlain⟩

theorem eachOut_disconnect_entries {env : Env} (hReads : ReadsUnsub env) {s : ConvertService}
    (hWf : s.Wf) {conn : CContext} {keys : List String} (h : CleanDisconnect s conn keys)
    (key : String) : entriesOf env key (eachOut (disconnectKey conn) s keys).2 =
      edges key s.subs (keys.map (.unsub conn)) := by
  induction keys generalizing s with
  | nil => rfl
  | cons key' keys ih =>
    obtain ⟨hWf', hSubs⟩ := disconnectKey_follows conn s key' hWf
    have hFirst := disconnectKey_entries hReads (fun hLeft =>
      (h key' List.mem_cons_self hLeft).imp_right And.right) key
    have hRest := ih hWf' h.tail
    rw [hSubs] at hRest
    show entriesOf env key ((disconnectKey conn s key').2 ++ _) = _
    rw [entriesOf_append, hFirst, hRest]
    rfl

theorem onLevDisConnect_entries {env : Env} (hReads : ReadsUnsub env) {s : ConvertService}
    (hWf : s.Wf) {conn : CContext} (h : CleanDisconnect s conn (s.keysOf conn)) (key : String) :
    entriesOf env key (onLevDisConnect s conn).2 = edge key s.subs (act s.subs (.drop conn)) := by
  rw [← PubSub.edges_unsub_all (hWf.listed conn), ← eachOut_disconnect_entries hReads hWf h]
  unfold onLevDisConnect ConvertService.keysOf
  cases s.ctx2typeMap.lookup conn with
  | none => rfl
  | some keyVec => rfl

/-! ### Runs -/

/-- A request or a disconnect. -/
def Event.OfClient : Event → Prop
  | .request .. => True
  | .disconnect _ => True
  | _ => False

/-- A request subscribes to no key that a disconnect has emptied, and a disconnect is clean. -/
def Meets (env : Env) (s : ConvertService) : Event → Prop
  | .request conn reqStr =>
    ∀ key, .sub conn key ∈ stepActs env s (.request conn reqStr) → ¬s.Emptied key
  | .disconnect conn => CleanDisconnect s conn (s.keysOf conn)
  | _ => True

/-- **Step**: the entries of a key at a step are its edges. -/
theorem step_entries {env : Env} (hReads : ReadsUnsub env) {s s' : ConvertService} {ev : Event}
    {out : List Out} (hWf : s.Wf) (hClient : ev.OfClient) (hMeets : Meets env s ev)
    (h : step env s ev = some (s', out)) (key : String) :
    entriesOf env key out = edges key s.subs (stepActs env s ev) := by
  cases ev with
  | request conn reqStr =>
    simp only [step, Option.map_eq_some_iff, Prod.exists] at h
    obtain ⟨s₁, out₁, ret, hReq, hEq⟩ := h
    cases hEq
    rcases processReq_cases hReq with ⟨-, rfl, hActs⟩ | ⟨id, reqJson, -, -, hHandle, hActs⟩
    · rw [hActs]
      rfl
    · have hCounter : Follows s { s with reqId := nextReqId s.reqId } [] := follows_of_maps rfl rfl
      have hEntries : entriesOf env key _ = _ :=
        handleReq_entries (hCounter hWf).1 (UInt64.ofInt id)
          (fun key' hIn => hMeets key' (by rw [hActs]; exact hIn)) key
      rw [hHandle] at hEntries
      rw [hActs]
      exact hEntries
  | disconnect conn =>
    have hEntries := onLevDisConnect_entries hReads hWf hMeets key
    rw [Option.some.inj h] at hEntries
    rw [stepActs, PubSub.edges_singleton]
    exact hEntries
  | accept conn => exact hClient.elim
  | response res => exact hClient.elim
  | heartbeatTimer => exact hClient.elim
  | queryInsInfoTimer => exact hClient.elim

/-- **Run**: the entries of a key at every step of a run are its edges there. -/
theorem run_entries {env : Env} (hReads : ReadsUnsub env) {s t : ConvertService}
    {evs : List Event} {log : List Logged} (hWf : s.Wf) (hClient : ∀ ev ∈ evs, ev.OfClient)
    (hMeets : Along env (Meets env) s evs) (h : run env s evs = some (t, log)) (key : String) :
    ∀ pre x post, log = pre ++ x :: post →
      entriesOf env key x.out = edges key (acts s.subs (pre.flatMap Logged.acts)) x.acts := by
  induction evs generalizing s log with
  | nil =>
    cases h
    intro pre x post hSplit
    exact absurd hSplit (by simp)
  | cons ev evs ih =>
    obtain ⟨s', out, log', hFirst, hRest, rfl⟩ := run_cons h
    obtain ⟨hWf', hSubs⟩ := step_follows hFirst hWf
    have hTail := ih hWf' (fun ev' hIn => hClient ev' (List.mem_cons_of_mem _ hIn))
      (hMeets.tail hFirst) hRest
    intro pre x post hSplit
    rcases pre with _ | ⟨y, pre⟩
    · cases hSplit
      exact step_entries hReads hWf (hClient ev List.mem_cons_self) hMeets.1 hFirst key
    · rw [List.cons_append, List.cons.injEq] at hSplit
      obtain ⟨rfl, hSplit⟩ := hSplit
      rw [List.flatMap_cons, PubSub.acts_append, ← hSubs]
      exact hTail pre x post hSplit

/-- When the entries of every step are its edges, those of a run are the edges of the run. -/
theorem entriesOf_log {env : Env} {key : String} {R : Set (CContext × String)} {log : List Logged}
    (h : ∀ pre x post, log = pre ++ x :: post →
      entriesOf env key x.out = edges key (acts R (pre.flatMap Logged.acts)) x.acts) :
    entriesOf env key (log.flatMap Logged.out) = edges key R (log.flatMap Logged.acts) := by
  induction log generalizing R with
  | nil => rfl
  | cons x log ih =>
    have hRest := ih fun pre y post hSplit => by
      have hAll := h (x :: pre) y post (by rw [hSplit]; rfl)
      rw [List.flatMap_cons, PubSub.acts_append] at hAll
      exact hAll
    rw [List.flatMap_cons, List.flatMap_cons, entriesOf_append, PubSub.edges_append, hRest,
      h [] x log rfl]
    rfl

/-- **Upstream subscriptions track client subscriptions** in every run whose steps meet the
condition: the entries of a key at each step are the edges of the key there, and the last one
subscribes exactly when a connection is subscribed. -/
theorem run_upstream {env : Env} (hReads : ReadsUnsub env) {s t : ConvertService}
    {evs : List Event} {log : List Logged} (hStart : s.Unsubscribed)
    (hClient : ∀ ev ∈ evs, ev.OfClient) (hMeets : Along env (Meets env) s evs)
    (h : run env s evs = some (t, log)) (key : String) :
    (∀ pre x post, log = pre ++ x :: post →
      entriesOf env key x.out = edges key (acts ∅ (pre.flatMap Logged.acts)) x.acts) ∧
    ((entriesOf env key (log.flatMap Logged.out)).getLast? = some true ↔
      ∃ conn, PubSub.LatestIsSub (log.flatMap Logged.acts) conn key) := by
  obtain ⟨hWf, hNone⟩ := hStart.wf
  have hSteps := run_entries hReads hWf hClient hMeets h key
  rw [hNone] at hSteps
  refine ⟨hSteps, ?_⟩
  have hEmpty : ¬PubSub.Occupied (∅ : Set (CContext × String)) key :=
    fun ⟨c, hc⟩ => Set.notMem_empty _ hc
  rw [entriesOf_log hSteps, ← PubSub.occupied_acts_iff_getLast hEmpty]
  exact exists_congr fun conn => PubSub.mem_acts_empty

/-! ### A reader -/

def readInt : List Char → Int
  | '-' :: ds => -Nat.ofDigitChars 10 ds 0
  | ds => Nat.ofDigitChars 10 ds 0

/-- The characters up to one, and what stands behind it and a text. -/
def readUntil (c : Char) (text : List Char) (cs : List Char) : Option (List Char × List Char) :=
  ((cs.dropWhile (· ≠ c)).dropPrefix? (c :: text)).map fun rest => (cs.takeWhile (· ≠ c), rest)

/-- A reader of the texts that end a subscription. -/
def readUnsub (msg : String) : Option Json := do
  let cs ← msg.toList.dropPrefix?
    "\x7b\"reqtype\":201,\"reqid\":2,\"session\":\"\",\"data\":[\x7b\"market\":".toList
  let (market, cs) ← readUntil ',' "\"code\":\"".toList cs
  let (code, cs) ← readUntil '"' ",\"type\":".toList cs
  let (type, _) ← readUntil '\x7d' "]\x7d".toList cs
  some (SubEntry.unsubJson ⟨readInt type, readInt market, String.ofList code⟩)

theorem readInt_digits {ds : List Char} (h : ∀ c ∈ ds, c.isDigit) :
    readInt ds = Nat.ofDigitChars 10 ds 0 := by
  rcases ds with _ | ⟨c, ds⟩
  · rfl
  have hDigit := h c List.mem_cons_self
  unfold readInt
  split
  · rename_i hEq
    rw [List.cons.injEq] at hEq
    rw [hEq.1] at hDigit
    exact absurd hDigit (by decide)
  · rfl

theorem readInt_toString (n : Int) : readInt (toString n).toList = n := by
  change readInt n.repr.toList = n
  rw [Int.repr_eq_if]
  split
  · rw [Nat.toList_repr, readInt_digits, Nat.ofDigitChars_ten_toDigits]
    · omega
    · exact fun c hc => Nat.isDigit_of_mem_toDigits (by decide) (by decide) hc
  · rw [String.toList_append, Nat.toList_repr]
    show -((Nat.ofDigitChars 10 (Nat.toDigits 10 (-n).toNat) 0 : Nat) : Int) = n
    rw [Nat.ofDigitChars_ten_toDigits]
    omega

theorem toString_int_injective {a b : Int} (h : toString a = toString b) : a = b := by
  rw [← readInt_toString a, h, readInt_toString]

theorem dropPrefix_append {p s : List Char} : (p ++ s).dropPrefix? p = some s :=
  List.dropPrefix?_eq_some_iff.mpr ⟨p, rfl, by simp⟩

theorem readUntil_append {c : Char} {part text rest : List Char} (hPart : ∀ d ∈ part, d ≠ c) :
    readUntil c text (part ++ c :: (text ++ rest)) = some (part, rest) := by
  have hTake : (part ++ c :: (text ++ rest)).takeWhile (· ≠ c) = part := by
    rw [List.takeWhile_append_of_pos fun d hd => by simpa using hPart d hd]
    simp
  have hDrop : (part ++ c :: (text ++ rest)).dropWhile (· ≠ c) = (c :: text) ++ rest := by
    rw [List.dropWhile_append_of_pos fun d hd => by simpa using hPart d hd]
    simp
  rw [readUntil, hTake, hDrop, dropPrefix_append]
  rfl

theorem readUnsub_unsubText {e : SubEntry} (h : ∀ c ∈ e.code.toList, c ≠ '"') :
    readUnsub e.unsubText = some e.unsubJson := by
  have hCode : ",\"code\":\"".toList = ',' :: "\"code\":\"".toList := rfl
  have hType : "\",\"type\":".toList = '"' :: ",\"type\":".toList := rfl
  have hEnd : "\x7d]\x7d".toList = '\x7d' :: ("]\x7d".toList ++ []) := rfl
  unfold readUnsub SubEntry.unsubText unSubFormat
  simp only [String.toList_append, List.append_assoc, hCode, hType, hEnd, List.cons_append]
  generalize "\x7b\"reqtype\":201,\"reqid\":2,\"session\":\"\",\"data\":[\x7b\"market\":".toList = p
  generalize "\"code\":\"".toList = p'
  generalize ",\"type\":".toList = p''
  generalize "]\x7d".toList = p'''
  have hInt : ∀ n : Int, ∀ d ∈ (toString n).toList, d ≠ ',' ∧ d ≠ '\x7d' :=
    fun n d hd => ⟨toString_int_ne hd (by decide), toString_int_ne hd (by decide)⟩
  simp only [dropPrefix_append, Option.bind_eq_bind, Option.bind_some,
    readUntil_append fun d hd => (hInt e.market d hd).1, readUntil_append h,
    readUntil_append fun d hd => (hInt e.type d hd).2, readInt_toString, String.ofList_toList]

theorem readsUnsub_readUnsub {env : Env} (h : env.parseJson = readUnsub) : ReadsUnsub env := by
  intro e hPlain
  rw [h]
  exact readUnsub_unsubText fun c hc => (hPlain.code_ne hc).2.1

/-- Subscriptions to the tick of one instrument parse, and the texts that end them. -/
def upstreamEnv : Env := { tickEnv with parseJson := readUnsub }

/-- A connection subscribes and goes, and upstream is told both. -/
theorem run_upstream_tick :
    ∃ t log, run upstreamEnv tickStart [.request 1 [0x01], .disconnect 1] = some (t, log) ∧
      (∀ pre x post, log = pre ++ x :: post → entriesOf upstreamEnv "2|2011|HSI" x.out =
        edges "2|2011|HSI" (acts ∅ (pre.flatMap Logged.acts)) x.acts) ∧
      ((entriesOf upstreamEnv "2|2011|HSI" (log.flatMap Logged.out)).getLast? = some true ↔
        ∃ conn, PubSub.LatestIsSub (log.flatMap Logged.acts) conn "2|2011|HSI") := by
  obtain ⟨t, log, hRun⟩ : ∃ t log,
      run upstreamEnv tickStart [.request 1 [0x01], .disconnect 1] = some (t, log) := ⟨_, _, rfl⟩
  refine ⟨t, log, hRun,
    run_upstream (readsUnsub_readUnsub rfl) ⟨rfl, rfl⟩ (by simp [Event.OfClient]) ?_ hRun _⟩
  refine ⟨fun key _ hEmptied => absurd hEmptied.1 (AList.notMem_empty key), ?_⟩
  intro s' out hFirst
  have hKeys : s'.keysOf 1 = ["2|2011|HSI"] := by
    cases hFirst
    rfl
  have hCtxs : 1 ∈ s'.ctxsOf "2|2011|HSI" := by
    cases hFirst
    decide
  refine ⟨?_, fun _ _ _ => trivial⟩
  intro key hIn _
  rw [hKeys] at hIn ⊢
  obtain rfl := List.mem_singleton.mp hIn
  exact ⟨hCtxs, rfl, ⟨2, 2011, "HSI"⟩, ⟨by decide, by decide, by decide, by decide⟩, rfl⟩

/-- After a connection has gone, the next one to subscribe the same key is not told upstream. -/
theorem run_upstream_silent :
    ¬∀ (env : Env) (s t : ConvertService) (evs : List Event) (log : List Logged) (key : String),
      ReadsUnsub env → s.Unsubscribed → (∀ ev ∈ evs, ev.OfClient) →
      run env s evs = some (t, log) →
      (∀ pre x post, log = pre ++ x :: post →
        entriesOf env key x.out = edges key (acts ∅ (pre.flatMap Logged.acts)) x.acts) ∧
      ((entriesOf env key (log.flatMap Logged.out)).getLast? = some true ↔
        ∃ conn, PubSub.LatestIsSub (log.flatMap Logged.acts) conn key) := by
  intro h
  have hThird := (h upstreamEnv tickStart _ [.request 1 [0x01], .disconnect 1, .request 2 [0x01]] _
    "2|2011|HSI" (readsUnsub_readUnsub rfl) ⟨rfl, rfl⟩ (by simp [Event.OfClient]) rfl).1
    [_, _] _ [] rfl
  have hUp : edges "2|2011|HSI" (acts ∅ [.sub 1 "2|2011|HSI", .drop 1])
      [.sub (2 : CContext) "2|2011|HSI"] = [true] := by
    rw [PubSub.edges_singleton]
    refine PubSub.edge_up ?_ ⟨2, PubSub.mem_act.mpr (.inl rfl)⟩
    rintro ⟨c, hc⟩
    simp [PubSub.mem_act, Act.Ends, eq_comm] at hc
  exact absurd (hThird.trans hUp) (by decide)

end DemoCode.FeedProxy
