import DemoCode.Lib.Overlay
import DemoCode.FeedProxy.ConvertUtils

/-! Updates of a quote.  Every field outside the name of the instrument is read from one key, so that
an update is known by the values of its keys, and updates one after the other are one update with the
last value of each key. -/

namespace DemoCode.FeedProxy

open Overlay

/-! ### Deltas -/

def Json.members : Json → List (String × Json)
  | .obj members => members
  | _ => []

/-- The value of a key. -/
def Json.member (json : Json) (key : String) : Option Json := json.members.lookup key

/-- An object, or null, which reads as one without members. -/
def Json.isObject : Json → Bool
  | .null => true
  | .obj _ => true
  | _ => false

/-- The deltas as one: each key with the value of the last delta that has it. -/
def Json.merge (deltas : List Json) : Json := .obj (deltas.reverse.flatMap Json.members)

theorem member_merge (deltas : List Json) :
    (Json.merge deltas).member = last (deltas.map Json.member) := by
  funext key
  rw [Json.member, Json.merge, Json.members, last, ← List.map_reverse]
  induction deltas.reverse with
  | nil => rfl
  | cons d ds ih =>
    rw [List.flatMap_cons, List.lookup_append, ih, List.map_cons, List.findSome?_cons]
    change (d.member key).or _ = _
    cases d.member key <;> rfl

theorem isMember_of_isObject {json : Json} (h : json.isObject) (key : String) :
    json.isMember key = some (json.member key).isSome := by
  cases json with
  | null => rfl
  | obj members => rfl
  | _ => cases h

theorem get_of_isObject {json : Json} (h : json.isObject) (key : String) :
    json.get key = some ((json.member key).getD .null) := by
  cases json with
  | null => rfl
  | obj members => rfl
  | _ => cases h

theorem isObject_of_isMember {json : Json} {key : String} {b : Bool} (h : json.isMember key = some b) :
    json.isObject := by
  cases json with
  | null => rfl
  | obj members => rfl
  | _ => cases h

/-! ### One key -/

/-- The time of a quote, eight hours on. -/
def timeOf (env : Env) (json : Json) : Option String := json.asString.bind fun s => timeAdd env s 8 0 0

def exchangeOf (json : Json) : Option Exchange := json.asInt.map marketId2Exchange

/-- Setting a member reads its value, where there is one. -/
theorem setMember_iff {α β γ : Type} {json : Json} {key : String} {read : Json → Option α}
    {post : β → α → Option β} {read' : Json → Option γ} {set : β → γ → β} {q q' : β}
    (hObject : json.isObject) (hPost : ∀ v, (read v).bind (post q) = (read' v).map (set q)) :
    setMember json key read post q = some q' ↔
      Reads read' (json.member key) ∧ q' = ((json.member key).bind read').elim q (set q) := by
  simp only [setMember, isMember_of_isObject hObject, get_of_isObject hObject, Option.bind_eq_bind,
    Option.bind_some]
  cases hMember : json.member key with
  | none => simp [eq_comm]
  | some v =>
    simp only [Option.isSome_some, if_true, Option.getD_some, hPost, Option.bind_some, reads_some]
    cases read' v with
    | none => simp
    | some a => simp [eq_comm]

/-- A step that writes one part of a quote. -/
def Writes {β : Type} (f : β → Option β) (w : Prop × (β → β)) : Prop :=
  ∀ q q', f q = some q' ↔ w.1 ∧ q' = w.2 q

theorem foldlM_writes {β : Type} {fs : List (β → Option β)} {ws : List (Prop × (β → β))}
    (h : List.Forall₂ Writes fs ws) {q q' : β} :
    fs.foldlM (fun q set => set q) q = some q' ↔
      (∀ w ∈ ws, w.1) ∧ q' = ws.foldl (fun q w => w.2 q) q := by
  induction h generalizing q with
  | nil => simp [eq_comm]
  | cons hFirst hRest ih =>
    rw [List.foldlM_cons, Option.bind_eq_bind, Option.bind_eq_some_iff, List.forall_mem_cons,
      List.foldl_cons]
    constructor
    · rintro ⟨next, hNext, hLast⟩
      obtain ⟨hReads, rfl⟩ := (hFirst q next).mp hNext
      obtain ⟨hAll, hEq⟩ := ih.mp hLast
      exact ⟨⟨hReads, hAll⟩, hEq⟩
    · rintro ⟨⟨hReads, hAll⟩, hEq⟩
      exact ⟨_, (hFirst q _).mpr ⟨hReads, rfl⟩, ih.mpr ⟨hAll, hEq⟩⟩

section

variable {json : Json} {key : String} {β : Type}

/-- A field of its own key. -/
theorem writes_of_read {α γ : Type} {read : Json → Option α} {post : β → α → Option β}
    {read' : Json → Option γ} {set : β → γ → β} {field : β → γ} (hObject : json.isObject)
    (hPost : ∀ q v, (read v).bind (post q) = (read' v).map (set q)) (hSelf : ∀ q, set q (field q) = q) :
    Writes (setMember json key read post) (Reads read' (json.member key),
      fun q => set q (pick read' (json.member key) (field q))) := by
  intro q q'
  rw [setMember_iff hObject (hPost q)]
  dsimp only [pick]
  cases (json.member key).bind read' with
  | none => simp [hSelf]
  | some a => rfl

theorem writes_set {γ : Type} {read : Json → Option γ} {set : β → γ → β} {field : β → γ}
    (hObject : json.isObject) (hSelf : ∀ q, set q (field q) = q) :
    Writes (setMember json key read fun q v => some (set q v)) (Reads read (json.member key),
      fun q => set q (pick read (json.member key) (field q))) := by
  refine writes_of_read hObject (fun q v => ?_) hSelf
  cases read v <;> rfl

end

/-! ### All keys -/

def intKeys : List String := ["market", "millisecond"]

def stringKeys : List String := ["commoditycode", "name", "enname"]

def doubleKeys : List String :=
  ["raiselimit", "downlimit", "lastclose", "lastsettle", "open", "high", "low", "now", "amount", "volume",
    "avg", "hold", "lasthold", "settle", "buyvolume", "sellvolume"]

/-- The keys of the levels, without their number. -/
def levelKeys : List String := ["buyprice", "buyvol", "sellprice", "sellvol"]

/-- Every value that an update reads can be read. -/
structure QuoteReads (env : Env) (f : String → Option Json) : Prop where
  ints : ∀ key ∈ intKeys, Reads Json.asInt (f key)
  strings : ∀ key ∈ stringKeys, Reads Json.asString (f key)
  time : Reads (timeOf env) (f "time")
  doubles : ∀ key ∈ doubleKeys, Reads Json.asDouble (f key)
  levels : ∀ key ∈ levelKeys, ∀ i < 10, Reads Json.asDouble (f (key ++ toString i))

/-- A delta that can be read. -/
def Json.Readable (env : Env) (delta : Json) : Prop := delta.isObject ∧ QuoteReads env delta.member

/-- A level after an update. -/
def updatedLevel (f : String → Option Json) (priceKey volKey : String) (i : Nat) (level : PriceEntry) :
    PriceEntry where
  price := pick Json.asDouble (f (priceKey ++ toString i)) level.price
  volume := pick Json.asDouble (f (volKey ++ toString i)) level.volume

def updatedLevels (f : String → Option Json) (priceKey volKey : String) (levels : List PriceEntry) :
    List PriceEntry :=
  levels.mapIdx (updatedLevel f priceKey volKey)

/-- A quote after an update: each field has the value of its key, where the update has that key. -/
def updated (env : Env) (f : String → Option Json) (q : QuoteInfo) : QuoteInfo where
  insInfo :=
    { exchange := pick exchangeOf (f "market") q.insInfo.exchange
      productCode := pick Json.asString (f "commoditycode") q.insInfo.productCode
      insId := q.insInfo.insId }
  insName := pick Json.asString (f "name") q.insName
  insEnName := pick Json.asString (f "enname") q.insEnName
  raiseLimit := pick Json.asDouble (f "raiselimit") q.raiseLimit
  downLimit := pick Json.asDouble (f "downlimit") q.downLimit
  lastClose := pick Json.asDouble (f "lastclose") q.lastClose
  preSettlePrice := pick Json.asDouble (f "lastsettle") q.preSettlePrice
  lastHold := pick Json.asDouble (f "lasthold") q.lastHold
  «open» := pick Json.asDouble (f "open") q.open
  high := pick Json.asDouble (f "high") q.high
  low := pick Json.asDouble (f "low") q.low
  close := pick Json.asDouble (f "now") q.close
  lastPrice := pick Json.asDouble (f "now") q.lastPrice
  totalAmount := pick Json.asDouble (f "amount") q.totalAmount
  totalVolume := pick Json.asDouble (f "volume") q.totalVolume
  avgPrice := pick Json.asDouble (f "avg") q.avgPrice
  time := pick (timeOf env) (f "time") q.time
  millisecond := pick Json.asInt (f "millisecond") q.millisecond
  hold := pick Json.asDouble (f "hold") q.hold
  settlePrice := pick Json.asDouble (f "settle") q.settlePrice
  buyVolume := pick Json.asDouble (f "buyvolume") q.buyVolume
  sellVolume := pick Json.asDouble (f "sellvolume") q.sellVolume
  bids := updatedLevels f "buyprice" "buyvol" q.bids
  asks := updatedLevels f "sellprice" "sellvol" q.asks

section

variable {env : Env} {json : Json}

/-- **The fields outside the book**. -/
theorem quoteFields_iff (hObject : json.isObject) {q q' : QuoteInfo} :
    (quoteFields env json).foldlM (fun q set => set q) q = some q' ↔
      ((∀ key ∈ intKeys, Reads Json.asInt (json.member key)) ∧
        (∀ key ∈ stringKeys, Reads Json.asString (json.member key)) ∧
        Reads (timeOf env) (json.member "time") ∧
        ∀ key ∈ doubleKeys, Reads Json.asDouble (json.member key)) ∧
      q' = { updated env json.member q with bids := q.bids, asks := q.asks } := by
  have hMarket : ∀ (q : QuoteInfo) v, (Json.asInt v).bind
      (fun n => some { q with insInfo := { q.insInfo with exchange := marketId2Exchange n } }) =
        (exchangeOf v).map fun e => { q with insInfo := { q.insInfo with exchange := e } } := by
    intro q v
    rw [exchangeOf]
    cases v.asInt <;> rfl
  have hTime : ∀ (q : QuoteInfo) v, (Json.asString v).bind (fun s => do
      let time ← timeAdd env s 8 0 0
      some { q with time }) = (timeOf env v).map fun time => { q with time } := by
    intro q v
    rw [timeOf]
    cases v.asString with
    | none => rfl
    | some s =>
      rw [Option.bind_some, Option.bind_some]
      cases timeAdd env s 8 0 0 <;> rfl
  have hExchange : Reads exchangeOf (json.member "market") ↔ Reads Json.asInt (json.member "market") := by
    simp only [Reads, exchangeOf, Option.isSome_map]
  apply Iff.trans
  · apply foldlM_writes
    apply List.Forall₂.cons (writes_of_read hObject hMarket fun _ => rfl)
    iterate 15 apply List.Forall₂.cons (writes_set hObject fun _ => rfl)
    apply List.Forall₂.cons (writes_of_read hObject hTime fun _ => rfl)
    iterate 6 apply List.Forall₂.cons (writes_set hObject fun _ => rfl)
    exact .nil
  simp only [List.forall_mem_cons, List.not_mem_nil, false_implies, implies_true, and_true, hExchange,
    intKeys, stringKeys, doubleKeys]
  refine and_congr ⟨?_, ?_⟩ Iff.rfl
  · tauto
  · tauto

/-- A price or a volume of a level that is there. -/
theorem setMember_level_iff (hObject : json.isObject) {key : String} {i : Nat}
    {set : PriceEntry → Num → PriceEntry} {field : PriceEntry → Num}
    (hSelf : ∀ level, set level (field level) = level) {levels levels' : List PriceEntry}
    (hLt : i < levels.length) :
    setMember json key Json.asDouble (setLevel i set) levels = some levels' ↔
      Reads Json.asDouble (json.member key) ∧ levels' = levels.modify i fun level =>
        set level (pick Json.asDouble (json.member key) (field level)) := by
  let put (levels : List PriceEntry) (n : Num) := levels.modify i fun level => set level n
  have hPost : ∀ v, (Json.asDouble v).bind (setLevel i set levels) =
      (Json.asDouble v).map (put levels) := by
    intro v
    cases v.asDouble with
    | none => rfl
    | some n =>
      rw [Option.bind_some, setLevel, if_pos hLt]
      rfl
  have hSame : levels.modify i (fun level => level) = levels := List.modify_id i levels
  rw [setMember_iff hObject hPost]
  cases hRead : (json.member key).bind Json.asDouble with
  | none => simp [pick, hRead, hSelf, hSame]
  | some n => simp [pick, hRead, put]

/-- Both numbers of a level. -/
theorem setBoth_iff (hObject : json.isObject) {priceKey volKey : String} {i : Nat}
    {levels after : List PriceEntry} (hLt : i < levels.length) :
    (do
      let levels ← setMember json (priceKey ++ toString i) Json.asDouble
        (setLevel i fun level n => { level with price := n }) levels
      setMember json (volKey ++ toString i) Json.asDouble
        (setLevel i fun level n => { level with volume := n }) levels) = some after ↔
      (Reads Json.asDouble (json.member (priceKey ++ toString i)) ∧
        Reads Json.asDouble (json.member (volKey ++ toString i))) ∧
      after = levels.modify i (updatedLevel json.member priceKey volKey i) := by
  rw [Option.bind_eq_bind, Option.bind_eq_some_iff]
  constructor
  · rintro ⟨mid, hPrice, hVolume⟩
    obtain ⟨hPriceReads, rfl⟩ := (setMember_level_iff hObject (fun _ => rfl) hLt).mp hPrice
    obtain ⟨hVolumeReads, rfl⟩ := (setMember_level_iff hObject (fun _ => rfl)
      (by rwa [List.length_modify])).mp hVolume
    rw [List.modify_modify_eq]
    exact ⟨⟨hPriceReads, hVolumeReads⟩, rfl⟩
  · rintro ⟨⟨hPriceReads, hVolumeReads⟩, rfl⟩
    refine ⟨_, (setMember_level_iff hObject (fun _ => rfl) hLt).mpr ⟨hPriceReads, rfl⟩, ?_⟩
    apply (setMember_level_iff hObject (fun _ => rfl) (by rwa [List.length_modify])).mpr
    rw [List.modify_modify_eq]
    exact ⟨hVolumeReads, rfl⟩

theorem mapIdx_first_succ {α : Type} (put : Nat → α → α) (xs : List α) (n : Nat) :
    (xs.mapIdx fun i x => if i < n then put i x else x).modify n (put n) =
      xs.mapIdx fun i x => if i < n + 1 then put i x else x := by
  apply List.ext_getElem (by simp)
  intro i hi hi'
  rw [List.getElem_modify, List.getElem_mapIdx, List.getElem_mapIdx]
  by_cases hEq : n = i
  · subst hEq
    rw [if_pos rfl, if_neg (Nat.lt_irrefl n), if_pos (Nat.lt_succ_self n)]
  · rw [if_neg hEq]
    by_cases hLt : i < n
    · rw [if_pos hLt, if_pos (by omega)]
    · rw [if_neg hLt, if_neg (by omega)]

theorem mapIdx_first_all {α : Type} (put : Nat → α → α) {xs : List α} {n : Nat} (h : xs.length ≤ n) :
    (xs.mapIdx fun i x => if i < n then put i x else x) = xs.mapIdx put := by
  apply List.ext_getElem (by simp)
  intro i hi hi'
  rw [List.length_mapIdx] at hi
  rw [List.getElem_mapIdx, List.getElem_mapIdx, if_pos (by omega)]

theorem mapIdx_first_none {α : Type} (put : Nat → α → α) (xs : List α) :
    (xs.mapIdx fun i x => if i < 0 then put i x else x) = xs := by
  apply List.ext_getElem List.length_mapIdx
  intro i hi hi'
  rw [List.getElem_mapIdx, if_neg (Nat.not_lt_zero i)]

/-- **One side of the book**. -/
theorem setLevels_iff (hObject : json.isObject) {priceKey volKey : String}
    {levels levels' : List PriceEntry} (hLength : levels.length = 10) :
    setLevels json priceKey volKey levels = some levels' ↔
      (∀ i < 10, Reads Json.asDouble (json.member (priceKey ++ toString i)) ∧
        Reads Json.asDouble (json.member (volKey ++ toString i))) ∧
      levels' = updatedLevels json.member priceKey volKey levels := by
  let put := updatedLevel json.member priceKey volKey
  -- the first levels are written, the others are as they were
  have hFirst : ∀ n ≤ 10, ∀ after, (List.range n).foldlM (fun levels i => do
      let levels ← setMember json (priceKey ++ toString i) Json.asDouble
        (setLevel i fun level n => { level with price := n }) levels
      setMember json (volKey ++ toString i) Json.asDouble
        (setLevel i fun level n => { level with volume := n }) levels) levels = some after ↔
      (∀ i < n, Reads Json.asDouble (json.member (priceKey ++ toString i)) ∧
        Reads Json.asDouble (json.member (volKey ++ toString i))) ∧
      after = levels.mapIdx fun i level => if i < n then put i level else level := by
    intro n
    induction n with
    | zero =>
      intro hn after
      rw [mapIdx_first_none]
      simp [eq_comm]
    | succ n ih =>
      intro hn after
      have hLt : n < (levels.mapIdx fun i level => if i < n then put i level else level).length := by
        rw [List.length_mapIdx]
        omega
      rw [List.range_succ, List.foldlM_append, Option.bind_eq_bind, Option.bind_eq_some_iff,
        ← mapIdx_first_succ]
      constructor
      · rintro ⟨mid, hBefore, hLast⟩
        obtain ⟨hReads, rfl⟩ := (ih (by omega) mid).mp hBefore
        rw [List.foldlM_cons, Option.bind_eq_bind, Option.bind_eq_some_iff] at hLast
        obtain ⟨last, hBoth, hEq⟩ := hLast
        cases hEq
        obtain ⟨hHere, rfl⟩ := (setBoth_iff hObject hLt).mp hBoth
        refine ⟨fun i hi => ?_, rfl⟩
        rcases Nat.lt_succ_iff_lt_or_eq.mp hi with hEarlier | rfl
        · exact hReads i hEarlier
        · exact hHere
      · rintro ⟨hReads, rfl⟩
        refine ⟨_, (ih (by omega) _).mpr ⟨fun i hi => hReads i (by omega), rfl⟩, ?_⟩
        rw [List.foldlM_cons, Option.bind_eq_bind, Option.bind_eq_some_iff]
        exact ⟨_, (setBoth_iff hObject hLt).mpr ⟨hReads n (Nat.lt_succ_self n), rfl⟩, rfl⟩
  rw [setLevels, hFirst 10 (Nat.le_refl 10), mapIdx_first_all put (Nat.le_of_eq hLength)]
  rfl

/-- **Update**: it returns when all that it reads can be read, and has then read every field from its
key. -/
theorem updateQuote_iff {template q q' : QuoteInfo} (hBids : q.bids.length = 10)
    (hAsks : q.asks.length = 10) : updateQuoteProtoByJson env template json q = some q' ↔
      json.Readable env ∧ q' = updated env json.member q := by
  have hFull : ¬(q.bids.length < 10 ∨ q.asks.length < 10) := by omega
  simp only [updateQuoteProtoByJson, if_neg hFull, Option.bind_eq_bind, Option.bind_some,
    Option.bind_eq_some_iff, Option.some.injEq]
  constructor
  · rintro ⟨fields, hFields, bids, hBidLevels, asks, hAskLevels, rfl⟩
    have hObject : json.isObject := by
      rw [quoteFields, List.foldlM_cons, Option.bind_eq_bind, Option.bind_eq_some_iff] at hFields
      obtain ⟨first, hMarket, -⟩ := hFields
      obtain ⟨b, hMember, -⟩ := Option.bind_eq_some_iff.mp hMarket
      exact isObject_of_isMember hMember
    obtain ⟨⟨hInts, hStrings, hTime, hDoubles⟩, rfl⟩ := (quoteFields_iff hObject).mp hFields
    obtain ⟨hBidReads, rfl⟩ := (setLevels_iff hObject hBids).mp hBidLevels
    obtain ⟨hAskReads, rfl⟩ := (setLevels_iff hObject hAsks).mp hAskLevels
    refine ⟨⟨hObject, hInts, hStrings, hTime, hDoubles, ?_⟩, rfl⟩
    simp only [levelKeys, List.forall_mem_cons, List.not_mem_nil, false_implies, implies_true, and_true]
    exact ⟨fun i hi => (hBidReads i hi).1, fun i hi => (hBidReads i hi).2,
      fun i hi => (hAskReads i hi).1, fun i hi => (hAskReads i hi).2⟩
  · rintro ⟨⟨hObject, hInts, hStrings, hTime, hDoubles, hLevels⟩, rfl⟩
    simp only [levelKeys, List.forall_mem_cons, List.not_mem_nil, false_implies, implies_true,
      and_true] at hLevels
    obtain ⟨hBuyPrice, hBuyVol, hSellPrice, hSellVol⟩ := hLevels
    refine ⟨_, (quoteFields_iff hObject).mpr ⟨⟨hInts, hStrings, hTime, hDoubles⟩, rfl⟩, _,
      (setLevels_iff hObject hBids).mpr ⟨fun i hi => ⟨hBuyPrice i hi, hBuyVol i hi⟩, rfl⟩, _,
      (setLevels_iff hObject hAsks).mpr ⟨fun i hi => ⟨hSellPrice i hi, hSellVol i hi⟩, rfl⟩, rfl⟩

/-! ### Updates in turn -/

variable {f g : String → Option Json}

theorem quoteReads_layer (hf : QuoteReads env f) (hg : QuoteReads env g) : QuoteReads env (layer f g) where
  ints key hIn := reads_or (hf.ints key hIn) (hg.ints key hIn)
  strings key hIn := reads_or (hf.strings key hIn) (hg.strings key hIn)
  time := reads_or hf.time hg.time
  doubles key hIn := reads_or (hf.doubles key hIn) (hg.doubles key hIn)
  levels key hIn i hi := reads_or (hf.levels key hIn i hi) (hg.levels key hIn i hi)

theorem quoteReads_last {fs : List (String → Option Json)} (h : ∀ f ∈ fs, QuoteReads env f) :
    QuoteReads env (last fs) := by
  induction fs with
  | nil => exact ⟨fun _ _ => nofun, fun _ _ => nofun, nofun, fun _ _ => nofun, fun _ _ _ _ => nofun⟩
  | cons f fs ih =>
    rw [List.forall_mem_cons] at h
    rw [last_cons]
    exact quoteReads_layer h.1 (ih h.2)

theorem updatedLevels_layer {priceKey volKey : String} {levels : List PriceEntry}
    (hLength : levels.length = 10)
    (hPrice : ∀ i < 10, Reads Json.asDouble (g (priceKey ++ toString i)))
    (hVol : ∀ i < 10, Reads Json.asDouble (g (volKey ++ toString i))) :
    updatedLevels (layer f g) priceKey volKey levels =
      updatedLevels g priceKey volKey (updatedLevels f priceKey volKey levels) := by
  apply List.ext_getElem (by simp [updatedLevels])
  intro i hi hi'
  rw [updatedLevels, List.length_mapIdx, hLength] at hi
  simp only [updatedLevels, List.getElem_mapIdx, updatedLevel, layer]
  rw [pick_or (hPrice i hi), pick_or (hVol i hi)]

/-- Two updates, one over the other, are the one after the other. -/
theorem updated_layer (hg : QuoteReads env g) {q : QuoteInfo} (hBids : q.bids.length = 10)
    (hAsks : q.asks.length = 10) : updated env (layer f g) q = updated env g (updated env f q) := by
  have hMarket : Reads exchangeOf (g "market") := by
    have hInt := hg.ints "market" (by decide)
    simpa only [Reads, exchangeOf, Option.isSome_map] using hInt
  have hExchange (old : Exchange) : pick exchangeOf (layer f g "market") old =
      pick exchangeOf (g "market") (pick exchangeOf (f "market") old) := pick_or hMarket old
  have hMillis (old : Int) : pick Json.asInt (layer f g "millisecond") old =
      pick Json.asInt (g "millisecond") (pick Json.asInt (f "millisecond") old) :=
    pick_or (hg.ints "millisecond" (by decide)) old
  have hTime (old : String) : pick (timeOf env) (layer f g "time") old =
      pick (timeOf env) (g "time") (pick (timeOf env) (f "time") old) := pick_or hg.time old
  have hDouble (key : String) (hIn : key ∈ doubleKeys) (old : Num) :
      pick Json.asDouble (layer f g key) old = pick Json.asDouble (g key) (pick Json.asDouble (f key) old) :=
    pick_or (hg.doubles key hIn) old
  have hString (key : String) (hIn : key ∈ stringKeys) (old : String) :
      pick Json.asString (layer f g key) old = pick Json.asString (g key) (pick Json.asString (f key) old) :=
    pick_or (hg.strings key hIn) old
  have hBuy : updatedLevels (layer f g) "buyprice" "buyvol" q.bids =
      updatedLevels g "buyprice" "buyvol" (updatedLevels f "buyprice" "buyvol" q.bids) :=
    updatedLevels_layer hBids (hg.levels _ (by decide)) (hg.levels _ (by decide))
  have hSell : updatedLevels (layer f g) "sellprice" "sellvol" q.asks =
      updatedLevels g "sellprice" "sellvol" (updatedLevels f "sellprice" "sellvol" q.asks) :=
    updatedLevels_layer hAsks (hg.levels _ (by decide)) (hg.levels _ (by decide))
  simp (disch := decide) only [updated, hExchange, hMillis, hTime, hDouble, hString, hBuy, hSell]

theorem updated_none (q : QuoteInfo) : updated env (fun _ => none) q = q := by
  have hLevels : ∀ levels : List PriceEntry, ∀ priceKey volKey,
      updatedLevels (fun _ => none) priceKey volKey levels = levels := by
    intro levels priceKey volKey
    apply List.ext_getElem List.length_mapIdx
    intro i hi hi'
    exact List.getElem_mapIdx
  simp only [updated, pick_none, hLevels]

theorem length_bids_updated (f : String → Option Json) (q : QuoteInfo) :
    (updated env f q).bids.length = q.bids.length := List.length_mapIdx

theorem length_asks_updated (f : String → Option Json) (q : QuoteInfo) :
    (updated env f q).asks.length = q.asks.length := List.length_mapIdx

/-- **Deltas in turn**. -/
theorem updateQuotes_iff {template q q' : QuoteInfo} {deltas : List Json} (hBids : q.bids.length = 10)
    (hAsks : q.asks.length = 10) :
    deltas.foldlM (fun q delta => updateQuoteProtoByJson env template delta q) q = some q' ↔
      (∀ delta ∈ deltas, delta.Readable env) ∧
        q' = updated env (last (deltas.map Json.member)) q := by
  induction deltas generalizing q with
  | nil =>
    rw [List.map_nil, last_nil, updated_none]
    simp [eq_comm]
  | cons delta deltas ih =>
    have hRest := ih (q := updated env delta.member q)
      ((length_bids_updated _ q).trans hBids) ((length_asks_updated _ q).trans hAsks)
    have hOver : (∀ delta ∈ deltas, delta.Readable env) →
        updated env (last ((delta :: deltas).map Json.member)) q =
          updated env (last (deltas.map Json.member)) (updated env delta.member q) := by
      intro hAll
      rw [List.map_cons, last_cons]
      refine updated_layer (quoteReads_last ?_) hBids hAsks
      rw [List.forall_mem_map]
      exact fun d hIn => (hAll d hIn).2
    rw [List.foldlM_cons, Option.bind_eq_bind, Option.bind_eq_some_iff, List.forall_mem_cons]
    constructor
    · rintro ⟨next, hFirst, hLater⟩
      obtain ⟨hReadable, rfl⟩ := (updateQuote_iff hBids hAsks).mp hFirst
      obtain ⟨hAll, rfl⟩ := hRest.mp hLater
      exact ⟨⟨hReadable, hAll⟩, (hOver hAll).symm⟩
    · rintro ⟨⟨hReadable, hAll⟩, rfl⟩
      exact ⟨_, (updateQuote_iff hBids hAsks).mpr ⟨hReadable, rfl⟩, hRest.mpr ⟨hAll, hOver hAll⟩⟩

end

/-- A quote with its levels, as the template has them. -/
def leveledQuote : QuoteInfo := { bids := List.replicate 10 {}, asks := List.replicate 10 {} }

/-- Two deltas, the second of which has a key of the first. -/
def twoDeltas : List Json :=
  [.obj [("now", .int 1), ("buyprice0", .int 2)], .obj [("buyvol0", .int 3), ("now", .int 4)]]

end DemoCode.FeedProxy
