import Mathlib.Data.Int.Order.Basic
import Mathlib.Tactic.SplitIfs
import DemoCode.FeedProxy.ConvertUtils

/-! The trading periods of the markets: upstream gives minutes from midnight in its own time zone, the
tables keep local times, eight hours on. -/

namespace DemoCode.FeedProxy

/-! ### One time -/

/-- A time of day as HHMMSS, so many minutes from midnight in the time zone of upstream. -/
def IsLocalTime (minutes hhmmss : Int) : Prop :=
  ∃ hour min, 0 ≤ hour ∧ hour < 24 ∧ 0 ≤ min ∧ min < 60 ∧ hhmmss = hour * 10000 + min * 100 ∧
    hour * 60 + min = (480 + minutes) % 1440

/-- Local midnight of an earlier day than upstream's yesterday. -/
def EarlierMidnight (minutes : Int) : Prop := minutes ≤ -1920 ∧ (480 + minutes) % 1440 = 0

instance (minutes : Int) : Decidable (EarlierMidnight minutes) := inferInstanceAs (Decidable (_ ∧ _))

theorem isLocalTime_iff {minutes hhmmss : Int} : IsLocalTime minutes hhmmss ↔
    hhmmss = (480 + minutes) % 1440 / 60 * 10000 + (480 + minutes) % 1440 % 60 * 100 := by
  constructor
  · rintro ⟨hour, min, hHour, hHour', hMin, hMin', rfl, hSum⟩
    have hHourEq : (480 + minutes) % 1440 / 60 = hour := by omega
    have hMinEq : (480 + minutes) % 1440 % 60 = min := by omega
    rw [hHourEq, hMinEq]
  · rintro rfl
    exact ⟨_, _, by omega, by omega, by omega, by omega, rfl, by omega⟩

theorem calHumanTime_pos {time : Int} (h : 0 < time) :
    calHumanTime time = (8 + time / 60) % 24 * 10000 + time % 60 * 100 := by
  rw [calHumanTime, if_pos h, Int.tdiv_eq_ediv_of_nonneg (Int.le_of_lt h), Int.tmod_eq_emod_of_nonneg (Int.le_of_lt h),
    Int.tmod_eq_emod_of_nonneg (by omega)]

/-- Before midnight, counted in `back` minutes: the hour is brought above zero, and then an hour is
borrowed for the minutes. -/
theorem calHumanTime_neg {back : Int} (h : 0 < back) :
    calHumanTime (-back) =
      (if back % 60 = 0 then
        if 8 < back / 60 then 24 - (back / 60 - 8) % 24 else 8 - back / 60
      else
        (7 - back / 60) % 24) * 10000 + (-back) % 60 * 100 := by
  have hHour : (-back).tdiv 60 = -(back / 60) := by
    rw [Int.neg_tdiv, Int.tdiv_eq_ediv_of_nonneg (Int.le_of_lt h)]
  have hMin : (-back).tmod 60 = -(back % 60) := by
    rw [Int.neg_tmod, Int.tmod_eq_emod_of_nonneg (Int.le_of_lt h)]
  have hWrap : 8 < back / 60 → (8 + -(back / 60)).tmod 24 = -((back / 60 - 8) % 24) := by
    intro hFar
    have hNeg : 8 + -(back / 60) = -(back / 60 - 8) := by omega
    rw [hNeg, Int.neg_tmod, Int.tmod_eq_emod_of_nonneg (by omega)]
  rw [calHumanTime, if_neg (by omega), if_pos (by omega), hHour, hMin]
  dsimp only
  generalize (8 + -(back / 60)).tmod 24 = wrapped at hWrap ⊢
  split_ifs <;> omega

/-- **`CalHumanTime`** is right for every number of minutes but the earlier midnights. -/
theorem calHumanTime_iff (time : Int) :
    IsLocalTime time (calHumanTime time) ↔ ¬EarlierMidnight time := by
  rw [isLocalTime_iff, EarlierMidnight]
  rcases lt_trichotomy time 0 with hNeg | rfl | hPos
  · obtain ⟨back, rfl⟩ : ∃ back, time = -back := ⟨-time, by omega⟩
    rw [calHumanTime_neg (by omega)]
    split
    · split <;> omega
    · omega
  · decide
  · rw [calHumanTime_pos hPos]
    omega

/-! ### The markets of a response -/

/-- The opening and closing minutes of a period. -/
def Json.period (json : Json) : Option (Int × Int) := do
  some (← json.getInt "open", ← json.getInt "close")

/-- A market of a response with its periods. -/
def Json.marketPeriods (json : Json) : Option (Int × List (Int × Int)) := do
  let id ← json.getInt "market"
  let periods ← (← (← json.get "openclosetime").elemsFrom 0).mapM Json.period
  some (id, periods)

/-- The periods of a market in a response; the last element for a market is the one that stays. -/
def Json.periodsOf (resJson : Json) (id : Int) : Option (List (Int × Int)) := do
  let markets ← (← (← resJson.get "data").get "market").elemsFrom 0
  (← markets.mapM Json.marketPeriods).reverse.lookup id

/-- A period as it is stored. -/
def timeSpin (period : Int × Int) : TimeSpin := ⟨calHumanTime period.1, calHumanTime period.2⟩

/-- Both ends of a stored period are local times. -/
def OnTime (period : Int × Int) (spin : TimeSpin) : Prop :=
  IsLocalTime period.1 spin.start ∧ IsLocalTime period.2 spin.end

theorem onTime_iff (period : Int × Int) : OnTime period (timeSpin period) ↔
    ¬EarlierMidnight period.1 ∧ ¬EarlierMidnight period.2 :=
  and_congr (calHumanTime_iff period.1) (calHumanTime_iff period.2)

theorem forall₂_onTime_iff (periods : List (Int × Int)) :
    List.Forall₂ OnTime periods (periods.map timeSpin) ↔
      ∀ period ∈ periods, ¬EarlierMidnight period.1 ∧ ¬EarlierMidnight period.2 := by
  induction periods with
  | nil => exact iff_of_true .nil fun _ hIn => absurd hIn List.not_mem_nil
  | cons period periods ih =>
    rw [List.map_cons, List.forall₂_cons, onTime_iff, ih, List.forall_mem_cons]

theorem mapM_map {α β γ : Type} {f : α → Option γ} {g : α → Option β} {h : β → γ}
    (hEach : ∀ a, f a = (g a).map h) (as : List α) : as.mapM f = (as.mapM g).map (List.map h) := by
  induction as with
  | nil => rfl
  | cons a as ih =>
    rw [List.mapM_cons, List.mapM_cons, hEach, ih]
    cases g a with
    | none => rfl
    | some b => cases as.mapM g <;> rfl

/-- **One market** is stored with the local times of its periods. -/
theorem addMarket_periods {x x' : ConvertUtils × List Exchange} {market : Json}
    (h : addMarket x market = some x') :
    ∃ id periods, market.marketPeriods = some (id, periods) ∧
      x'.1.market2timeMap = x.1.market2timeMap.insert id (periods.map timeSpin) := by
  simp only [addMarket, Option.bind_eq_bind, Option.bind_eq_some_iff] at h
  obtain ⟨id, hId, openClose, hOpenClose, elems, hElems, spins, hSpins, h⟩ := h
  have hEach : ∀ period : Json, (do
      let start ← period.getInt "open"
      let stop ← period.getInt "close"
      some (⟨calHumanTime start, calHumanTime stop⟩ : TimeSpin)) = period.period.map timeSpin := by
    intro period
    rw [Json.period]
    cases period.getInt "open" with
    | none => rfl
    | some start => cases period.getInt "close" <;> rfl
  obtain ⟨periods, hPeriods, rfl⟩ := Option.map_eq_some_iff.mp ((mapM_map hEach elems).symm.trans hSpins)
  refine ⟨id, periods, ?_, ?_⟩
  · simp only [Json.marketPeriods, hId, hOpenClose, hElems, hPeriods, Option.bind_eq_bind, Option.bind_some]
  · split at h
    · cases h
      rfl
    · simp only [Option.bind_eq_some_iff, Option.some.injEq] at h
      obtain ⟨-, -, -, -, -, -, rfl⟩ := h
      rfl

/-- **All markets**: the last element for a market decides. -/
theorem foldlM_addMarket_periods {markets : List Json} {x x' : ConvertUtils × List Exchange}
    (h : markets.foldlM addMarket x = some x') :
    ∃ ms, markets.mapM Json.marketPeriods = some ms ∧ ∀ id, x'.1.market2timeMap.lookup id =
      ((ms.reverse.lookup id).map (List.map timeSpin)).or (x.1.market2timeMap.lookup id) := by
  induction markets generalizing x with
  | nil =>
    cases h
    exact ⟨[], rfl, fun _ => rfl⟩
  | cons market markets ih =>
    rw [List.foldlM_cons, Option.bind_eq_bind, Option.bind_eq_some_iff] at h
    obtain ⟨next, hFirst, hRest⟩ := h
    obtain ⟨id, periods, hPeriods, hMap⟩ := addMarket_periods hFirst
    obtain ⟨ms, hMs, hLookup⟩ := ih hRest
    refine ⟨(id, periods) :: ms, ?_, fun id' => ?_⟩
    · rw [List.mapM_cons, hPeriods, hMs]
      rfl
    · rw [hLookup, hMap, List.reverse_cons, List.lookup_append]
      by_cases hSame : id' = id
      · subst hSame
        rw [AList.lookup_insert]
        cases ms.reverse.lookup id' <;> simp
      · rw [AList.lookup_insert_ne hSame]
        rw [List.lookup_cons, beq_false_of_ne hSame, List.lookup_nil, Option.or_none]

/-- Markets are read from the responses to internal requests only. -/
theorem marketRes {env : Env} {u u' : ConvertUtils} {resJson : Json} {reqId : Int}
    {msgs : List (MsgCarrier Reply)} (h : jsonRes2ProtoRes env u resJson = some (some (reqId, msgs, u')))
    (hType : resJson.getInt "reqtype" = some 50) : internalRes u 50 resJson = some (some u') := by
  simp only [jsonRes2ProtoRes, Option.bind_eq_bind, Option.bind_eq_some_iff] at h
  obtain ⟨id, -, h⟩ := h
  by_cases hNoId : id = -1
  · rw [if_pos hNoId] at h
    cases h
  rw [if_neg hNoId, hType, Option.bind_some] at h
  by_cases hInternal : id < reqIdStart ∧ id > 0
  · rw [if_pos hInternal, Option.bind_eq_some_iff] at h
    obtain ⟨inner, hInner, h⟩ := h
    obtain ⟨u₁, rfl, hEq⟩ := Option.map_eq_some_iff.mp (Option.some.inj h)
    cases hEq
    exact hInner
  · rw [if_neg hInternal] at h
    cases h

theorem marketRes_periods {u u' : ConvertUtils} {resJson : Json}
    (h : internalRes u 50 resJson = some (some u')) (id : Int) : u'.market2timeMap.lookup id =
      ((resJson.periodsOf id).map (List.map timeSpin)).or (u.market2timeMap.lookup id) := by
  have hMarkets : internalRes u 50 resJson = (do
      let markets ← (← (← resJson.get "data").get "market").elemsFrom 0
      some (some (← markets.foldlM addMarket (u, [])).1)) := rfl
  rw [hMarkets] at h
  simp only [Option.bind_eq_bind, Option.bind_eq_some_iff, Option.some.injEq] at h
  obtain ⟨data, hData, market, hMarket, markets, hElems, x, hAdd, rfl⟩ := h
  obtain ⟨ms, hMs, hLookup⟩ := foldlM_addMarket_periods hAdd
  rw [hLookup]
  simp only [Json.periodsOf, hData, hMarket, hElems, hMs, Option.bind_eq_bind, Option.bind_some]

/-- **The stored periods** of a response are local times, exactly when none of them opens or closes at
an earlier midnight. -/
theorem tradingPeriods_iff {env : Env} {u u' : ConvertUtils} {resJson : Json} {reqId : Int}
    {msgs : List (MsgCarrier Reply)} (h : jsonRes2ProtoRes env u resJson = some (some (reqId, msgs, u')))
    (hType : resJson.getInt "reqtype" = some 50) :
    (∀ id periods, resJson.periodsOf id = some periods → ∃ spins,
        u'.market2timeMap.lookup id = some spins ∧ List.Forall₂ OnTime periods spins) ↔
      ∀ id periods, resJson.periodsOf id = some periods →
        ∀ period ∈ periods, ¬EarlierMidnight period.1 ∧ ¬EarlierMidnight period.2 := by
  have hStored : ∀ id periods, resJson.periodsOf id = some periods →
      u'.market2timeMap.lookup id = some (periods.map timeSpin) := by
    intro id periods hPeriods
    rw [marketRes_periods (marketRes h hType), hPeriods]
    rfl
  constructor
  · intro hAll id periods hPeriods
    obtain ⟨spins, hSpins, hOnTime⟩ := hAll id periods hPeriods
    rw [hStored id periods hPeriods] at hSpins
    cases hSpins
    exact (forall₂_onTime_iff periods).mp hOnTime
  · intro hAll id periods hPeriods
    exact ⟨_, hStored id periods hPeriods, (forall₂_onTime_iff periods).mpr (hAll id periods hPeriods)⟩

/-- The response with one market, open for one period. -/
def marketPage (market start stop : Int) : Json :=
  .obj [("reqid", .int 4), ("reqtype", .int 50), ("data", .obj [("market", .arr [
    .obj [("market", .int market), ("openclosetime", .arr [
      .obj [("open", .int start), ("close", .int stop)]])]])])]

/-- A market that opens at 9:15 and closes at 3:00. -/
theorem tradingPeriods_iff_overnight : ∃ u',
    jsonRes2ProtoRes deafEnv {} (marketPage 2011 75 (-300)) = some (some (4, [], u')) ∧
      ((∀ id periods, (marketPage 2011 75 (-300)).periodsOf id = some periods → ∃ spins,
          u'.market2timeMap.lookup id = some spins ∧ List.Forall₂ OnTime periods spins) ↔
        ∀ id periods, (marketPage 2011 75 (-300)).periodsOf id = some periods →
          ∀ period ∈ periods, ¬EarlierMidnight period.1 ∧ ¬EarlierMidnight period.2) :=
  ⟨_, rfl, @tradingPeriods_iff deafEnv {} _ (marketPage 2011 75 (-300)) 4 [] rfl rfl⟩

/-- A market that opens at midnight, 32 hours before upstream's day begins: the hour stored is 24. -/
theorem midnight_stored_as_24 : ∃ u',
    jsonRes2ProtoRes deafEnv {} (marketPage 2011 (-1920) 0) = some (some (4, [], u')) ∧
      ¬∀ id periods, (marketPage 2011 (-1920) 0).periodsOf id = some periods → ∃ spins,
        u'.market2timeMap.lookup id = some spins ∧ List.Forall₂ OnTime periods spins := by
  refine ⟨_, rfl, fun hAll => ?_⟩
  obtain ⟨spins, hSpins, hOnTime⟩ := hAll 2011 [(-1920, 0)] rfl
  obtain rfl : spins = [⟨240000, 80000⟩] := (Option.some.inj hSpins).symm
  obtain ⟨⟨hour, min, -, hHour, -, hMin, hEq, -⟩, -⟩ := (List.forall₂_cons.mp hOnTime).1
  dsimp only at hEq
  omega

end DemoCode.FeedProxy
