import DemoCode.Lib.Calendar
import DemoCode.FeedProxy.ConvertUtils

/-! The times that `TimeAdd` reads and writes: the separators that it notes in `symbolPos`, and what is
left of a time that is shifted and shifted back. -/

namespace DemoCode.FeedProxy

/-! ### The scan for separators -/

def isSeparator (c : Char) : Bool := c = '-' || c = ' ' || c = ':'

/-- The scan of a time, from a position and a number of separators on: what it writes to `symbolPos`,
each position with its index there. -/
def separatorScan (i symbolSums : Nat) : List Char → List (Nat × Nat)
  | [] => []
  | c :: cs =>
    if isSeparator c then (symbolSums, i) :: separatorScan (i + 1) (symbolSums + 1) cs
    else separatorScan (i + 1) symbolSums cs

theorem map_fst_separatorScan (i symbolSums : Nat) (cs : List Char) :
    (separatorScan i symbolSums cs).map Prod.fst = List.range' symbolSums (cs.countP isSeparator) := by
  induction cs generalizing i symbolSums with
  | nil => rfl
  | cons c cs ih =>
    rw [separatorScan, List.countP_cons]
    split
    · rw [List.map_cons, ih, List.range'_succ]
    · exact ih _ _

theorem map_snd_separatorScan (i symbolSums : Nat) (cs : List Char) :
    (separatorScan i symbolSums cs).map Prod.snd =
      ((cs.zipIdx i).filter fun x => isSeparator x.1).map Prod.snd := by
  induction cs generalizing i symbolSums with
  | nil => rfl
  | cons c cs ih =>
    rw [separatorScan, List.zipIdx_cons, List.filter_cons]
    split
    · rw [List.map_cons, List.map_cons, ih]
    · exact ih _ _

/-- The positions that `TimeAdd` goes on with are those that the scan writes. -/
theorem symbolPositions_eq (cs : List Char) :
    symbolPositions cs = (separatorScan 0 0 cs).map Prod.snd :=
  (map_snd_separatorScan 0 0 cs).symm

theorem length_symbolPositions (cs : List Char) :
    (symbolPositions cs).length = cs.countP isSeparator := by
  rw [symbolPositions_eq, List.length_map, ← List.length_map Prod.fst, map_fst_separatorScan,
    List.length_range']

/-- **The scan** writes to the five places of `symbolPos` only, exactly when a time has no more than
five separators. -/
theorem symbolPos_inRange_iff (time : String) :
    (∀ x ∈ separatorScan 0 0 time.toList, x.1 ≤ 4) ↔ time.toList.countP isSeparator ≤ 5 := by
  have hIndices : (∀ x ∈ separatorScan 0 0 time.toList, x.1 ≤ 4) ↔
      ∀ n ∈ (separatorScan 0 0 time.toList).map Prod.fst, n ≤ 4 := by rw [List.forall_mem_map]
  rw [hIndices, map_fst_separatorScan]
  constructor
  · intro hAll
    by_contra hMany
    have hLast := hAll 5 (List.mem_range'_1.mpr (by omega))
    omega
  · intro hFew n hIn
    have hRange := List.mem_range'_1.mp hIn
    omega

/-- Where the scan leaves the array, nothing is known of the result. -/
theorem timeAdd_overrun (env : Env) {time : String} (h : 5 < time.toList.countP isSeparator)
    (addHours addMinutes addSeconds : Int) :
    timeAdd env time addHours addMinutes addSeconds = none := by
  rw [← length_symbolPositions] at h
  unfold timeAdd
  dsimp only
  split
  · rename_i hFive
    rw [hFive] at h
    exact absurd h (Nat.lt_irrefl 5)
  · exact if_neg (by omega)

/-- A client that asks for the lines from a time with a time zone on. -/
def zonedEnv : Env :=
  { deafEnv with
    parseCarrier := fun _ => some ⟨7, .req, .kLine, []⟩
    parseQueryKLine := fun _ => some ⟨8, 15, "700", "2024-01-01 00:00:00-08", ""⟩ }

/-- The request of a client makes the scan write behind the end of `symbolPos`. -/
theorem symbolPos_overrun : protoReq2JsonReq zonedEnv {} 11 [] = none ∧
    ∃ q ∈ zonedEnv.parseQueryKLine [],
      ¬∀ x ∈ separatorScan 0 0 q.startTime.toList, x.1 ≤ 4 := by
  refine ⟨rfl, _, rfl, fun hAll => ?_⟩
  have hSixth := hAll (5, 19) (by decide)
  exact absurd hSixth (by decide)

/-! ### Numbers of a fixed width -/

/-- A number of two digits. -/
def twoDigits (n : Nat) : List Char := [(n / 10).digitChar, (n % 10).digitChar]

/-- A number of four digits. -/
def fourDigits (n : Nat) : List Char := twoDigits (n / 100) ++ twoDigits (n % 100)

theorem isSeparator_digitChar (n : Nat) : isSeparator n.digitChar = false := by
  have hMinus : n.digitChar ≠ '-' := Nat.digitChar_ne _ rfl
  have hBlank : n.digitChar ≠ ' ' := Nat.digitChar_ne _ rfl
  have hColon : n.digitChar ≠ ':' := Nat.digitChar_ne _ rfl
  rw [isSeparator, decide_eq_false hMinus, decide_eq_false hBlank, decide_eq_false hColon]
  rfl

theorem isDigit_twoDigits {n : Nat} (h : n < 100) : ∀ c ∈ twoDigits n, c.isDigit := by
  intro c hc
  rcases List.mem_pair.mp hc with rfl | rfl
  · rw [Nat.isDigit_digitChar, decide_eq_true_iff]
    omega
  · rw [Nat.isDigit_digitChar, decide_eq_true_iff]
    omega

theorem ofDigitChars_twoDigits {n : Nat} (h : n < 100) (before : Nat) :
    Nat.ofDigitChars 10 (twoDigits n) before = 100 * before + n := by
  rw [twoDigits, Nat.ofDigitChars_cons_digitChar_of_lt_ten (by omega),
    Nat.ofDigitChars_cons_digitChar_of_lt_ten (by omega), Nat.ofDigitChars_nil]
  omega

theorem atoi_twoDigits {n : Int} (hLow : 0 ≤ n) (hHigh : n < 100) :
    atoi (String.ofList (twoDigits n.toNat)) = n := by
  have hNumber := ofDigitChars_twoDigits (show n.toNat < 100 by omega) 0
  rw [atoi_digits (isDigit_twoDigits (by omega)) (by omega), hNumber]
  omega

theorem atoi_fourDigits {n : Int} (hLow : 0 ≤ n) (hHigh : n < 10000) :
    atoi (String.ofList (fourDigits n.toNat)) = n := by
  have hNumber : Nat.ofDigitChars 10 (fourDigits n.toNat) 0 = n.toNat := by
    rw [fourDigits, Nat.ofDigitChars_append, ofDigitChars_twoDigits (by omega),
      ofDigitChars_twoDigits (by omega)]
    omega
  rw [atoi_digits, hNumber]
  · exact Int.toNat_of_nonneg hLow
  · intro c hc
    rcases List.mem_append.mp hc with hFirst | hSecond
    · exact isDigit_twoDigits (by omega) c hFirst
    · exact isDigit_twoDigits (by omega) c hSecond
  · omega

theorem padded_twoDigits {n : Int} (hLow : 0 ≤ n) (hHigh : n < 100) :
    padded '0' 2 n = String.ofList (twoDigits n.toNat) := by
  obtain ⟨n, rfl⟩ := Int.eq_ofNat_of_zero_le hLow
  rw [Int.toNat_natCast]
  have hText : (toString (n : Int).natAbs).toList = Nat.toDigits 10 n := by
    rw [Int.natAbs_natCast]
    exact Nat.toList_repr
  have hSign : ¬(n : Int) < 0 := by omega
  rw [padded, hText, if_neg hSign, if_pos rfl]
  by_cases hSmall : n < 10
  · have hZero : n / 10 = 0 := Nat.div_eq_of_lt hSmall
    rw [Nat.toDigits_of_lt_base hSmall, twoDigits, Nat.mod_eq_of_lt hSmall, hZero]
    rfl
  · rw [Nat.toDigits_of_base_le (by decide) (by omega), Nat.toDigits_of_lt_base (by omega)]
    rfl

theorem padded_fourDigits {n : Int} (hLow : 1000 ≤ n) (hHigh : n < 10000) :
    padded ' ' 4 n = String.ofList (fourDigits n.toNat) := by
  obtain ⟨n, rfl⟩ := Int.eq_ofNat_of_zero_le (show 0 ≤ n by omega)
  rw [Int.toNat_natCast]
  have hText : (toString (n : Int).natAbs).toList = Nat.toDigits 10 n := by
    rw [Int.natAbs_natCast]
    exact Nat.toList_repr
  have hDigits : Nat.toDigits 10 n = fourDigits n := by
    rw [Nat.toDigits_of_base_le (by decide) (by omega), Nat.toDigits_of_base_le (by decide) (by omega),
      Nat.toDigits_of_base_le (by decide) (by omega), Nat.toDigits_of_lt_base (by omega)]
    have hTens : n / 10 % 10 = n % 100 / 10 := by omega
    have hOnes : n % 100 % 10 = n % 10 := by omega
    have hHundreds : n / 10 / 10 = n / 100 := by omega
    rw [fourDigits, twoDigits, twoDigits, hOnes, ← hTens, hHundreds]
    rfl
  have hSign : ¬(n : Int) < 0 := by omega
  rw [padded, hText, if_neg hSign, hDigits]
  rfl

/-! ### Times -/

/-- A time as YYYY-MM-DD HH:MM:SS. -/
def Tm.chars (tm : Tm) : List Char :=
  fourDigits (tm.tmYear + 1900).toNat ++ '-' :: (twoDigits (tm.tmMon + 1).toNat ++
    '-' :: (twoDigits tm.tmMday.toNat ++ ' ' :: (twoDigits tm.tmHour.toNat ++
      ':' :: (twoDigits tm.tmMin.toNat ++ ':' :: twoDigits tm.tmSec.toNat))))

def Tm.text (tm : Tm) : String := String.ofList tm.chars

def Tm.date (tm : Tm) : Calendar.Date := ⟨tm.tmYear + 1900, tm.tmMon.toNat, tm.tmMday.toNat⟩

/-- A time of a day that exists. -/
structure Tm.Normal (tm : Tm) : Prop where
  mon : 0 ≤ tm.tmMon
  date : tm.date.Valid
  hour : 0 ≤ tm.tmHour ∧ tm.tmHour < 24
  min : 0 ≤ tm.tmMin ∧ tm.tmMin < 60
  sec : 0 ≤ tm.tmSec ∧ tm.tmSec < 60

/-- The year has four digits. -/
def Tm.FourDigits (tm : Tm) : Prop := 1000 ≤ tm.tmYear + 1900 ∧ tm.tmYear + 1900 ≤ 9999

instance (tm : Tm) : Decidable tm.FourDigits := inferInstanceAs (Decidable (_ ∧ _))

structure Tm.Valid (tm : Tm) : Prop extends tm.Normal where
  year : tm.FourDigits

theorem Tm.Valid.mon_lt {tm : Tm} (h : tm.Valid) : tm.tmMon < 12 := by
  have hDate := h.date.1
  have hMon := h.mon
  dsimp only [Tm.date] at hDate
  omega

theorem Tm.Valid.mday {tm : Tm} (h : tm.Valid) : 1 ≤ tm.tmMday ∧ tm.tmMday < 32 := by
  have hLong : ∀ leap : Bool, ∀ month < 12, Calendar.daysInMonth leap month ≤ 31 := by decide
  obtain ⟨hMonth, hFirst, hLast⟩ := h.date
  have hMost := hLong (Calendar.isLeap tm.date.year) tm.date.month hMonth
  dsimp only [Tm.date] at hFirst hLast hMost
  omega

theorem symbolPositions_chars (tm : Tm) : symbolPositions tm.chars = [4, 7, 10, 13, 16] := by
  rw [symbolPositions_eq]
  simp only [Tm.chars, fourDigits, twoDigits, List.cons_append, List.nil_append, separatorScan,
    isSeparator_digitChar]
  rfl

/-- The number between two positions of a time. -/
def timeField (cs : List Char) (start stop : Nat) : Int := atoi (String.ofList ((cs.take stop).drop start))

/-- The numbers of a valid time are read back. -/
theorem Tm.Valid.fields {tm : Tm} (h : tm.Valid) :
    timeField tm.chars 0 4 = tm.tmYear + 1900 ∧ timeField tm.chars 5 7 = tm.tmMon + 1 ∧
      timeField tm.chars 8 10 = tm.tmMday ∧ timeField tm.chars 11 13 = tm.tmHour ∧
      timeField tm.chars 14 16 = tm.tmMin ∧ timeField tm.chars 17 tm.chars.length = tm.tmSec := by
  obtain ⟨hYear, hYear'⟩ := h.year
  have hMon := h.mon
  have hMon' := h.mon_lt
  obtain ⟨hMday, hMday'⟩ := h.mday
  obtain ⟨hHour, hHour'⟩ := h.hour
  obtain ⟨hMin, hMin'⟩ := h.min
  obtain ⟨hSec, hSec'⟩ := h.sec
  exact ⟨atoi_fourDigits (by omega) (by omega), atoi_twoDigits (by omega) (by omega),
    atoi_twoDigits (by omega) (by omega), atoi_twoDigits hHour (by omega),
    atoi_twoDigits hMin (by omega), atoi_twoDigits hSec (by omega)⟩

/-- What `snprintf` makes of a time. -/
def Tm.printed (tm : Tm) : String :=
  let sbuffer := padded ' ' 4 (tm.tmYear + 1900) ++ "-" ++ padded '0' 2 (tm.tmMon + 1) ++
    "-" ++ padded '0' 2 tm.tmMday ++ " " ++ padded '0' 2 tm.tmHour ++ ":" ++
    padded '0' 2 tm.tmMin ++ ":" ++ padded '0' 2 tm.tmSec
  String.ofList (sbuffer.toList.take 24)

theorem Tm.Valid.printed {tm : Tm} (h : tm.Valid) : tm.printed = tm.text := by
  obtain ⟨hYear, hYear'⟩ := h.year
  have hMon := h.mon
  have hMon' := h.mon_lt
  obtain ⟨hMday, hMday'⟩ := h.mday
  obtain ⟨hHour, hHour'⟩ := h.hour
  obtain ⟨hMin, hMin'⟩ := h.min
  obtain ⟨hSec, hSec'⟩ := h.sec
  rw [Tm.printed, padded_fourDigits hYear (by omega), padded_twoDigits (by omega) (by omega),
    padded_twoDigits (by omega) (by omega), padded_twoDigits hHour (by omega),
    padded_twoDigits hMin (by omega), padded_twoDigits hSec (by omega)]
  apply String.toList_injective
  simp only [String.toList_append, String.toList_ofList, Tm.text, Tm.chars, List.append_assoc]
  rfl

theorem intResult_eq {n : Int} (hLow : intMin ≤ n) (hHigh : n ≤ intMax) : intResult n = some n :=
  if_pos ⟨hLow, hHigh⟩

/-- **One shift** of a valid time. -/
theorem timeAdd_text {tm : Tm} (h : tm.Valid) (env : Env) (addHours addMinutes addSeconds : Int) :
    timeAdd env tm.text addHours addMinutes addSeconds =
      (clockTime (env.mktime tm)).bind fun tp =>
        (addedSeconds addHours addMinutes addSeconds).bind fun seconds =>
          (clockTime (tp + seconds)).bind fun tt => some (env.localtime tt).printed := by
  obtain ⟨hYear, hMon, hMday, hHour, hMin, hSec⟩ := h.fields
  have hYearInt : intResult (timeField tm.chars 0 4 - 1900) = some tm.tmYear := by
    obtain ⟨hLow, hHigh⟩ := h.year
    rw [hYear, Int.add_sub_cancel]
    exact intResult_eq (by unfold intMin; omega) (by unfold intMax; omega)
  have hMonInt : intResult (timeField tm.chars 5 7 - 1) = some tm.tmMon := by
    have hLow := h.mon
    have hHigh := h.mon_lt
    rw [hMon, Int.add_sub_cancel]
    exact intResult_eq (by unfold intMin; omega) (by unfold intMax; omega)
  have hChars : tm.text.toList = tm.chars := String.toList_ofList
  rw [timeAdd, hChars, symbolPositions_chars]
  unfold timeField at hYearInt hMonInt hMday hHour hMin hSec
  simp only [hYearInt, hMonInt, hMday, hHour, hMin, hSec, Option.bind_eq_bind, Option.bind_some]
  rfl

/-- One shift from a moment of the clock to another. -/
theorem timeAdd_onClock {tm : Tm} (h : tm.Valid) {env : Env} {addHours addMinutes addSeconds added : Int}
    (hAdded : addedSeconds addHours addMinutes addSeconds = some added)
    (hHere : OnClock (env.mktime tm)) (hThere : OnClock (env.mktime tm + added)) :
    timeAdd env tm.text addHours addMinutes addSeconds =
      some (env.localtime (env.mktime tm + added)).printed := by
  have hFrom : clockTime (env.mktime tm) = some (env.mktime tm) := if_pos hHere
  have hTo : clockTime (env.mktime tm + added) = some (env.mktime tm + added) := if_pos hThere
  rw [timeAdd_text h, hFrom, hAdded, Option.bind_some, Option.bind_some, hTo, Option.bind_some]

/-- `mktime` and `localtime` are inverse to each other on dates that exist: the time zone has one
offset. -/
structure FixedOffset (env : Env) : Prop where
  normal : ∀ t, (env.localtime t).Normal
  localtime_mktime : ∀ tm, tm.Normal → env.localtime (env.mktime tm) = tm
  mktime_localtime : ∀ t, env.mktime (env.localtime t) = t

/-- The seconds that are added do not overflow, there or back. -/
def FitsInt (addHours addMinutes addSeconds : Int) : Prop :=
  (addedSeconds addHours addMinutes addSeconds).isSome ∧
    (addedSeconds (-addHours) (-addMinutes) (-addSeconds)).isSome

instance (addHours addMinutes addSeconds : Int) : Decidable (FitsInt addHours addMinutes addSeconds) :=
  inferInstanceAs (Decidable (_ ∧ _))

theorem addedSeconds_eq {addHours addMinutes addSeconds added : Int}
    (h : addedSeconds addHours addMinutes addSeconds = some added) :
    added = addSeconds + addMinutes * 60 + addHours * 60 * 60 := by
  have hResult : ∀ {n r : Int}, intResult n = some r → r = n := by
    intro n r hEq
    unfold intResult at hEq
    split at hEq
    · exact (Option.some.inj hEq).symm
    · cases hEq
  simp only [addedSeconds, Option.bind_eq_bind, Option.bind_eq_some_iff] at h
  obtain ⟨minutes, hMinutes, sum, hSum, hours, hHours, more, hMore, hAdded⟩ := h
  rw [hResult hAdded, hResult hSum, hResult hMore, hResult hMinutes, hResult hHours]

/-- **Shifting a time and shifting it back** gives the time again, where the clock can hold both. -/
theorem timeAdd_back {env : Env} (hOffset : FixedOffset env) {tm : Tm} (h : tm.Valid)
    {addHours addMinutes addSeconds : Int} (hFits : FitsInt addHours addMinutes addSeconds)
    (hShifted : (env.localtime (env.mktime tm +
      (addSeconds + addMinutes * 60 + addHours * 60 * 60))).FourDigits)
    (hHere : OnClock (env.mktime tm))
    (hThere : OnClock (env.mktime tm + (addSeconds + addMinutes * 60 + addHours * 60 * 60))) :
    ((timeAdd env tm.text addHours addMinutes addSeconds).bind fun time =>
      timeAdd env time (-addHours) (-addMinutes) (-addSeconds)) = some tm.text := by
  obtain ⟨added, hAdded⟩ := Option.isSome_iff_exists.mp hFits.1
  obtain ⟨back, hBack⟩ := Option.isSome_iff_exists.mp hFits.2
  have hAddedEq := addedSeconds_eq hAdded
  have hBackEq : back = -added := by
    rw [addedSeconds_eq hBack, hAddedEq]
    omega
  rw [← hAddedEq] at hShifted hThere
  have hValid : (env.localtime (env.mktime tm + added)).Valid := ⟨hOffset.normal _, hShifted⟩
  have hMoment : env.mktime (env.localtime (env.mktime tm + added)) = env.mktime tm + added :=
    hOffset.mktime_localtime _
  have hReturn : env.mktime (env.localtime (env.mktime tm + added)) + back = env.mktime tm := by
    rw [hMoment, hBackEq, Int.add_neg_cancel_right]
  rw [timeAdd_onClock h hAdded hHere hThere, Option.bind_some, hValid.printed,
    timeAdd_onClock hValid hBack (by rwa [hMoment]) (by rwa [hReturn]), hReturn,
    hOffset.localtime_mktime tm h.toNormal, h.printed]

/-- The days before 1970. -/
def epochDays : Int := 719162

/-- The time zone so many seconds east of Greenwich. -/
def zoneEnv (offset : Int) : Env :=
  { deafEnv with
    mktime := fun tm => (tm.date.toDays - epochDays) * 86400 +
      (tm.tmHour * 3600 + tm.tmMin * 60 + tm.tmSec) - offset
    localtime := fun t =>
      let date := Calendar.ofDays ((t + offset) / 86400 + epochDays)
      { tmYear := date.year - 1900
        tmMon := date.month
        tmMday := date.day
        tmHour := (t + offset) % 86400 / 3600
        tmMin := (t + offset) % 3600 / 60
        tmSec := (t + offset) % 60 } }

theorem zoneEnv_localtime (offset t : Int) : (zoneEnv offset).localtime t =
    { tmYear := (Calendar.ofDays ((t + offset) / 86400 + epochDays)).year - 1900
      tmMon := (Calendar.ofDays ((t + offset) / 86400 + epochDays)).month
      tmMday := (Calendar.ofDays ((t + offset) / 86400 + epochDays)).day
      tmHour := (t + offset) % 86400 / 3600
      tmMin := (t + offset) % 3600 / 60
      tmSec := (t + offset) % 60 } := rfl

theorem zoneEnv_mktime (offset : Int) (tm : Tm) : (zoneEnv offset).mktime tm =
    (tm.date.toDays - epochDays) * 86400 + (tm.tmHour * 3600 + tm.tmMin * 60 + tm.tmSec) - offset := rfl

theorem date_localtime (offset t : Int) : ((zoneEnv offset).localtime t).date =
    Calendar.ofDays ((t + offset) / 86400 + epochDays) := by
  rw [zoneEnv_localtime, Tm.date, Int.sub_add_cancel]
  rfl

theorem fixedOffset_zoneEnv (offset : Int) : FixedOffset (zoneEnv offset) := by
  constructor
  · intro t
    constructor
    · exact Int.natCast_nonneg _
    · rw [date_localtime]
      exact Calendar.valid_ofDays _
    all_goals
      rw [zoneEnv_localtime]
      dsimp only
      omega
  · intro tm h
    obtain ⟨hHour, hHour'⟩ := h.hour
    obtain ⟨hMin, hMin'⟩ := h.min
    obtain ⟨hSec, hSec'⟩ := h.sec
    have hMon := h.mon
    have hMday := h.date.2.1
    have hTime : (zoneEnv offset).mktime tm + offset =
        (tm.date.toDays - epochDays) * 86400 + (tm.tmHour * 3600 + tm.tmMin * 60 + tm.tmSec) :=
      Int.sub_add_cancel _ _
    have hDays : ((zoneEnv offset).mktime tm + offset) / 86400 + epochDays = tm.date.toDays := by
      rw [hTime]
      omega
    rw [zoneEnv_localtime, hDays, Calendar.ofDays_toDays h.date, hTime]
    obtain ⟨tmYear, tmMon, tmMday, tmHour, tmMin, tmSec⟩ := tm
    simp only [Tm.date, Tm.mk.injEq] at *
    refine ⟨?_, ?_, ?_, ?_, ?_, ?_⟩ <;> omega
  · intro t
    rw [zoneEnv_mktime, date_localtime, Calendar.toDays_ofDays, zoneEnv_localtime]
    dsimp only
    omega

/-- The night of New Year in Hong Kong, eight hours back into the old year and on again. -/
theorem timeAdd_back_newYear :
    ((timeAdd (zoneEnv 28800) (Tm.text ⟨124, 0, 1, 3, 0, 0⟩) (-8) 0 0).bind fun time =>
      timeAdd (zoneEnv 28800) time (-(-8)) (-0) (-0)) = some (Tm.text ⟨124, 0, 1, 3, 0, 0⟩) := by
  have hValid : (⟨124, 0, 1, 3, 0, 0⟩ : Tm).Valid := by
    constructor
    · constructor <;> decide
    · decide
  exact timeAdd_back (fixedOffset_zoneEnv 28800) hValid (by decide) (by decide) (by decide) (by decide)

/-- Before 21 September 1677 and after 11 April 2262 the clock overflows.  So do seconds of 2^31, here
from a moment of the clock to another. -/
theorem timeAdd_overflows : FixedOffset (zoneEnv 0) ∧ (⟨100, 0, 1, 0, 0, 0⟩ : Tm).Valid ∧
    ((zoneEnv 0).localtime ((zoneEnv 0).mktime ⟨100, 0, 1, 0, 0, 0⟩ +
      (8 + 14 * 60 + 596523 * 60 * 60))).FourDigits ∧
    ¬((timeAdd (zoneEnv 0) (Tm.text ⟨100, 0, 1, 0, 0, 0⟩) 596523 14 8).bind fun time =>
      timeAdd (zoneEnv 0) time (-596523) (-14) (-8)) = some (Tm.text ⟨100, 0, 1, 0, 0, 0⟩) := by
  have hValid : (⟨100, 0, 1, 0, 0, 0⟩ : Tm).Valid := by
    constructor
    · constructor <;> decide
    · decide
  have hOverflow : addedSeconds 596523 14 8 = none := by decide
  have hNone : timeAdd (zoneEnv 0) (Tm.text ⟨100, 0, 1, 0, 0, 0⟩) 596523 14 8 = none := by
    rw [timeAdd_text hValid, hOverflow]
    rfl
  refine ⟨fixedOffset_zoneEnv 0, hValid, by decide, ?_⟩
  rw [hNone]
  exact nofun

end DemoCode.FeedProxy
