import Mathlib.Algebra.Order.Ring.Int
import Mathlib.Data.Int.ConditionallyCompleteOrder
import Mathlib.Data.Int.SuccPred
import Mathlib.Order.SuccPred.Archimedean

/-! The Gregorian calendar, carried on over all years: a date and the number of its day, counted from
the first day of the year 1, are each found from the other. -/

namespace Calendar

/-- A date; months count from 0 and days from 1. -/
structure Date where
  year : Int
  month : Nat
  day : Nat
  deriving DecidableEq, Repr

def isLeap (year : Int) : Bool := decide (year % 4 = 0 ∧ (year % 100 ≠ 0 ∨ year % 400 = 0))

def daysBeforeYear (year : Int) : Int :=
  365 * (year - 1) + (year - 1) / 4 - (year - 1) / 100 + (year - 1) / 400

def daysInYear (year : Int) : Nat := if isLeap year then 366 else 365

def daysBeforeMonth (leap : Bool) (month : Nat) : Nat :=
  [0, 31, 59, 90, 120, 151, 181, 212, 243, 273, 304, 334, 365].getD month 0 +
    if leap ∧ 2 ≤ month then 1 else 0

def daysInMonth (leap : Bool) (month : Nat) : Nat :=
  daysBeforeMonth leap (month + 1) - daysBeforeMonth leap month

/-- The date exists. -/
def Date.Valid (d : Date) : Prop :=
  d.month < 12 ∧ 1 ≤ d.day ∧ d.day ≤ daysInMonth (isLeap d.year) d.month

instance (d : Date) : Decidable d.Valid := inferInstanceAs (Decidable (_ ∧ _ ∧ _))

def Date.toDays (d : Date) : Int :=
  daysBeforeYear d.year + daysBeforeMonth (isLeap d.year) d.month + d.day - 1

/-- The year of a day: four hundred years have 146097 days, which gives it up to one. -/
def yearOf (n : Int) : Int :=
  let guess := 400 * n / 146097 + 1
  if n < daysBeforeYear guess then guess - 1
  else if daysBeforeYear (guess + 1) ≤ n then guess + 1
  else guess

/-- The month of a day of the year: as many months have begun after the first one. -/
def monthOf (leap : Bool) (k : Nat) : Nat :=
  (List.range 12).countP fun month => 0 < month && daysBeforeMonth leap month ≤ k

def ofDays (n : Int) : Date :=
  let year := yearOf n
  let k := (n - daysBeforeYear year).toNat
  let month := monthOf (isLeap year) k
  ⟨year, month, k - daysBeforeMonth (isLeap year) month + 1⟩

/-! ### Years -/

variable {n year : Int}

theorem daysBeforeYear_succ (year : Int) :
    daysBeforeYear (year + 1) = daysBeforeYear year + daysInYear year := by
  rw [daysBeforeYear, daysBeforeYear, daysInYear, isLeap]
  by_cases hLeap : year % 4 = 0 ∧ (year % 100 ≠ 0 ∨ year % 400 = 0)
  · rw [if_pos (decide_eq_true hLeap)]
    omega
  · rw [if_neg (by rw [decide_eq_true_iff]; exact hLeap)]
    omega

theorem strictMono_daysBeforeYear : StrictMono daysBeforeYear := by
  refine strictMono_int_of_lt_succ fun year => ?_
  rw [daysBeforeYear_succ, daysInYear]
  split <;> omega

theorem yearOf_spec (n : Int) :
    daysBeforeYear (yearOf n) ≤ n ∧ n < daysBeforeYear (yearOf n + 1) := by
  have hLow : daysBeforeYear (400 * n / 146097 + 1 - 1) ≤ n := by
    rw [daysBeforeYear]
    omega
  have hHigh : n < daysBeforeYear (400 * n / 146097 + 1 + 1 + 1) := by
    rw [daysBeforeYear]
    omega
  rw [yearOf]
  generalize 400 * n / 146097 + 1 = guess at hLow hHigh ⊢
  split
  · rename_i hBefore
    rw [Int.sub_add_cancel]
    exact ⟨hLow, hBefore⟩
  · split
    · rename_i hAfter
      exact ⟨hAfter, hHigh⟩
    · omega

theorem yearOf_eq (hLow : daysBeforeYear year ≤ n) (hHigh : n < daysBeforeYear (year + 1)) :
    yearOf n = year := by
  obtain ⟨hLow', hHigh'⟩ := yearOf_spec n
  have hLe := strictMono_daysBeforeYear.lt_iff_lt.mp (hLow.trans_lt hHigh')
  have hGe := strictMono_daysBeforeYear.lt_iff_lt.mp (hLow'.trans_lt hHigh)
  omega

/-! ### Months -/

theorem monthOf_spec (leap : Bool) {k : Nat} (h : k < if leap then 366 else 365) :
    monthOf leap k < 12 ∧ daysBeforeMonth leap (monthOf leap k) ≤ k ∧
      k < daysBeforeMonth leap (monthOf leap k + 1) := by
  have hAll : ∀ leap : Bool, ∀ k < 366, (k < if leap then 366 else 365) →
      monthOf leap k < 12 ∧ daysBeforeMonth leap (monthOf leap k) ≤ k ∧
        k < daysBeforeMonth leap (monthOf leap k + 1) := by
    decide +kernel
  refine hAll leap k ?_ h
  split at h <;> omega

theorem monthOf_eq (leap : Bool) {month : Nat} (hMonth : month < 12) (day : Nat)
    (hDay : day < daysInMonth leap month) : monthOf leap (daysBeforeMonth leap month + day) = month := by
  have hAll : ∀ leap : Bool, ∀ month < 12, ∀ day < 31, day < daysInMonth leap month →
      monthOf leap (daysBeforeMonth leap month + day) = month := by
    decide +kernel
  have hLong : ∀ leap : Bool, ∀ month < 12, daysInMonth leap month ≤ 31 := by decide
  exact hAll leap month hMonth day (hDay.trans_le (hLong leap month hMonth)) hDay

theorem daysBeforeMonth_le (leap : Bool) {month : Nat} (h : month < 12) :
    daysBeforeMonth leap month + daysInMonth leap month ≤ if leap then 366 else 365 := by
  have hAll : ∀ leap : Bool, ∀ month < 12,
      daysBeforeMonth leap month + daysInMonth leap month ≤ if leap then 366 else 365 := by
    decide
  exact hAll leap month h

/-! ### Dates and days -/

theorem valid_ofDays (n : Int) : (ofDays n).Valid := by
  obtain ⟨hLow, hHigh⟩ := yearOf_spec n
  rw [daysBeforeYear_succ] at hHigh
  obtain ⟨hMonth, hFrom, hTo⟩ := monthOf_spec (isLeap (yearOf n))
    (k := (n - daysBeforeYear (yearOf n)).toNat) (by rw [← daysInYear]; omega)
  refine ⟨hMonth, Nat.le_add_left 1 _, ?_⟩
  dsimp only [ofDays, daysInMonth]
  omega

theorem toDays_ofDays (n : Int) : (ofDays n).toDays = n := by
  obtain ⟨hLow, hHigh⟩ := yearOf_spec n
  rw [daysBeforeYear_succ] at hHigh
  obtain ⟨-, hFrom, -⟩ := monthOf_spec (isLeap (yearOf n))
    (k := (n - daysBeforeYear (yearOf n)).toNat) (by rw [← daysInYear]; omega)
  dsimp only [ofDays, Date.toDays]
  omega

theorem ofDays_toDays {d : Date} (h : d.Valid) : ofDays d.toDays = d := by
  obtain ⟨hMonth, hDay, hDay'⟩ := h
  have hInYear := daysBeforeMonth_le (isLeap d.year) hMonth
  rw [← daysInYear] at hInYear
  have hYear : yearOf d.toDays = d.year := by
    apply yearOf_eq
    · rw [Date.toDays]
      omega
    · rw [daysBeforeYear_succ, Date.toDays]
      omega
  have hK : (d.toDays - daysBeforeYear d.year).toNat =
      daysBeforeMonth (isLeap d.year) d.month + (d.day - 1) := by
    rw [Date.toDays]
    omega
  have hMonthOf := monthOf_eq (isLeap d.year) hMonth (d.day - 1) (by omega)
  rw [ofDays, hYear, hK, hMonthOf]
  obtain ⟨year, month, day⟩ := d
  rw [Date.mk.injEq]
  refine ⟨rfl, rfl, ?_⟩
  dsimp only at hDay ⊢
  omega

end Calendar
