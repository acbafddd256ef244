import Mathlib.Algebra.Order.Ring.Int
import DemoCode.SortAbout.Counters

/-! `radix_sort.cpp`.  A pass sorts by one digit, and there are as many passes as `MaxBit` counts digits. -/

namespace DemoCode.SortAbout

open StableSort

/-- The loop of `MaxBit`. -/
def maxBitLoop : List Int → ℕ → Int → Option ℕ
  | [], bits, _ => some bits
  | it :: nums, bits, standard =>
    if standard ≤ it then do
      let standard ← toInt? (standard * 10)
      maxBitLoop nums (bits + 1) standard
    else
      maxBitLoop nums bits standard

def maxBit (nums : List Int) : Option ℕ := maxBitLoop nums 1 10

/-- `(it / radix) % 10`. -/
def radixKey (radix it : Int) : Int := (it.tdiv radix).tmod 10

/-- The passes that are left; after each one the arrays change places. -/
def radixLoop : ℕ → Int → List Int → List Int → Option (List Int)
  | 0, _, nums, _ => some nums
  | left + 1, radix, nums, tmpVec => do
    let (_, out) ← pass 10 (radixKey radix) 1 nums zeros tmpVec
    let radix ← toInt? (radix * 10)
    radixLoop left radix out nums

def radixSort (nums : List Int) : Option (List Int) :=
  if nums.length < 2 then
    some nums
  else do
    let maxBit ← maxBit nums
    radixLoop maxBit 1 nums (List.replicate nums.length 0)

/-- The elements that `RadixSort` is for. -/
def InRange (nums : List Int) : Prop := ∀ x ∈ nums, 0 ≤ x ∧ x < 10 ^ 9

instance (nums : List Int) : Decidable (InRange nums) :=
  inferInstanceAs (Decidable (∀ x ∈ nums, 0 ≤ x ∧ x < 10 ^ 9))

def RadixSorts (nums : List Int) : Prop := ∃ out, radixSort nums = some out ∧ Sorted nums out

/-- `RadixSort` is the stable sort by the last digits. -/
def SortsDigits (digits : ℕ) (nums : List Int) : Prop :=
  ∃ out, radixSort nums = some out ∧ Stable (fun x : Int => x % 10 ^ digits) nums out

/-- The lower digits do not put two elements into the wrong order, or leave them there. -/
def LowerDigitsDecide (digits : ℕ) (nums : List Int) : Prop :=
  (∀ x ∈ nums, ∀ y ∈ nums, x % 10 ^ digits < y % 10 ^ digits → x ≤ y) ∧
    nums.Pairwise fun x y => x % 10 ^ digits = y % 10 ^ digits → x ≤ y

section

variable {nums l m out : List Int} {x y : Int} {b n left : ℕ}

theorem toInt?_pow (h : b < 9) : toInt? (10 ^ b * 10) = some (10 ^ (b + 1)) := by
  have hLe : (10 : Int) ^ (b + 1) ≤ 10 ^ 9 := pow_le_pow_right₀ (by decide) h
  have hPos : (0 : Int) < 10 ^ (b + 1) := Int.pow_pos (by decide)
  exact toInt?_eq_some.mpr ⟨⟨by omega, by omega⟩, rfl⟩

theorem maxBitLoop_ok (hRange : InRange nums) (hb : 1 ≤ b) (hb' : b ≤ 9) :
    ∃ digits, maxBitLoop nums b (10 ^ b) = some digits ∧ 1 ≤ digits ∧ digits ≤ 9 := by
  induction nums generalizing b with
  | nil => exact ⟨b, rfl, hb, hb'⟩
  | cons x nums ih =>
    obtain ⟨⟨-, hx⟩, hRest⟩ := List.forall_mem_cons.mp hRange
    rw [maxBitLoop]
    split_ifs with hLe
    · -- there are fewer than nine digits yet
      have hLess : b < 9 := (pow_lt_pow_iff_right₀ (by decide)).mp (hLe.trans_lt hx)
      rw [toInt?_pow hLess]
      exact ih hRest (by omega) hLess
    · exact ih hRest hb hb'

theorem radixKey_natCast (b n : ℕ) : radixKey (10 ^ b) n = ((n / 10 ^ b % 10 : ℕ) : Int) := by
  rw [radixKey]
  norm_cast

/-- The order of numbers by their last digits. -/
theorem add_mul_le_iff {r r' bound d d' : ℕ} (hr : r < bound) (hr' : r' < bound) :
    r + bound * d ≤ r' + bound * d' ↔ d < d' ∨ d = d' ∧ r ≤ r' := by
  have hStep : ∀ {e e' : ℕ}, e < e' → bound * e + bound ≤ bound * e' := fun {e e'} hLess => by
    rw [← Nat.mul_succ]
    exact Nat.mul_le_mul_left bound hLess
  rcases lt_trichotomy d d' with hLess | rfl | hLess
  · have hLe := hStep hLess
    exact iff_of_true (by omega) (.inl hLess)
  · simp
  · have hLe := hStep hLess
    exact iff_of_false (by omega) (by omega)

/-- A digit more. -/
theorem mod_le_iff (hx : 0 ≤ x) (hy : 0 ≤ y) (b : ℕ) : x % 10 ^ (b + 1) ≤ y % 10 ^ (b + 1) ↔
    digit (radixKey (10 ^ b)) x < digit (radixKey (10 ^ b)) y ∨
      digit (radixKey (10 ^ b)) x = digit (radixKey (10 ^ b)) y ∧ x % 10 ^ b ≤ y % 10 ^ b := by
  obtain ⟨x, rfl⟩ := Int.eq_ofNat_of_zero_le hx
  obtain ⟨y, rfl⟩ := Int.eq_ofNat_of_zero_le hy
  have hPos : 0 < 10 ^ b := Nat.pow_pos (by decide)
  rw [digit, digit, radixKey_natCast, radixKey_natCast, Int.toNat_natCast, Int.toNat_natCast]
  norm_cast
  rw [Nat.pow_succ, Nat.mod_mul, Nat.mod_mul]
  exact add_mul_le_iff (Nat.mod_lt x hPos) (Nat.mod_lt y hPos)

theorem keyed_radixKey (hRange : InRange nums) (b : ℕ) : Keyed 10 (radixKey (10 ^ b)) nums := by
  intro x hx
  obtain ⟨x, rfl⟩ := Int.eq_ofNat_of_zero_le (hRange x hx).1
  rw [radixKey_natCast]
  omega

/-- **Step lemma**: a pass sorts by one digit more. -/
theorem stable_pass (hRange : InRange l) (h : Stable (fun x : Int => x % 10 ^ b) l nums) :
    Stable (fun x : Int => x % 10 ^ (b + 1)) l (buckets (digit (radixKey (10 ^ b))) 10 nums) := by
  have hKeyed : Keyed 10 (radixKey (10 ^ b)) nums :=
    keyed_radixKey (fun x hx => hRange x (h.perm.mem_iff.mp hx)) b
  exact h.trans (stable_buckets hKeyed.digit_lt) fun x hx y hy => mod_le_iff (hRange x hx).1 (hRange y hy).1 b

/-- **Run lemma.** -/
theorem radixLoop_stable (hRange : InRange l) (hLength : l.length < 2 ^ 31) (hLeft : b + left ≤ 9)
    (h : Stable (fun x : Int => x % 10 ^ b) l nums) {tmpVec : List Int} (hTmp : tmpVec.length = nums.length) :
    ∃ out, radixLoop left (10 ^ b) nums tmpVec = some out ∧ Stable (fun x : Int => x % 10 ^ (b + left)) l out := by
  induction left generalizing b nums tmpVec with
  | zero => exact ⟨nums, rfl, h⟩
  | succ left ih =>
    have hKeyed : Keyed 10 (radixKey (10 ^ b)) nums :=
      keyed_radixKey (fun x hx => hRange x (h.perm.mem_iff.mp hx)) b
    obtain ⟨c, hPass⟩ := pass_buckets hKeyed (h.perm.length_eq ▸ hLength) hTmp
    have hStable := stable_pass hRange h
    have hSame := hStable.perm.length_eq.trans h.perm.length_eq.symm
    obtain ⟨out, hLoop, hOut⟩ := ih (by omega) hStable hSame.symm
    refine ⟨out, ?_, by rwa [Nat.add_right_comm] at hOut⟩
    rw [radixLoop, hPass, Option.bind_eq_bind, Option.bind_some, toInt?_pow (by omega)]
    exact hLoop

theorem maxBit_ok (hRange : InRange nums) : ∃ digits, maxBit nums = some digits ∧ 1 ≤ digits ∧ digits ≤ 9 :=
  maxBitLoop_ok hRange le_rfl (by decide)

theorem radixSort_stable (hRange : InRange nums) (hLong : ¬nums.length < 2) (hLength : nums.length < 2 ^ 31)
    (hBit : maxBit nums = some b) (hb : b ≤ 9) :
    ∃ out, radixSort nums = some out ∧ Stable (fun x : Int => x % 10 ^ b) nums out := by
  have hFirst : Stable (fun x : Int => x % 10 ^ 0) nums nums :=
    Stable.refl fun x _ y _ => by rw [pow_zero, Int.emod_one, Int.emod_one]
  have hTmp : (List.replicate nums.length (0 : Int)).length = nums.length := List.length_replicate
  have hLeft : 0 + b ≤ 9 := by omega
  obtain ⟨out, hLoop, hStable⟩ := radixLoop_stable hRange hLength hLeft hFirst hTmp
  rw [Nat.zero_add] at hStable
  refine ⟨out, ?_, hStable⟩
  rw [radixSort, if_neg hLong, hBit]
  exact hLoop

theorem stable_short {key : Int → Int} (h : nums.length < 2) : Stable key nums nums where
  le := by
    rcases nums with _ | ⟨x, _ | ⟨y, nums⟩⟩
    · exact List.Pairwise.nil
    · exact List.pairwise_singleton _ x
    · exact absurd h (by simp)
  filter _ := rfl

/-- More elements than an `int` counts. -/
theorem length_of_radixSort (hRange : InRange nums) (hLong : ¬nums.length < 2) (hBit : maxBit nums = some b)
    (hb : 1 ≤ b) (h : radixSort nums = some out) : nums.length < 2 ^ 31 := by
  obtain ⟨b, rfl⟩ : ∃ left, b = left + 1 := ⟨b - 1, by omega⟩
  rw [radixSort, if_neg hLong, hBit, Option.bind_eq_bind, Option.bind_some, radixLoop, Option.bind_eq_bind,
    Option.bind_eq_some_iff] at h
  obtain ⟨r, hPass, -⟩ := h
  exact pass_length (keyed_radixKey hRange 0) (by decide) hPass

theorem sorted_iff (h : Stable (fun x : Int => x % 10 ^ b) nums out) :
    Sorted nums out ↔ LowerDigitsDecide b nums := by
  rw [Sorted, and_iff_left h.perm]
  exact h.pairwise_iff

end

/-- **`RadixSort`** sorts exactly if there is nothing to sort, or there are `int` indices and the digits that
`MaxBit` counts decide. -/
theorem radixSorts_iff {nums : List Int} (hRange : InRange nums) : ∃ digits, maxBit nums = some digits ∧
    (RadixSorts nums ↔ nums.length < 2 ∨ nums.length < 2 ^ 31 ∧ LowerDigitsDecide digits nums) := by
  obtain ⟨digits, hBit, hLow, hHigh⟩ := maxBit_ok hRange
  refine ⟨digits, hBit, ?_⟩
  by_cases hShort : nums.length < 2
  · exact iff_of_true ⟨nums, if_pos hShort, sorted_short hShort⟩ (.inl hShort)
  rw [or_iff_right hShort]
  constructor
  · rintro ⟨out, hSort, hSorted⟩
    have hLength := length_of_radixSort hRange hShort hBit hLow hSort
    obtain ⟨out', hSort', hStable⟩ := radixSort_stable hRange hShort hLength hBit hHigh
    rw [hSort] at hSort'
    cases hSort'
    exact ⟨hLength, (sorted_iff hStable).mp hSorted⟩
  · rintro ⟨hLength, hDecide⟩
    obtain ⟨out, hSort, hStable⟩ := radixSort_stable hRange hShort hLength hBit hHigh
    exact ⟨out, hSort, (sorted_iff hStable).mpr hDecide⟩

theorem radixSorts_iff_three : ∃ digits, maxBit [20, 3, 100] = some digits ∧
    (RadixSorts [20, 3, 100] ↔ [20, 3, 100].length < 2 ∨
      [20, 3, 100].length < 2 ^ 31 ∧ LowerDigitsDecide digits [20, 3, 100]) := by
  exact radixSorts_iff (by decide)

/-- The 100 is the only element with three digits, and of three digits two are looked at. -/
theorem not_radixSorts : ¬∀ nums, InRange nums → RadixSorts nums := by
  intro h
  have hRange : InRange [100, 1] := by decide
  obtain ⟨out, hSort, hSorted⟩ := h [100, 1] hRange
  have hBit : maxBit [100, 1] = some 2 := by decide
  obtain ⟨out', hSort', hStable⟩ := radixSort_stable hRange (by decide) (by decide) hBit (by decide)
  rw [hSort] at hSort'
  cases hSort'
  have hLess := ((sorted_iff hStable).mp hSorted).1 100 (by decide) 1 (by decide) (by decide)
  exact absurd hLess (by decide)

/-- **The digit passes** are the stable sort by as many digits as `MaxBit` counts, exactly if there are `int`
indices. -/
theorem sortsDigits_iff {nums : List Int} (hRange : InRange nums) :
    ∃ digits, maxBit nums = some digits ∧ (SortsDigits digits nums ↔ nums.length < 2 ^ 31) := by
  obtain ⟨digits, hBit, hLow, hHigh⟩ := maxBit_ok hRange
  refine ⟨digits, hBit, ?_⟩
  by_cases hShort : nums.length < 2
  · exact iff_of_true ⟨nums, if_pos hShort, stable_short hShort⟩ (by omega)
  constructor
  · rintro ⟨out, hSort, -⟩
    exact length_of_radixSort hRange hShort hBit hLow hSort
  · exact fun hLength => radixSort_stable hRange hShort hLength hBit hHigh

theorem sortsDigits_iff_three : ∃ digits, maxBit [20, 3, 100] = some digits ∧
    (SortsDigits digits [20, 3, 100] ↔ [20, 3, 100].length < 2 ^ 31) := by
  exact sortsDigits_iff (by decide)

/-- The counter of a digit that all elements have is no `int`. -/
theorem not_sortsDigits :
    ¬∀ nums, InRange nums → ∃ digits, maxBit nums = some digits ∧ SortsDigits digits nums := by
  intro h
  have hLength : (List.replicate (2 ^ 31) (0 : Int)).length = 2 ^ 31 := List.length_replicate
  have hRange : InRange (List.replicate (2 ^ 31) 0) := by
    intro x hx
    rw [List.eq_of_mem_replicate hx]
    decide
  obtain ⟨digits, hBit, out, hSort, -⟩ := h _ hRange
  obtain ⟨digits', hBit', hLow, -⟩ := maxBit_ok hRange
  rw [hBit] at hBit'
  cases hBit'
  have hLess := length_of_radixSort hRange (by rw [hLength]; omega) hBit hLow hSort
  rw [hLength] at hLess
  exact lt_irrefl _ hLess

end DemoCode.SortAbout
