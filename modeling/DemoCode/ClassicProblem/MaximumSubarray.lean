import Mathlib.Algebra.Order.Group.Int
import DemoCode.ClassicProblem.Sizes
import DemoCode.Lib.Subarrays

/-! `maximum_subarray.cpp`: the violent, the divided and the scanned solution for the greatest sum of a
contiguous part of a vector.  The sums are exact integers.  The size of the vector is cut to an `int` or an
`unsigned int`; an index that overflows is `none`, and so is an access outside of the vector. -/

namespace DemoCode.ClassicProblem

/-- The inner loop of `ViolentSolution`. -/
def violentInner (nums : List Int) (vecSize j : Nat) (tmp maxSubArraySum : Int) : Option Int :=
  if j < vecSize then do
    let x ← nums[j]?
    let tmp := tmp + x
    violentInner nums vecSize (j + 1) tmp (if tmp > maxSubArraySum then tmp else maxSubArraySum)
  else
    some maxSubArraySum
termination_by vecSize - j

/-- The outer loop of `ViolentSolution`. -/
def violentOuter (nums : List Int) (vecSize i : Nat) (maxSubArraySum : Int) : Option Int :=
  if i < vecSize then do
    let maxSubArraySum ← violentInner nums vecSize i 0 maxSubArraySum
    violentOuter nums vecSize (i + 1) maxSubArraySum
  else
    some maxSubArraySum
termination_by vecSize - i

/-- `vecSize` has 32 bits. -/
def violentSolution (nums : List Int) : Option Int := violentOuter nums (nums.length % 2 ^ 32) 0 0

/-- The loop of `getMaxCrossArrayRes` to the left. -/
def crossLeft (arr : List Int) (low : Nat) (i sum lRes : Int) : Option Int :=
  if i ≥ low then do
    let x ← arr[i.toNat]?
    let sum := sum + x
    crossLeft arr low (i - 1) sum (if lRes > sum then lRes else sum)
  else
    some lRes
termination_by (i + 1 - low).toNat
decreasing_by omega

/-- The loop of `getMaxCrossArrayRes` to the right. -/
def crossRight (arr : List Int) (high i : Nat) (sum rRes : Int) : Option Int :=
  if i ≤ high then do
    let x ← arr[i]?
    let sum := sum + x
    crossRight arr high (i + 1) sum (if rRes > sum then rRes else sum)
  else
    some rRes
termination_by high + 1 - i

def getMaxCrossArrayRes (arr : List Int) (low mid high : Nat) : Option Int := do
  let m ← arr[mid]?
  let lRes ← crossLeft arr low (mid - 1) m m
  let rRes ← crossRight arr high (mid + 1) m m
  some (lRes + rRes - m)

/-- With `low > high` the calls would not come to an end; `low + high` is an `int`. -/
def getMaxSubArrayRes (arr : List Int) (low high : Nat) : Option Int :=
  if low = high then
    arr[low]?
  else if low < high ∧ low + high < 2 ^ 31 then do
    let mid := (low + high) / 2
    let leftRes ← getMaxSubArrayRes arr low mid
    let rightRes ← getMaxSubArrayRes arr (mid + 1) high
    let crossRes ← getMaxCrossArrayRes arr low mid high
    if leftRes ≥ rightRes ∧ leftRes ≥ crossRes then some leftRes
    else if rightRes ≥ leftRes ∧ rightRes ≥ crossRes then some rightRes
    else some crossRes
  else
    none
termination_by high - low

def divideSolution (nums : List Int) : Option Int :=
  let high := toInt nums.length
  if high = 0 then some 0
  else if high < 0 then
    -- `--high` overflows, or the calls begin with `low > high`
    none
  else getMaxSubArrayRes nums 0 (high.toNat - 1)

/-- The loop of `KadaneSolution`. -/
def kadaneLoop (nums : List Int) (arrSize : Int) (i : Nat) (maxSoFar maxEndingHere : Int) : Option Int :=
  if i < arrSize then do
    let x ← nums[i]?
    let maxEndingHere := if maxEndingHere + x > x then maxEndingHere + x else x
    let maxSoFar := if maxSoFar > maxEndingHere then maxSoFar else maxEndingHere
    kadaneLoop nums arrSize (i + 1) maxSoFar maxEndingHere
  else
    some maxSoFar
termination_by (arrSize - i).toNat

def kadaneSolution (nums : List Int) : Option Int :=
  let arrSize := toInt nums.length
  if arrSize = 0 then some 0 else do
    let x ← nums[0]?
    kadaneLoop nums arrSize 1 x x

open Subarrays

theorem ite_gt_eq_max (a b : Int) : (if a > b then a else b) = max a b := by
  rw [max_comm, max_def_lt]

/-! ### The violent solution -/

/-- The elements from `j` on of those before `k`. -/
theorem drop_take_cons {nums : List Int} {k j : Nat} (hk : k ≤ nums.length) (hj : j < k) :
    (nums.take k).drop j = nums[j] :: (nums.take k).drop (j + 1) := by
  rw [List.drop_eq_getElem_cons (by rw [List.length_take]; omega), List.getElem_take]

theorem violentInner_eq {nums : List Int} {k : Nat} (hk : k ≤ nums.length) {j : Nat} (hj : j ≤ k)
    (tmp maxSubArraySum : Int) :
    violentInner nums k j tmp maxSubArraySum = some (peak tmp maxSubArraySum ((nums.take k).drop j)) := by
  induction hn : k - j generalizing j tmp maxSubArraySum with
  | zero =>
    rw [violentInner, if_neg (by omega), List.drop_eq_nil_of_le (by rw [List.length_take]; omega)]
    rfl
  | succ n ih =>
    have hLess : j < k := by omega
    rw [violentInner, if_pos hLess, drop_take_cons hk hLess, List.getElem?_eq_getElem (by omega)]
    simp only [Option.bind_eq_bind, Option.bind_some, ite_gt_eq_max]
    rw [max_comm]
    exact ih hLess _ _ (by omega)

/-- **The outer loop** takes the parts that begin at `i`, then those behind them. -/
theorem violentOuter_eq {nums : List Int} {k : Nat} (hk : k ≤ nums.length) {i : Nat} (hi : i ≤ k)
    (maxSubArraySum : Int) : ∃ v, violentOuter nums k i maxSubArraySum = some v ∧
      IsGreatest (insert maxSubArraySum (sums ((nums.take k).drop i))) v := by
  induction hn : k - i generalizing i maxSubArraySum with
  | zero =>
    refine ⟨maxSubArraySum, ?_, ?_⟩
    · rw [violentOuter, if_neg (by omega)]
    · rw [List.drop_eq_nil_of_le (by rw [List.length_take]; omega), sums_nil, insert_empty_eq]
      exact isGreatest_singleton
  | succ n ih =>
    have hLess : i < k := by omega
    obtain ⟨v, hOuter, hGreatest⟩ := ih hLess (peak 0 maxSubArraySum ((nums.take k).drop i)) (by omega)
    have hInner := isGreatest_peak 0 maxSubArraySum ((nums.take k).drop i)
    simp only [zero_add, Set.image_id'] at hInner
    refine ⟨v, ?_, ?_⟩
    · rw [violentOuter, if_pos hLess, violentInner_eq hk hi]
      exact hOuter
    · rw [drop_take_cons hk hLess] at hInner ⊢
      rw [drop_take_cons hk hLess] at hGreatest
      rw [sums_cons, ← Set.insert_union]
      exact isGreatest_union_of_insert hInner hGreatest

theorem violentSolution_eq (nums : List Int) : ∃ v, violentSolution nums = some v ∧
    IsGreatest (insert 0 (sums (nums.take (nums.length % 2 ^ 32)))) v :=
  violentOuter_eq (Nat.mod_le _ _) (Nat.zero_le _) 0

/-! ### The divided solution -/

theorem crossLeft_eq {arr : List Int} {low : Nat} {k : Nat} (hLow : low ≤ k) (hHigh : k ≤ arr.length)
    (sum lRes : Int) :
    crossLeft arr low (k - 1) sum lRes = some (peak sum lRes ((arr.take k).drop low).reverse) := by
  induction hn : k - low generalizing k sum lRes with
  | zero =>
    obtain rfl : k = low := by omega
    rw [crossLeft, if_neg (by omega), List.drop_take, Nat.sub_self]
    rfl
  | succ n ih =>
    obtain ⟨k, rfl⟩ : ∃ j, k = j + 1 := ⟨k - 1, by omega⟩
    have hk : k < arr.length := by omega
    have hPart : ((arr.take (k + 1)).drop low).reverse = arr[k] :: ((arr.take k).drop low).reverse := by
      rw [← List.take_concat_get' arr k hk, List.drop_append_of_le_length (by rw [List.length_take]; omega),
        List.reverse_append]
      rfl
    rw [crossLeft, if_pos (by omega), hPart]
    have hIndex : ((k + 1 : Nat) - 1 : Int) = k := by omega
    rw [hIndex, Int.toNat_natCast, List.getElem?_eq_getElem hk]
    simp only [Option.bind_eq_bind, Option.bind_some, ite_gt_eq_max]
    exact ih (by omega) (by omega) _ _ (by omega)

theorem crossRight_eq {arr : List Int} {high i : Nat} (hLow : i ≤ high + 1) (hHigh : high < arr.length)
    (sum rRes : Int) :
    crossRight arr high i sum rRes = some (peak sum rRes ((arr.take (high + 1)).drop i)) := by
  induction hn : high + 1 - i generalizing i sum rRes with
  | zero =>
    rw [crossRight, if_neg (by omega), List.drop_eq_nil_of_le (by rw [List.length_take]; omega)]
    rfl
  | succ n ih =>
    have hi : i < arr.length := by omega
    rw [crossRight, if_pos (by omega), drop_take_cons (by omega) (by omega), List.getElem?_eq_getElem hi]
    simp only [Option.bind_eq_bind, Option.bind_some, ite_gt_eq_max]
    exact ih (by omega) _ _ (by omega)

/-- The elements from `low` to `high`. -/
def segment (arr : List Int) (low high : Nat) : List Int := (arr.take (high + 1)).drop low

theorem segment_concat {arr : List Int} {low mid : Nat} (hLow : low ≤ mid) (hMid : mid < arr.length) :
    segment arr low mid = (arr.take mid).drop low ++ [arr[mid]] := by
  rw [segment, ← List.take_concat_get' arr mid hMid,
    List.drop_append_of_le_length (by rw [List.length_take]; omega)]

theorem segment_cons {arr : List Int} {mid high : Nat} (hMid : mid ≤ high) (hHigh : high < arr.length) :
    segment arr mid high = arr[mid] :: segment arr (mid + 1) high :=
  drop_take_cons hHigh (Nat.lt_succ_of_le hMid)

theorem segment_append {arr : List Int} {low mid high : Nat} (hLow : low ≤ mid) (hMid : mid < high)
    (hHigh : high < arr.length) : segment arr low high = segment arr low mid ++ segment arr (mid + 1) high := by
  have hTake : (arr.take (high + 1)).take (mid + 1) = arr.take (mid + 1) := by
    rw [List.take_take, Nat.min_eq_left (by omega)]
  have hWhole : arr.take (high + 1) = arr.take (mid + 1) ++ segment arr (mid + 1) high := by
    rw [segment, ← hTake, List.take_append_drop]
  have hLong : low ≤ (arr.take (mid + 1)).length := by
    rw [List.length_take]
    omega
  conv_lhs => rw [segment, hWhole, List.drop_append_of_le_length hLong]
  rfl

/-- **The crossing part**: the greatest sums to both sides, both of which count the middle. -/
theorem getMaxCrossArrayRes_eq {arr : List Int} {low mid high : Nat} (hLow : low ≤ mid) (hMid : mid ≤ high)
    (hHigh : high < arr.length) : ∃ l r, getMaxCrossArrayRes arr low mid high = some (l + r - arr[mid]) ∧
      IsGreatest (suffixSums (segment arr low mid)) l ∧ IsGreatest (prefixSums (segment arr mid high)) r := by
  have hIn : mid < arr.length := by omega
  rw [segment_concat hLow hIn, segment_cons hMid hHigh]
  refine ⟨_, _, ?_, isGreatest_suffixSums _ _, isGreatest_prefixSums _ _⟩
  simp only [getMaxCrossArrayRes, List.getElem?_eq_getElem hIn, Option.bind_eq_bind, Option.bind_some,
    crossLeft_eq hLow (Nat.le_of_lt hIn), crossRight_eq (Nat.succ_le_succ hMid) hHigh]
  rfl

theorem getMaxSubArrayRes_eq {arr : List Int} {low high : Nat} (hLow : low ≤ high) (hHigh : high < arr.length)
    (hInt : high ≤ 2 ^ 30) :
    ∃ v, getMaxSubArrayRes arr low high = some v ∧ IsGreatest (sums (segment arr low high)) v := by
  induction hn : high - low using Nat.strongRecOn generalizing low high with
  | ind n ih =>
  rw [getMaxSubArrayRes]
  by_cases hOne : low = high
  · subst hOne
    rw [if_pos rfl, List.getElem?_eq_getElem hHigh, segment_concat (Nat.le_refl low) hHigh, List.drop_take,
      Nat.sub_self, List.take_zero, List.nil_append, sums_singleton]
    exact ⟨_, rfl, isGreatest_singleton⟩
  have hLess : low < high := by omega
  have hMid : low ≤ (low + high) / 2 ∧ (low + high) / 2 < high := by omega
  rw [if_neg hOne, if_pos (by omega)]
  generalize (low + high) / 2 = mid at hMid
  obtain ⟨hLowMid, hMidHigh⟩ := hMid
  obtain ⟨leftRes, hLeft, hLeftMax⟩ := ih (mid - low) (by omega) hLowMid (by omega) (by omega) rfl
  obtain ⟨rightRes, hRight, hRightMax⟩ := ih (high - (mid + 1)) (by omega) hMidHigh hHigh hInt rfl
  obtain ⟨l, r, hCross, hSuffix, hPrefix⟩ := getMaxCrossArrayRes_eq hLowMid (Nat.le_of_lt hMidHigh) hHigh
  have hIn : mid < arr.length := by omega
  rw [segment_concat hLowMid hIn] at hLeftMax hSuffix
  rw [segment_cons (Nat.le_of_lt hMidHigh) hHigh] at hPrefix
  have hMax := isGreatest_sums_append hLeftMax hRightMax hSuffix hPrefix
  rw [← segment_concat hLowMid hIn, ← segment_append hLowMid hMidHigh hHigh] at hMax
  refine ⟨_, ?_, hMax⟩
  simp only [hLeft, hRight, hCross, Option.bind_eq_bind, Option.bind_some]
  -- the branches take the greatest of the three
  generalize l + r - arr[mid] = crossRes
  split
  · rw [max_eq_left, max_eq_left] <;> omega
  split
  · rw [max_eq_left, max_eq_right] <;> omega
  · rw [max_eq_right]
    omega

/-- **A far end**: the last call but one to the right adds two places that are no `int` together. -/
theorem getMaxSubArrayRes_none (arr : List Int) {low high : Nat} (hLess : low < high) (hFar : 2 ^ 30 < high) :
    getMaxSubArrayRes arr low high = none := by
  induction hn : high - low using Nat.strongRecOn generalizing low with
  | ind n ih =>
  rw [getMaxSubArrayRes, if_neg (by omega)]
  by_cases hInt : low + high < 2 ^ 31
  · rw [if_pos ⟨hLess, hInt⟩]
    have hRight : getMaxSubArrayRes arr ((low + high) / 2 + 1) high = none :=
      ih (high - ((low + high) / 2 + 1)) (by omega) (by omega) rfl
    simp only [hRight, Option.bind_eq_bind, Option.bind_none]
    cases getMaxSubArrayRes arr low ((low + high) / 2) with
    | none => rfl
    | some leftRes => rfl
  · rw [if_neg fun hBoth => hInt hBoth.2]

/-! ### The scanned solution -/

/-- **Kadane's invariant**: behind the elements that have been scanned, the greatest sum of a part of them
and that of a part that ends with the last of them. -/
theorem kadaneLoop_eq {nums : List Int} {k : Nat} (hk : k ≤ nums.length) {i : Nat} (hi : i ≤ k)
    {maxSoFar maxEndingHere : Int} (hSoFar : IsGreatest (sums (nums.take i)) maxSoFar)
    (hHere : IsGreatest (suffixSums (nums.take i)) maxEndingHere) :
    ∃ v, kadaneLoop nums k i maxSoFar maxEndingHere = some v ∧ IsGreatest (sums (nums.take k)) v := by
  induction hn : k - i generalizing i maxSoFar maxEndingHere with
  | zero =>
    obtain rfl : i = k := by omega
    rw [kadaneLoop, if_neg (Int.lt_irrefl _)]
    exact ⟨maxSoFar, rfl, hSoFar⟩
  | succ n ih =>
    have hLess : i < nums.length := by omega
    have hEnd := isGreatest_suffixSums_concat hHere nums[i]
    rw [max_comm] at hEnd
    have hAll := isGreatest_sums_concat hSoFar hEnd
    rw [List.take_concat_get' nums i hLess] at hEnd hAll
    rw [kadaneLoop, if_pos (by omega), List.getElem?_eq_getElem hLess]
    simp only [Option.bind_eq_bind, Option.bind_some, ite_gt_eq_max]
    exact ih (by omega) hAll hEnd (by omega)

/-- With a size that is an `int`, the scan goes over as many elements. -/
theorem kadaneSolution_eq {nums : List Int} {k : Nat} (hInt : toInt nums.length = k) (hk : k ≤ nums.length)
    (hPos : 0 < k) : ∃ v, kadaneSolution nums = some v ∧ IsGreatest (sums (nums.take k)) v := by
  have hFirst : 0 < nums.length := by omega
  have hOne : nums.take 1 = [nums[0]] := by
    rw [← List.take_concat_get' nums 0 hFirst, List.take_zero, List.nil_append]
  have hSingle : IsGreatest {nums[0]} nums[0] := isGreatest_singleton
  obtain ⟨v, hKadane, hGreatest⟩ := @kadaneLoop_eq nums k hk 1 hPos _ _
    (by rw [hOne, sums_singleton]; exact hSingle) (by rw [hOne, suffixSums_singleton]; exact hSingle)
  refine ⟨v, ?_, hGreatest⟩
  rw [kadaneSolution, hInt, if_neg (by omega), List.getElem?_eq_getElem hFirst]
  simp only [Option.bind_eq_bind, Option.bind_some, hKadane]

/-- With a negative one it takes the first element only. -/
theorem kadaneSolution_neg {nums : List Int} (hNeg : toInt nums.length < 0) :
    kadaneSolution nums = nums[0]? := by
  rw [kadaneSolution, if_neg (by omega)]
  cases nums[0]? with
  | none => rfl
  | some x =>
    rw [Option.bind_eq_bind, Option.bind_some, kadaneLoop, if_neg (by omega)]

/-! ### Agreement -/

/-- The number is nothing for no numbers, and otherwise the greatest sum of a contiguous part that is not
empty. -/
def Best (nums : List Int) (v : Int) : Prop :=
  (nums = [] → v = 0) ∧
    (nums ≠ [] → IsGreatest {x | ∃ part, part ≠ [] ∧ part <:+: nums ∧ part.sum = x} v)

/-- The divided and the scanned solution give the best number. -/
def SolutionsAgree (nums : List Int) : Prop :=
  ∃ v, divideSolution nums = some v ∧ kadaneSolution nums = some v ∧ Best nums v

/-- The elements that are left when the size is cut to 32 bits. -/
def counted (nums : List Int) : List Int := nums.take (nums.length % 2 ^ 32)

theorem Best.unique {nums : List Int} {v w : Int} (h : Best nums v) (h' : Best nums w) : v = w := by
  by_cases hNone : nums = []
  · rw [h.1 hNone, h'.1 hNone]
  · exact (h.2 hNone).unique (h'.2 hNone)

theorem counted_eq_nil {nums : List Int} : counted nums = [] ↔ nums.length % 2 ^ 32 = 0 := by
  have hLe := Nat.mod_le nums.length (2 ^ 32)
  rw [← List.length_eq_zero_iff, counted, List.length_take, Nat.min_eq_left hLe]

theorem counted_all {nums : List Int} (h : nums.length < 2 ^ 32) : counted nums = nums := by
  rw [counted, Nat.mod_eq_of_lt h, List.take_length]

/-- Both solutions give the best number of the elements counted, if there are not too many. -/
theorem solutions_counted {nums : List Int} (h : nums.length % 2 ^ 32 ≤ 2 ^ 30 + 1) :
    ∃ v, divideSolution nums = some v ∧ kadaneSolution nums = some v ∧ Best (counted nums) v := by
  have hLe := Nat.mod_le nums.length (2 ^ 32)
  have hInt : toInt nums.length = (nums.length % 2 ^ 32 : Nat) := by
    rw [toInt_eq, if_pos (by omega)]
  by_cases hZero : nums.length % 2 ^ 32 = 0
  · rw [hZero] at hInt
    refine ⟨0, ?_, ?_, fun _ => rfl, fun hSome => absurd (counted_eq_nil.mpr hZero) hSome⟩
    · rw [divideSolution, hInt]
      rfl
    · rw [kadaneSolution, hInt]
      rfl
  obtain ⟨w, hKadane, hGreatest'⟩ := kadaneSolution_eq hInt hLe (by omega)
  have hSome : counted nums ≠ [] := counted_eq_nil.not.mpr hZero
  unfold counted at hSome ⊢
  generalize nums.length % 2 ^ 32 = k at *
  obtain ⟨v, hDivide, hGreatest⟩ :=
    @getMaxSubArrayRes_eq nums 0 (k - 1) (Nat.zero_le _) (by omega) (by omega)
  have hAll : segment nums 0 (k - 1) = nums.take k := by
    rw [segment, List.drop_zero, Nat.sub_add_cancel (by omega)]
  rw [hAll] at hGreatest
  obtain rfl := hGreatest.unique hGreatest'
  refine ⟨v, ?_, hKadane, fun hNil => absurd hNil hSome, fun _ => hGreatest⟩
  rw [divideSolution, hInt, if_neg (by omega), if_neg (by omega), Int.toNat_natCast, hDivide]

/-- The divided solution has no value for more elements. -/
theorem divideSolution_none {nums : List Int} (h : 2 ^ 30 + 1 < nums.length % 2 ^ 32) :
    divideSolution nums = none := by
  rw [divideSolution, toInt_eq]
  by_cases hNeg : nums.length % 2 ^ 32 < 2 ^ 31
  · rw [if_pos hNeg, if_neg (by omega), if_neg (by omega), Int.toNat_natCast]
    exact getMaxSubArrayRes_none nums (by omega) (by omega)
  · rw [if_neg hNeg, if_neg (by omega), if_pos (by omega)]

/-- **Both solutions compute the optimum** of up to `2 ^ 30 + 1` elements, and of those that are left of
`2 ^ 32` or more, which have to have the same. -/
theorem solutions_agree_iff (nums : List Int) : SolutionsAgree nums ↔
    nums.length ≤ 2 ^ 30 + 1 ∨
      2 ^ 32 ≤ nums.length ∧ nums.length % 2 ^ 32 ≤ 2 ^ 30 + 1 ∧ ∃ v, Best (counted nums) v ∧ Best nums v := by
  by_cases hFew : nums.length % 2 ^ 32 ≤ 2 ^ 30 + 1
  · obtain ⟨v, hDivide, hKadane, hBest⟩ := solutions_counted hFew
    have hSame : SolutionsAgree nums ↔ Best nums v := by
      constructor
      · rintro ⟨w, hOther, -, hAll⟩
        obtain rfl := Option.some.inj (hDivide.symm.trans hOther)
        exact hAll
      · exact fun hAll => ⟨v, hDivide, hKadane, hAll⟩
    rw [hSame]
    by_cases hShort : nums.length < 2 ^ 32
    · rw [counted_all hShort] at hBest
      rw [Nat.mod_eq_of_lt hShort] at hFew
      exact iff_of_true hBest (.inl hFew)
    · rw [or_iff_right (by omega), and_iff_right (by omega), and_iff_right hFew]
      constructor
      · exact fun hAll => ⟨v, hBest, hAll⟩
      · rintro ⟨w, hCounted, hAll⟩
        obtain rfl := hBest.unique hCounted
        exact hAll
  · refine iff_of_false ?_ (by omega)
    rintro ⟨v, hDivide, -⟩
    rw [divideSolution_none (by omega)] at hDivide
    cases hDivide

/-- A vector of zeros that is too long. -/
theorem not_solutions_agree : ¬∀ nums, SolutionsAgree nums := by
  intro h
  obtain ⟨v, hDivide, -⟩ := h (List.replicate (2 ^ 30 + 2) 0)
  rw [divideSolution_none (by rw [List.length_replicate]; omega)] at hDivide
  cases hDivide

/-- The violent and the scanned solution give the same number. -/
def ViolentAgrees (nums : List Int) : Prop :=
  ∃ v, violentSolution nums = some v ∧ kadaneSolution nums = some v

/-- No part of the elements counted has a greater sum than the first element, nor has the empty one. -/
def FirstBest (nums : List Int) : Prop :=
  ∃ x, nums[0]? = some x ∧ 0 ≤ x ∧ ∀ part, part ≠ [] → part <:+: counted nums → part.sum ≤ x

theorem violentAgrees_int {nums : List Int} {k : Nat} (hk : k = nums.length % 2 ^ 32) (hPos : 0 < k)
    (hInt : k < 2 ^ 31) : ViolentAgrees nums ↔ ∃ x ∈ counted nums, 0 ≤ x := by
  obtain ⟨v, hViolent, hGreatest⟩ := violentSolution_eq nums
  have hSize : toInt nums.length = k := by
    rw [toInt_eq, if_pos (by omega), hk]
  obtain ⟨w, hKadane, hGreatest'⟩ := kadaneSolution_eq hSize (hk ▸ Nat.mod_le _ _) hPos
  have hMax : IsGreatest (insert 0 (sums (nums.take k))) (max 0 w) := hGreatest'.insert 0
  rw [← hk] at hGreatest
  obtain rfl := hGreatest.unique hMax
  rw [ViolentAgrees, hViolent, hKadane, counted, ← hk, ← exists_nonneg_iff]
  constructor
  · rintro ⟨x, hx, hw⟩
    cases hx
    exact ⟨w, hGreatest'.1, max_eq_right_iff.mp (Option.some.inj hw).symm⟩
  · rintro ⟨x, hIn, hNonneg⟩
    have hw : 0 ≤ w := hNonneg.trans (hGreatest'.2 hIn)
    exact ⟨w, congrArg some (max_eq_right hw), rfl⟩

theorem violentAgrees_neg {nums : List Int} (hNeg : 2 ^ 31 ≤ nums.length % 2 ^ 32) :
    ViolentAgrees nums ↔ FirstBest nums := by
  have hLt := Nat.mod_lt nums.length (show 0 < 2 ^ 32 by decide)
  have hSize : toInt nums.length < 0 := by
    rw [toInt_eq, if_neg (by omega)]
    omega
  have hKadane := kadaneSolution_neg hSize
  obtain ⟨v, hViolent, hGreatest⟩ := violentSolution_eq nums
  have hAbove : ∀ x ∈ insert 0 (sums (counted nums)), x ≤ v := fun x hx => hGreatest.2 hx
  rw [ViolentAgrees, hViolent, hKadane, FirstBest]
  constructor
  · rintro ⟨x, hx, hFirst⟩
    cases hx
    exact ⟨v, hFirst, hAbove 0 (Set.mem_insert 0 _), fun part hSome hPart =>
      hAbove _ (.inr ⟨part, hSome, hPart, rfl⟩)⟩
  · rintro ⟨x, hFirst, hNonneg, hBest⟩
    refine ⟨v, rfl, ?_⟩
    have hIn : x ∈ sums (counted nums) := by
      refine ⟨[x], List.cons_ne_nil x [], ?_, List.sum_singleton⟩
      have hHead : (counted nums)[0]? = some x := by
        rw [counted, List.getElem?_take, if_pos (by omega), hFirst]
      rw [List.singleton_infix_iff]
      exact List.mem_of_getElem? hHead
    have hUp : x ≤ v := hAbove x (.inr hIn)
    have hDown : v ≤ x := by
      rcases hGreatest.1 with rfl | ⟨part, hSome, hPart, rfl⟩
      · exact hNonneg
      · exact hBest part hSome hPart
    rw [hFirst, Int.le_antisymm hUp hDown]

/-- **The violent solution** begins with a sum of zero, which the scanned one does not; and it counts the
elements in another type. -/
theorem violent_agrees_iff (nums : List Int) : ViolentAgrees nums ↔
    if nums.length % 2 ^ 32 = 0 then True
    else if nums.length % 2 ^ 32 < 2 ^ 31 then ∃ x ∈ counted nums, 0 ≤ x
    else FirstBest nums := by
  by_cases hZero : nums.length % 2 ^ 32 = 0
  · rw [if_pos hZero]
    refine iff_of_true ⟨0, ?_, ?_⟩ trivial
    · rw [violentSolution, hZero, violentOuter, if_neg (Nat.lt_irrefl 0)]
    · have hSize : toInt nums.length = 0 := by
        rw [toInt_eq, hZero]
        rfl
      rw [kadaneSolution, hSize, if_pos rfl]
  rw [if_neg hZero]
  by_cases hInt : nums.length % 2 ^ 32 < 2 ^ 31
  · rw [if_pos hInt]
    exact violentAgrees_int rfl (by omega) hInt
  · rw [if_neg hInt]
    exact violentAgrees_neg (by omega)

/-- The greatest sum is negative. -/
theorem not_violent_agrees : ¬∀ nums, ViolentAgrees nums := by
  intro h
  obtain ⟨v, hViolent, hKadane⟩ := h [-1]
  have hOne : toInt 1 = 1 := rfl
  have hSome : kadaneSolution [-1] = some (-1) := by
    rw [kadaneSolution, List.length_singleton, hOne, if_neg (by decide)]
    simp [kadaneLoop]
  have hZero : violentSolution [-1] = some 0 := by
    simp [violentSolution, violentOuter, violentInner]
  rw [hSome] at hKadane
  rw [hZero] at hViolent
  cases hKadane
  cases hViolent

end DemoCode.ClassicProblem
