import Mathlib.Algebra.Order.Group.Int
import DemoCode.Lib.Loop
import DemoCode.SortAbout.Arrays

/-! `merge_sort.cpp`.  The `tmpNums` of `Merge` is what has been written of it. -/

namespace DemoCode.SortAbout

/-- `tmpNums[tmpPos++] = x`. -/
def push (tmpSize : Int) (tmpNums : List Int) (x : Int) : Option (List Int) :=
  if tmpNums.length < tmpSize then some (tmpNums ++ [x]) else none

section

variable (nums : List Int) (tmpSize : Int)

/-- The loop while there are elements on both sides. -/
def mergeBoth (m e i j : Int) (tmpNums : List Int) : Option (Int × Int × List Int) :=
  if i ≤ m ∧ j ≤ e then do
    let x ← load nums i
    let y ← load nums j
    if x < y then
      mergeBoth m e (i + 1) j (← push tmpSize tmpNums x)
    else
      mergeBoth m e i (j + 1) (← push tmpSize tmpNums y)
  else
    some (i, j, tmpNums)
termination_by (m + 1 - i).toNat + (e + 1 - j).toNat
decreasing_by all_goals omega

/-- The loop for the rest of one side. -/
def mergeRest (last i : Int) (tmpNums : List Int) : Option (List Int) :=
  if i ≤ last then do
    let x ← load nums i
    mergeRest last (i + 1) (← push tmpSize tmpNums x)
  else
    some tmpNums
termination_by (last + 1 - i).toNat
decreasing_by omega

end

/-- The loop `nums[s++] = tmpNums[tmpPos++]`. -/
def copyBack : List Int → Int → List Int → Option (List Int)
  | [], _, nums => some nums
  | x :: tmpNums, s, nums => do
    let nums ← store nums s x
    copyBack tmpNums (s + 1) nums

/-- The loops that fill `tmpNums`. -/
def fill (nums : List Int) (tmpSize m e i j : Int) (tmpNums : List Int) : Option (List Int) := do
  let (i, j, tmpNums) ← mergeBoth nums tmpSize m e i j tmpNums
  let tmpNums ← mergeRest nums tmpSize m i tmpNums
  mergeRest nums tmpSize e j tmpNums

def merge (nums : List Int) (s m e : Int) : Option (List Int) := do
  let tmpSize ← toInt? (e - s + 1)
  let tmpNums ← fill nums tmpSize m e s (m + 1) []
  -- an element that has not been written has no value
  if tmpNums.length = tmpSize then copyBack tmpNums s nums else none

def mergeSort : ℕ → List Int → Int → Int → Option (List Int)
  | 0, _, _, _ => none
  | fuel + 1, nums, s, e =>
    if s < e then do
      let sum ← toInt? (s + e)
      let m := sum.tdiv 2
      let nums ← mergeSort fuel nums s m
      let nums ← mergeSort fuel nums (m + 1) e
      merge nums s m e
    else
      some nums

/-! ### `Merge` -/

section

variable {nums a b b' b₁ b₂ c xs ys tmpNums : List Int} {tmpSize s m e i j x : Int}

/-- The list is in the array from the index on. -/
def Stands (nums : List Int) (i : Int) (xs : List Int) : Prop :=
  ∃ front back, nums = front ++ (xs ++ back) ∧ i = front.length

theorem Stands.cons (h : Stands nums i (x :: xs)) : load nums i = some x ∧ Stands nums (i + 1) xs := by
  obtain ⟨front, back, rfl, rfl⟩ := h
  exact ⟨load_append rfl, front ++ [x], back, by simp, by simp⟩

theorem push_eq (h : tmpNums.length < tmpSize) : push tmpSize tmpNums x = some (tmpNums ++ [x]) := if_pos h

theorem mergeRest_eq (h : Stands nums i xs) (hLast : m + 1 = i + xs.length)
    (hRoom : tmpNums.length + xs.length ≤ tmpSize) :
    mergeRest nums tmpSize m i tmpNums = some (tmpNums ++ xs) := by
  induction xs generalizing i tmpNums with
  | nil =>
    rw [mergeRest, if_neg (by simp at hLast; omega), List.append_nil]
  | cons x xs ih =>
    obtain ⟨hLoad, hRest⟩ := h.cons
    rw [List.length_cons] at hLast hRoom
    rw [mergeRest, if_pos (by omega), hLoad, Option.bind_eq_bind, Option.bind_some, push_eq (by omega),
      Option.bind_eq_bind, Option.bind_some, ih hRest (by omega) (by simp; omega), List.append_assoc]
    rfl

/-- The elements in the order in which `Merge` takes them: of two that are equal, the right one first. -/
def merged (xs ys : List Int) : List Int := List.merge ys xs fun y x => decide (y ≤ x)

theorem merged_left (h : x < y) : merged (x :: xs) (y :: ys) = x :: merged xs (y :: ys) :=
  List.cons_merge_cons_neg _ _ _ (by simpa using h)

theorem merged_right (h : ¬x < y) : merged (x :: xs) (y :: ys) = y :: merged (x :: xs) ys :=
  List.cons_merge_cons_pos _ _ _ (by simpa using h)

theorem fill_left (hx : load nums i = some x) (hy : load nums j = some y) (hi : i ≤ m) (hj : j ≤ e)
    (hRoom : tmpNums.length < tmpSize) (h : x < y) :
    fill nums tmpSize m e i j tmpNums = fill nums tmpSize m e (i + 1) j (tmpNums ++ [x]) := by
  rw [fill, mergeBoth, if_pos ⟨hi, hj⟩, hx, hy]
  simp only [Option.bind_eq_bind, Option.bind_some, if_pos h, push_eq hRoom]
  rfl

theorem fill_right (hx : load nums i = some x) (hy : load nums j = some y) (hi : i ≤ m) (hj : j ≤ e)
    (hRoom : tmpNums.length < tmpSize) (h : ¬x < y) :
    fill nums tmpSize m e i j tmpNums = fill nums tmpSize m e i (j + 1) (tmpNums ++ [y]) := by
  rw [fill, mergeBoth, if_pos ⟨hi, hj⟩, hx, hy]
  simp only [Option.bind_eq_bind, Option.bind_some, if_neg h, push_eq hRoom]
  rfl

theorem fill_rest (hx : Stands nums i xs) (hy : Stands nums j ys) (hm : m + 1 = i + xs.length)
    (he : e + 1 = j + ys.length) (hRoom : tmpNums.length + xs.length + ys.length ≤ tmpSize)
    (hEnd : xs = [] ∨ ys = []) : fill nums tmpSize m e i j tmpNums = some (tmpNums ++ xs ++ ys) := by
  have hStop : ¬(i ≤ m ∧ j ≤ e) := by
    rcases hEnd with rfl | rfl
    · rw [List.length_nil] at hm
      omega
    · rw [List.length_nil] at he
      omega
  rw [fill, mergeBoth, if_neg hStop, Option.bind_eq_bind, Option.bind_some]
  dsimp only
  rw [mergeRest_eq hx hm (by omega), Option.bind_eq_bind, Option.bind_some,
    mergeRest_eq hy he (by simp; omega)]

/-- **Loop lemma** for the three loops. -/
theorem fill_eq (hx : Stands nums i xs) (hy : Stands nums j ys) (hm : m + 1 = i + xs.length)
    (he : e + 1 = j + ys.length) (hRoom : tmpNums.length + xs.length + ys.length ≤ tmpSize) :
    fill nums tmpSize m e i j tmpNums = some (tmpNums ++ merged xs ys) := by
  induction xs generalizing i j ys tmpNums with
  | nil => rw [fill_rest hx hy hm he hRoom (.inl rfl), List.append_nil, merged, List.merge_right]
  | cons x xs ih =>
    induction ys generalizing j tmpNums with
    | nil => rw [fill_rest hx hy hm he hRoom (.inr rfl), List.append_nil, merged, List.nil_merge]
    | cons y ys ih' =>
      obtain ⟨hLoad, hRest⟩ := hx.cons
      obtain ⟨hLoad', hRest'⟩ := hy.cons
      simp only [List.length_cons] at hm he hRoom
      by_cases hLess : x < y
      · rw [fill_left hLoad hLoad' (by omega) (by omega) (by omega) hLess,
          ih hRest hy (by omega) (by simp; omega) (by simp; omega), merged_left hLess, List.append_assoc]
        rfl
      · rw [fill_right hLoad hLoad' (by omega) (by omega) (by omega) hLess,
          ih' hRest' (by omega) (by simp; omega), merged_right hLess, List.append_assoc]
        rfl

theorem sorted_merged (hx : Sorted b₁ xs) (hy : Sorted b₂ ys) : Sorted (b₁ ++ b₂) (merged xs ys) := by
  constructor
  · have hMerge := @List.pairwise_merge Int (fun y x => decide (y ≤ x)) (by simpa using fun a b c => le_trans)
      (by simpa using le_total) ys xs (by simpa using hy.1) (by simpa using hx.1)
    rw [merged]
    simpa using hMerge
  · exact (List.merge_perm_append _).trans (List.perm_append_comm.trans (hx.2.append hy.2))

theorem copyBack_eq (hs : s = a.length) (h : b.length = tmpNums.length) :
    copyBack tmpNums s (a ++ b ++ c) = some (a ++ tmpNums ++ c) := by
  induction tmpNums generalizing a b s with
  | nil =>
    rw [List.eq_nil_of_length_eq_zero h]
    rfl
  | cons x tmpNums ih =>
    subst hs
    obtain ⟨y, b, rfl⟩ := List.exists_cons_of_length_eq_add_one h
    have hStore : store (a ++ y :: b ++ c) a.length x = some (a ++ x :: (b ++ c)) := by
      rw [List.append_assoc, List.cons_append, store_append rfl]
    have hNext : a ++ x :: (b ++ c) = (a ++ [x]) ++ b ++ c := by simp
    rw [copyBack, hStore, Option.bind_eq_bind, Option.bind_some, hNext,
      ih (by simp) (Nat.succ.inj h), List.append_assoc a, List.append_assoc a]
    simp

/-- **Merge.** -/
theorem merge_eq (hs : s = a.length) (hm : m + 1 = s + xs.length) (he : e + 1 = m + 1 + ys.length)
    (hInt : InInt (e - s + 1)) :
    merge (a ++ (xs ++ ys) ++ c) s m e = some (a ++ merged xs ys ++ c) := by
  have hLength : (merged xs ys).length = (xs ++ ys).length := by
    rw [merged, (List.merge_perm_append _).length_eq, List.length_append, List.length_append, Nat.add_comm]
  have hx : Stands (a ++ (xs ++ ys) ++ c) s xs := ⟨a, ys ++ c, by simp, hs⟩
  have hy : Stands (a ++ (xs ++ ys) ++ c) (m + 1) ys := ⟨a ++ xs, c, by simp, by simp; omega⟩
  rw [merge, toInt?_eq_some.mpr ⟨hInt, rfl⟩, Option.bind_eq_bind, Option.bind_some,
    fill_eq hx hy hm he (by simp; omega), Option.bind_eq_bind, Option.bind_some, List.nil_append, hLength,
    if_pos (by simp; omega), copyBack_eq hs hLength.symm]

/-! ### `MergeSort` -/

theorem mergeSort_done (h : ¬s < e) : Loop.Settles (fun fuel => mergeSort fuel nums s e) nums :=
  (Loop.settles_const nums).succ fun _ => if_neg h

theorem mergeSort_step {fuel : ℕ} (h : s < e) (hInt : InInt (s + e)) : mergeSort (fuel + 1) nums s e =
    (mergeSort fuel nums s ((s + e).tdiv 2)).bind fun nums =>
      (mergeSort fuel nums ((s + e).tdiv 2 + 1) e).bind fun nums => merge nums s ((s + e).tdiv 2) e := by
  rw [mergeSort, if_pos h, toInt?_eq_some.mpr ⟨hInt, rfl⟩]
  rfl

/-- **Run lemma**: up to 2^30 every sum of two ends is an `int`. -/
theorem mergeSort_settles (hs : s = a.length) (he : e + 1 = s + b.length) (hEnd : e ≤ 2 ^ 30) :
    ∃ b', Loop.Settles (fun fuel => mergeSort fuel (a ++ b ++ c) s e) (a ++ b' ++ c) ∧ Sorted b b' := by
  induction hn : b.length using Nat.strong_induction_on generalizing a b c s e with
  | h n ih =>
    by_cases hLess : s < e
    · -- the two halves
      have hInt : InInt (s + e) := ⟨by omega, by omega⟩
      obtain ⟨m, hm⟩ : ∃ m, (s + e).tdiv 2 = m := ⟨_, rfl⟩
      have hHalf := hm
      rw [Int.tdiv_eq_ediv_of_nonneg (by omega)] at hHalf
      obtain ⟨xs, ys, rfl, hMid⟩ : ∃ xs ys, b = xs ++ ys ∧ m + 1 = s + xs.length :=
        ⟨b.take (m + 1 - s).toNat, b.drop (m + 1 - s).toNat, (List.take_append_drop _ b).symm, by
          rw [List.length_take]
          omega⟩
      rw [List.length_append] at he hn
      obtain ⟨xs', hLeft, hxs⟩ := @ih xs.length (by omega) a xs (ys ++ c) s m hs hMid (by omega) rfl
      have hLength := hxs.2.length_eq
      obtain ⟨ys', hRight, hys⟩ := @ih ys.length (by omega) (a ++ xs') ys c (m + 1) e
        (by rw [List.length_append]; omega) (by omega) hEnd rfl
      have hLength' := hys.2.length_eq
      have hMerge : merge (a ++ (xs' ++ ys') ++ c) s m e = some (a ++ merged xs' ys' ++ c) :=
        merge_eq hs (by omega) (by omega) ⟨by omega, by omega⟩
      refine ⟨merged xs' ys', ?_, sorted_merged hxs hys⟩
      have hFirst : Loop.Settles (fun fuel => mergeSort fuel (a ++ (xs ++ ys) ++ c) s m) (a ++ xs' ++ ys ++ c) := by
        simpa using hLeft
      have hSecond : Loop.Settles (fun fuel => mergeSort fuel (a ++ xs' ++ ys ++ c) (m + 1) e)
          (a ++ (xs' ++ ys') ++ c) := by
        simpa using hRight
      have hRest : Loop.Settles (fun fuel => (mergeSort fuel (a ++ xs' ++ ys ++ c) (m + 1) e).bind
          fun nums => merge nums s m e) (a ++ merged xs' ys' ++ c) :=
        hSecond.bind (Loop.settles_of_eq hMerge)
      have hBoth : Loop.Settles (fun fuel => (mergeSort fuel (a ++ (xs ++ ys) ++ c) s m).bind fun nums =>
          (mergeSort fuel nums (m + 1) e).bind fun nums => merge nums s m e) (a ++ merged xs' ys' ++ c) :=
        hFirst.bind hRest
      refine hBoth.succ fun fuel => ?_
      rw [mergeSort_step hLess hInt, hm]
    · exact ⟨b, mergeSort_done hLess, sorted_short (by omega)⟩

/-- Above 2^30 some sum of two ends is no `int`: that of the last two elements, or of those around the one
before the last. -/
theorem mergeSort_overflows (hs : 0 ≤ s) (hLess : s < e) (hEnd : 2 ^ 30 < e) (fuel : ℕ) :
    mergeSort fuel nums s e = none := by
  induction fuel generalizing nums s with
  | zero => rfl
  | succ fuel ih =>
    by_cases hInt : InInt (s + e)
    · have hHalf : (s + e).tdiv 2 = (s + e) / 2 := Int.tdiv_eq_ediv_of_nonneg (by omega)
      have hHigh := hInt.2
      rw [mergeSort_step hLess hInt, Option.bind_eq_none_iff]
      intro nums' _
      rw [ih (by omega) (by omega)]
      rfl
    · have hNone : toInt? (s + e) = none := if_neg hInt
      rw [mergeSort, if_pos hLess, hNone]
      rfl

theorem not_settles_mergeSort {out : List Int} (hs : 0 ≤ s) (hLess : s < e) (hEnd : 2 ^ 30 < e) :
    ¬Loop.Settles (fun fuel => mergeSort fuel nums s e) out := by
  rintro ⟨n, hn⟩
  have hSome : mergeSort n nums s e = some out := hn n le_rfl
  rw [mergeSort_overflows hs hLess hEnd n] at hSome
  cases hSome

end

/-- `MergeSort` ends, and leaves the range sorted. -/
def MergeSorts (nums : List Int) (s e : Int) : Prop :=
  ∃ out, Loop.Settles (fun fuel => mergeSort fuel nums s e) out ∧ SortsRange nums out s e

/-- **`MergeSort`** sorts exactly if there is nothing to sort, or the range ends at 2^30 at the latest. -/
theorem mergeSorts_iff {nums : List Int} {s e : Int} (hRange : s ≤ e → 0 ≤ s ∧ e < nums.length) :
    MergeSorts nums s e ↔ e ≤ s ∨ e ≤ 2 ^ 30 := by
  by_cases hDone : ¬s < e
  · exact iff_of_true ⟨nums, mergeSort_done hDone, sortsRange_self (not_lt.mp hDone)⟩ (.inl (not_lt.mp hDone))
  · rw [not_not] at hDone
    obtain ⟨hs, he⟩ := hRange hDone.le
    constructor
    · rintro ⟨out, hSettles, -⟩
      exact .inr (not_lt.mp fun hEnd => not_settles_mergeSort hs hDone hEnd hSettles)
    · intro h
      obtain ⟨a, b, c, rfl, hStart, hLength⟩ := exists_append (by omega) hs he
      obtain ⟨b', hSettles, hSorted⟩ := mergeSort_settles hStart hLength (h.resolve_left hDone.not_ge)
      exact ⟨_, hSettles, sortsRange_append hSorted hStart hLength⟩

theorem mergeSorts_iff_three : MergeSorts [3, 1, 2] 0 2 ↔ (2 : Int) ≤ 0 ∨ (2 : Int) ≤ 2 ^ 30 :=
  mergeSorts_iff fun _ => ⟨by decide, by decide⟩

/-- The sum of the ends is an `int`, and that of the ends of a part is none. -/
theorem not_mergeSorts : ¬∀ (nums : List Int) (s e : Int), (s ≤ e → 0 ≤ s ∧ e < nums.length) →
    InInt (s + e) → MergeSorts nums s e := by
  intro h
  have hRange : (0 : Int) ≤ 2 ^ 30 + 1 → (0 : Int) ≤ 0 ∧
      (2 : Int) ^ 30 + 1 < (List.replicate (2 ^ 30 + 2) (0 : Int)).length := by
    intro _
    rw [List.length_replicate]
    decide
  obtain ⟨out, hSettles, -⟩ := h (List.replicate (2 ^ 30 + 2) 0) 0 (2 ^ 30 + 1) hRange (by decide)
  exact not_settles_mergeSort le_rfl (by decide) (by decide) hSettles

end DemoCode.SortAbout
