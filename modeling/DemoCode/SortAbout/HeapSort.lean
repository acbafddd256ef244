import Mathlib.Data.List.Perm.Basic
import DemoCode.Lib.Loop
import DemoCode.MaxHeap.Heap
import DemoCode.SortAbout.Arrays

/-! `max_heap_sort.cpp`.  An index is an `int` that is never negative, and a size is a `size_t`. -/

namespace DemoCode.SortAbout

open Heaps MaxHeap

/-- An index that is computed as an `int`. -/
def toIndex? (i : ℕ) : Option ℕ := if i < 2 ^ 31 then some i else none

/-- `LEFT(i)`. -/
def leftChild (i : ℕ) : Option ℕ := toIndex? (2 * i)

/-- `RIGHT(i)`. -/
def rightChild (i : ℕ) : Option ℕ := toIndex? (2 * i + 1)

/-- The child, if it is there and its element is greater than that of `iLargest`. -/
def larger (nums : List Int) (child iLargest : ℕ) : Option ℕ :=
  if child < nums.length then do
    let x ← nums[child]?
    let y ← nums[iLargest]?
    some (if x > y then child else iLargest)
  else
    some iLargest

def swap (nums : List Int) (i j : ℕ) : Option (List Int) := do
  let x ← nums[i]?
  let y ← nums[j]?
  some ((nums.set i y).set j x)

def maxHeapFix : ℕ → List Int → ℕ → Option (List Int)
  | 0, _, _ => none
  | fuel + 1, nums, i =>
    if i > nums.length / 2 then
      some nums
    else do
      let iLargest ← larger nums (← leftChild i) i
      let iLargest ← larger nums (← rightChild i) iLargest
      if i ≠ iLargest then do
        let nums ← swap nums i iLargest
        maxHeapFix fuel nums iLargest
      else
        some nums

/-- The loop of `MaxHeapBuild`. -/
def buildLoop (fuel : ℕ) : List Int → ℕ → Option (List Int)
  | nums, 0 => some nums
  | nums, iLastNotLeaf + 1 => do
    let nums ← maxHeapFix fuel nums (iLastNotLeaf + 1)
    buildLoop fuel nums iLastNotLeaf

/-- The size is cut to an `int`; there is no pass for one that is not positive. -/
def maxHeapBuild (fuel : ℕ) (nums : List Int) : Option (List Int) :=
  if nums.length < 2 then some nums else buildLoop fuel nums (((nums.length / 2 : ℕ) : Int).bmod (2 ^ 32)).toNat

/-- The loop of `MaxHeapSort`. -/
def sortLoop : ℕ → List Int → List Int → Option (List Int)
  | 0, _, _ => none
  | fuel + 1, nums, tmpVec =>
    if nums.length > 1 then do
      let nums ← swap nums 1 (nums.length - 1)
      let back ← nums.getLast?
      let nums ← maxHeapFix (fuel + 1) nums.dropLast 1
      sortLoop fuel nums (tmpVec ++ [back])
    else
      some tmpVec

def maxHeapSort (fuel : ℕ) (nums : List Int) : Option (List Int) :=
  if nums.length < 2 then
    some nums
  else do
    let x ← nums[0]?
    let nums ← maxHeapBuild fuel nums
    sortLoop fuel nums [x]

section

variable {nums nums' : List Int} {i c s fuel : ℕ}

/-! ### `MaxHeapFix` -/

theorem swap_eq (hi : i < nums.length) (hc : c < nums.length) :
    ∃ nums', swap nums i c = some nums' ∧ nums'.Perm nums ∧
      val nums' = Function.update (Function.update (val nums) i (val nums c)) c (val nums i) := by
  refine ⟨(nums.set i (val nums c)).set c (val nums i), ?_, ?_, ?_⟩
  · rw [swap, getElem?_val hi, getElem?_val hc]
    rfl
  · rw [val, val, List.getD_eq_getElem _ _ hi, List.getD_eq_getElem _ _ hc]
    exact List.set_set_perm hi hc
  · rw [val_set (by rw [List.length_set]; exact hc), val_set hi]

/-- What `MaxHeapFix` compares: a child, if it is greater. -/
theorem larger_eq (hi : i < nums.length) : ∃ l, larger nums c i = some l ∧
    (l ≠ i → l = c ∧ l < nums.length ∧ val nums i < val nums l) ∧ val nums i ≤ val nums l ∧
    (c < nums.length → val nums c ≤ val nums l) := by
  by_cases hIn : c < nums.length
  · have hLarger : larger nums c i = some (if val nums c > val nums i then c else i) := by
      rw [larger, if_pos hIn, getElem?_val hi, getElem?_val hIn]
      rfl
    by_cases hGreater : val nums c > val nums i
    · rw [if_pos hGreater] at hLarger
      exact ⟨c, hLarger, fun _ => ⟨rfl, hIn, hGreater⟩, hGreater.le, fun _ => le_rfl⟩
    · rw [if_neg hGreater] at hLarger
      exact ⟨i, hLarger, fun hNe => absurd rfl hNe, le_rfl, fun _ => not_lt.mp hGreater⟩
  · exact ⟨i, if_neg hIn, fun hNe => absurd rfl hNe, le_rfl, fun hc => absurd hc hIn⟩

theorem maxHeapFix_done (h : nums.length / 2 < i) : maxHeapFix (fuel + 1) nums i = some nums := by
  rw [maxHeapFix, if_pos h]

/-- **Step lemma**: the greatest of an element and its children. -/
theorem maxHeapFix_step (hi : 1 ≤ i) (hHalf : i ≤ nums.length / 2) (hInt : 2 * i + 1 < 2 ^ 31) :
    ∃ c, (∀ fuel, maxHeapFix (fuel + 1) nums i =
        if i ≠ c then (swap nums i c).bind fun nums => maxHeapFix fuel nums c else some nums) ∧
      (c ≠ i → c / 2 = i ∧ c < nums.length ∧ val nums i < val nums c) ∧
      ∀ j, j < nums.length → j / 2 = i → val nums j ≤ val nums c := by
  have hIn : i < nums.length := by omega
  have hLeft : leftChild i = some (2 * i) := if_pos (by omega)
  have hRight : rightChild i = some (2 * i + 1) := if_pos hInt
  obtain ⟨l, hl, hlPlace, hlSelf, hlLeft⟩ := larger_eq (c := 2 * i) hIn
  have hlIn : l < nums.length := by
    by_cases hSame : l = i
    · rwa [hSame]
    · exact (hlPlace hSame).2.1
  obtain ⟨c, hc, hcPlace, hcLeft, hcRight⟩ := larger_eq (c := 2 * i + 1) hlIn
  refine ⟨c, fun fuel => ?_, fun hNe => ?_, fun j hj hParent => ?_⟩
  · rw [maxHeapFix, if_neg (not_lt.mpr hHalf)]
    simp only [Option.bind_eq_bind, Option.bind_some, hLeft, hRight, hl, hc]
  · by_cases hSame : c = l
    · subst hSame
      obtain ⟨hPlace, hIn', hGreater⟩ := hlPlace hNe
      exact ⟨by omega, hIn', hGreater⟩
    · obtain ⟨hPlace, hIn', hGreater⟩ := hcPlace hSame
      exact ⟨by omega, hIn', hlSelf.trans_lt hGreater⟩
  · obtain rfl | rfl : j = 2 * i ∨ j = 2 * i + 1 := by omega
    · exact (hlLeft hj).trans hcLeft
    · exact hcRight hj

/-- The elements are permuted, and the first one stays. -/
structure Rearranged (nums nums' : List Int) : Prop where
  perm : nums'.Perm nums
  first : nums'[0]? = nums[0]?

theorem Rearranged.refl (nums : List Int) : Rearranged nums nums := ⟨List.Perm.refl nums, rfl⟩

theorem Rearranged.trans {nums'' : List Int} (h : Rearranged nums nums') (h' : Rearranged nums' nums'') :
    Rearranged nums nums'' := ⟨h'.perm.trans h.perm, h'.first.trans h.first⟩

theorem Rearranged.exists_cons {t : List Int} {x : Int} (h : Rearranged (x :: t) nums') :
    ∃ t', nums' = x :: t' ∧ t'.Perm t := by
  rcases nums' with _ | ⟨y, t'⟩
  · exact absurd h.perm.length_eq (by simp)
  · obtain rfl : y = x := Option.some.inj h.first
    exact ⟨t', rfl, h.perm.cons_inv⟩

theorem rearranged_of_val (hPerm : nums'.Perm nums) (hVal : val nums' 0 = val nums 0) (hNe : 0 < nums.length) :
    Rearranged nums nums' := by
  refine ⟨hPerm, ?_⟩
  rw [getElem?_val hNe, getElem?_val (hPerm.length_eq ▸ hNe), hVal]

/-- **`MaxHeapFix`** sinks the element at `i`. -/
theorem maxHeapFix_eq (h : Sinking (val nums) nums.length s i) (hi : 1 ≤ i) (hShort : nums.length < 2 ^ 31) :
    ∃ nums', (∀ fuel, nums.length - i < fuel → maxHeapFix fuel nums i = some nums') ∧ Rearranged nums nums' ∧
      OrderedFrom (val nums') nums.length s := by
  induction hn : nums.length - i using Nat.strong_induction_on generalizing nums i with
  | h n ih =>
    by_cases hLeaf : nums.length / 2 < i
    · refine ⟨nums, fun fuel hFuel => ?_, Rearranged.refl nums, h.orderedFrom fun j hj hParent => ?_⟩
      · obtain ⟨fuel, rfl⟩ : ∃ k, fuel = k + 1 := ⟨fuel - 1, by omega⟩
        exact maxHeapFix_done hLeaf
      · omega
    obtain ⟨c, hStep, hPlace, hGreatest⟩ := maxHeapFix_step hi (not_lt.mp hLeaf) (by omega)
    by_cases hStop : c = i
    · rw [hStop] at hGreatest
      refine ⟨nums, fun fuel hFuel => ?_, Rearranged.refl nums, h.orderedFrom hGreatest⟩
      obtain ⟨fuel, rfl⟩ : ∃ k, fuel = k + 1 := ⟨fuel - 1, by omega⟩
      rw [hStep, if_neg (not_not_intro hStop.symm)]
    obtain ⟨hChild, hc, hGreater⟩ := hPlace hStop
    obtain ⟨mid, hSwap, hPerm, hVal⟩ := swap_eq (show i < nums.length by omega) hc
    have hFirst : val mid 0 = val nums 0 := by
      rw [hVal, Function.update_of_ne (by omega), Function.update_of_ne (by omega)]
    have hMid : Sinking (val mid) mid.length s c := by
      rw [hVal, hPerm.length_eq]
      exact h.swap hi hc hChild hGreatest hGreater.le
    obtain ⟨nums', hRest, hRearranged, hOrdered⟩ :=
      ih (mid.length - c) (by rw [hPerm.length_eq]; omega) hMid (by omega) (by rwa [hPerm.length_eq]) rfl
    rw [hPerm.length_eq] at hRest hOrdered
    refine ⟨nums', fun fuel hFuel => ?_, (rearranged_of_val hPerm hFirst (by omega)).trans hRearranged, hOrdered⟩
    obtain ⟨fuel, rfl⟩ : ∃ k, fuel = k + 1 := ⟨fuel - 1, by omega⟩
    rw [hStep, if_pos (Ne.symm hStop), hSwap, Option.bind_some, hRest fuel (by omega)]

/-! ### `MaxHeapBuild` -/

/-- **Loop lemma**: the elements behind those that are still to be fixed are in heap order. -/
theorem buildLoop_eq {k : ℕ} (h : OrderedFrom (val nums) nums.length (k + 1)) (hShort : nums.length < 2 ^ 31) :
    ∃ nums', (∀ fuel, nums.length < fuel → buildLoop fuel nums k = some nums') ∧ Rearranged nums nums' ∧
      OrderedFrom (val nums') nums.length 1 := by
  induction k generalizing nums with
  | zero => exact ⟨nums, fun _ _ => rfl, Rearranged.refl nums, h⟩
  | succ k ih =>
    obtain ⟨mid, hFix, hRearranged, hOrdered⟩ := maxHeapFix_eq (h.sinking (by omega)) (by omega) hShort
    rw [← hRearranged.perm.length_eq] at hOrdered
    obtain ⟨nums', hRest, hRearranged', hOrdered'⟩ := ih hOrdered (by rwa [hRearranged.perm.length_eq])
    rw [hRearranged.perm.length_eq] at hRest hOrdered'
    refine ⟨nums', fun fuel hFuel => ?_, hRearranged.trans hRearranged', hOrdered'⟩
    rw [buildLoop, hFix fuel (by omega)]
    simp only [Option.bind_eq_bind, Option.bind_some, hRest fuel hFuel]

/-- **`MaxHeapBuild`** -/
theorem maxHeapBuild_eq (hShort : nums.length < 2 ^ 31) :
    ∃ nums', (∀ fuel, nums.length < fuel → maxHeapBuild fuel nums = some nums') ∧ Rearranged nums nums' ∧
      Ordered (val nums') nums.length := by
  by_cases hSmall : nums.length < 2
  · refine ⟨nums, fun fuel _ => if_pos hSmall, Rearranged.refl nums, fun j hj hLess => ?_⟩
    omega
  · have hFrom : OrderedFrom (val nums) nums.length (nums.length / 2 + 1) := orderedFrom_of_le (by omega)
    obtain ⟨nums', hLoop, hRearranged, hOrdered⟩ := buildLoop_eq hFrom hShort
    have hNarrow : (((nums.length / 2 : ℕ) : Int).bmod (2 ^ 32)).toNat = nums.length / 2 := by
      rw [Int.bmod_eq_of_le (by omega) (by omega), Int.toNat_natCast]
    refine ⟨nums', fun fuel hFuel => ?_, hRearranged, orderedFrom_one.mp hOrdered⟩
    rw [maxHeapBuild, if_neg hSmall, hNarrow, hLoop fuel hFuel]

/-! ### `MaxHeapSort` -/

theorem exists_cons_of_fixed {t rest fixed : List Int} {x y : Int} (hPerm : (rest ++ [y]).Perm (x :: t))
    (h : Rearranged rest fixed) (hFirst : rest[0]? = some x) : ∃ t', fixed = x :: t' ∧ (y :: t').Perm t := by
  rcases rest with _ | ⟨x', rest⟩
  · cases hFirst
  · obtain rfl : x' = x := Option.some.inj hFirst
    obtain ⟨t', rfl, hPerm'⟩ := h.exists_cons
    refine ⟨t', rfl, ?_⟩
    have hBack : (y :: rest).Perm t := (List.perm_append_singleton y rest).symm.trans hPerm.cons_inv
    exact (hPerm'.cons y).trans hBack

/-- **Loop lemma**: what the loop appends. -/
theorem sortLoop_eq {t : List Int} {x : Int} (h : Ordered (val (x :: t)) (x :: t).length)
    (hShort : (x :: t).length < 2 ^ 31) (tmpVec : List Int) :
    ∃ d, (∀ fuel, t.length < fuel → sortLoop fuel (x :: t) tmpVec = some (tmpVec ++ d)) ∧
      d.Pairwise (· ≥ ·) ∧ d.Perm t := by
  induction hn : t.length generalizing t tmpVec with
  | zero =>
    obtain rfl := List.length_eq_zero_iff.mp hn
    refine ⟨[], fun fuel hFuel => ?_, List.Pairwise.nil, List.Perm.nil⟩
    obtain ⟨fuel, rfl⟩ : ∃ k, fuel = k + 1 := ⟨fuel - 1, by omega⟩
    rw [sortLoop, if_neg (by simp), List.append_nil]
  | succ n ih =>
    have hLength : (x :: t).length = n + 2 := by rw [List.length_cons, hn]
    obtain ⟨mid, hSwap, hPerm, hVal⟩ :=
      swap_eq (show 1 < (x :: t).length by omega) (show n + 1 < (x :: t).length by omega)
    -- the greatest element is the last one
    obtain ⟨rest, y, hConcat⟩ : ∃ rest y, mid = rest ++ [y] := by
      rcases List.eq_nil_or_concat mid with rfl | ⟨rest, y, hConcat⟩
      · exact absurd hPerm.length_eq (by simp)
      · exact ⟨rest, y, by rw [hConcat, List.concat_eq_append]⟩
    subst hConcat
    have hRest : rest.length = n + 1 := by
      have hSame := hPerm.length_eq
      rw [hLength, List.length_append, List.length_singleton] at hSame
      omega
    have hy : y = val (x :: t) 1 := by
      rw [← val_concat rest y, hVal, hRest, Function.update_self]
    have hFirst : rest[0]? = some x := by
      have hZero : val rest 0 = x := by
        rw [← val_append_left (by omega) [y], hVal, Function.update_of_ne (by omega),
          Function.update_of_ne (by omega)]
        rfl
      rw [getElem?_val (by omega), hZero]
    have hSinking : Sinking (val rest) rest.length 1 1 := by
      rw [hRest]
      refine ((h.mono (show n + 1 ≤ _ by omega)).sinking (val (x :: t) (n + 1))).congr le_rfl fun j _ hj => ?_
      rw [← val_append_left (by omega) [y], hVal, Function.update_of_ne (by omega)]
    obtain ⟨fixed, hFix, hRearranged, hOrdered⟩ := maxHeapFix_eq hSinking le_rfl (by omega)
    obtain ⟨t', rfl, hPerm'⟩ := exists_cons_of_fixed hPerm hRearranged hFirst
    have hSameLength : rest.length = (x :: t').length := hRearranged.perm.length_eq.symm
    rw [hSameLength] at hOrdered
    rw [hRest, List.length_cons, Nat.add_right_cancel_iff] at hSameLength
    obtain ⟨d, hLoop, hDown, hPermd⟩ := ih (orderedFrom_one.mp hOrdered)
      (by rw [List.length_cons]; omega) (tmpVec ++ [y]) hSameLength.symm
    refine ⟨y :: d, fun fuel hFuel => ?_, List.pairwise_cons.mpr ⟨fun z hz => ?_, hDown⟩,
      (hPermd.cons y).trans hPerm'⟩
    · obtain ⟨fuel, rfl⟩ : ∃ k, fuel = k + 1 := ⟨fuel - 1, by omega⟩
      have hLast : (x :: t).length - 1 = n + 1 := by omega
      rw [sortLoop, if_pos (by omega), hLast, hSwap]
      simp only [Option.bind_eq_bind, Option.bind_some, List.getLast?_concat, List.dropLast_concat]
      rw [hFix (fuel + 1) (by omega), Option.bind_some, hLoop fuel (by omega), List.append_assoc,
        List.singleton_append]
    · -- it comes from the heap
      have hz' : z ∈ t := hPerm'.mem_iff.mp (List.mem_cons_of_mem y (hPermd.mem_iff.mp hz))
      obtain ⟨j, hj, rfl⟩ := List.getElem_of_mem hz'
      have hVal' : val (x :: t) (j + 1) = t[j] :=
        val_eq (by rw [List.getElem?_cons_succ, List.getElem?_eq_getElem hj])
      rw [hy, ← hVal']
      exact h.le_first (by omega) (by rw [List.length_cons]; omega)

/-- `MaxHeapSort` leaves the first element, and the others in descending order. -/
def HeapSorts (nums : List Int) : Prop :=
  ∃ out, Loop.Settles (fun fuel => maxHeapSort fuel nums) out ∧ out.head? = nums.head? ∧
    out.tail.Pairwise (· ≥ ·) ∧ out.tail.Perm nums.tail

theorem maxHeapSort_eq {x : Int} {t : List Int} (h : ¬(x :: t).length < 2) : maxHeapSort fuel (x :: t) =
    (maxHeapBuild fuel (x :: t)).bind fun nums => sortLoop fuel nums [x] := if_neg h

theorem heapSorts_of_short (hShort : nums.length < 2 ^ 31) : HeapSorts nums := by
  rcases nums with _ | ⟨x, t⟩
  · exact ⟨[], Loop.settles_const [], rfl, List.Pairwise.nil, List.Perm.nil⟩
  by_cases hSmall : (x :: t).length < 2
  · obtain rfl : t = [] := List.length_eq_zero_iff.mp (by rw [List.length_cons] at hSmall; omega)
    exact ⟨[x], Loop.settles_const [x], rfl, List.Pairwise.nil, List.Perm.nil⟩
  obtain ⟨built, hBuild, hRearranged, hOrdered⟩ := maxHeapBuild_eq hShort
  have hLength := hRearranged.perm.length_eq
  obtain ⟨t', rfl, hPerm⟩ := hRearranged.exists_cons
  rw [← hLength] at hOrdered hShort
  obtain ⟨d, hLoop, hDown, hPerm'⟩ := sortLoop_eq hOrdered hShort [x]
  refine ⟨x :: d, ⟨(x :: t).length + 1, fun fuel hFuel => ?_⟩, rfl, hDown, hPerm'.trans hPerm⟩
  rw [List.length_cons, List.length_cons] at hLength
  simp only [maxHeapSort_eq hSmall, hBuild fuel hFuel, Option.bind_some]
  exact hLoop fuel (by rw [List.length_cons] at hFuel; omega)

/-! ### Indices that are no `int`s -/

theorem maxHeapFix_none (hHalf : i ≤ nums.length / 2) (hi : 2 ^ 30 ≤ i) : maxHeapFix fuel nums i = none := by
  cases fuel with
  | zero => rfl
  | succ fuel =>
    have hLeft : leftChild i = none := if_neg (by omega)
    rw [maxHeapFix, if_neg (not_lt.mpr hHalf), hLeft]
    rfl

/-- The first pass of the build does not end. -/
theorem not_heapSorts_of_long (hLong : 2 ^ 31 ≤ nums.length) (hLess : nums.length < 2 ^ 32) : ¬HeapSorts nums := by
  rintro ⟨out, ⟨n, hn⟩, -⟩
  have hSome : maxHeapSort n nums = some out := hn n le_rfl
  obtain ⟨k, hk⟩ : ∃ k, nums.length / 2 = k + 1 := ⟨nums.length / 2 - 1, by omega⟩
  have hNarrow : (((nums.length / 2 : ℕ) : Int).bmod (2 ^ 32)).toNat = k + 1 := by
    rw [Int.bmod_eq_of_le (by omega) (by omega), Int.toNat_natCast, hk]
  have hBuild : maxHeapBuild n nums = none := by
    rw [maxHeapBuild, if_neg (by omega), hNarrow, buildLoop, maxHeapFix_none hk.ge (by omega)]
    rfl
  rcases nums with _ | ⟨x, t⟩
  · exact absurd hLong (by simp)
  · rw [maxHeapSort_eq (by omega), hBuild] at hSome
    cases hSome

/-- A call on an element that is in order with its children. -/
theorem maxHeapFix_stay (fuel : ℕ) (hi : 1 ≤ i) (hHalf : i ≤ nums.length / 2)
    (h : i < 2 ^ 30 → ∀ j, j / 2 = i → val nums j ≤ val nums i) :
    maxHeapFix fuel nums i = none ∨ maxHeapFix fuel nums i = some nums := by
  by_cases hInt : i < 2 ^ 30
  · cases fuel with
    | zero => exact Or.inl rfl
    | succ fuel =>
      obtain ⟨c, hStep, hPlace, -⟩ := maxHeapFix_step hi hHalf (by omega)
      have hStay : c = i := by
        by_contra hNe
        obtain ⟨hChild, -, hGreater⟩ := hPlace hNe
        exact absurd (h hInt c hChild) (not_le.mpr hGreater)
      rw [hStep, if_neg (not_not_intro hStay.symm)]
      exact Or.inr rfl
  · exact Or.inl (maxHeapFix_none hHalf (not_lt.mp hInt))

theorem buildLoop_stay {k : ℕ} (hHalf : k ≤ nums.length / 2)
    (h : ∀ i < 2 ^ 30, 1 ≤ i → ∀ j, j / 2 = i → val nums j ≤ val nums i) :
    buildLoop fuel nums k = none ∨ buildLoop fuel nums k = some nums := by
  induction k with
  | zero => exact Or.inr rfl
  | succ k ih =>
    rw [buildLoop]
    rcases maxHeapFix_stay fuel (by omega) hHalf fun hInt => h _ hInt (by omega) with hFix | hFix
    · rw [hFix]
      exact Or.inl rfl
    · rw [hFix]
      exact ih (by omega)

theorem maxHeapBuild_stay (fuel : ℕ)
    (h : ∀ i < 2 ^ 30, 1 ≤ i → ∀ j, j / 2 = i → val nums j ≤ val nums i) :
    maxHeapBuild fuel nums = none ∨ maxHeapBuild fuel nums = some nums := by
  rw [maxHeapBuild]
  split_ifs
  · exact Or.inr rfl
  · refine buildLoop_stay ?_ h
    rw [Int.bmod]
    split_ifs <;> omega

theorem sortLoop_prefix {tmpVec out : List Int} (h : sortLoop fuel nums tmpVec = some out) : tmpVec <+: out := by
  induction fuel generalizing nums tmpVec with
  | zero => cases h
  | succ fuel ih =>
    rw [sortLoop] at h
    split_ifs at h
    · obtain ⟨mid, -, h⟩ := Option.bind_eq_some_iff.mp h
      obtain ⟨back, -, h⟩ := Option.bind_eq_some_iff.mp h
      obtain ⟨fixed, -, h⟩ := Option.bind_eq_some_iff.mp h
      exact (List.prefix_append tmpVec [back]).trans (ih h)
    · exact Option.some.inj h ▸ List.prefix_refl tmpVec

/-- The build changes nothing, and the first element of the heap is not the greatest. -/
theorem not_heapSorts_of_stay {x : Int} (hx : nums.length > 1)
    (h : ∀ i < 2 ^ 30, 1 ≤ i → ∀ j, j / 2 = i → val nums j ≤ val nums i) (hIn : x ∈ nums.tail)
    (hGreater : val nums 1 < x) : ¬HeapSorts nums := by
  rintro ⟨out, ⟨n, hn⟩, -, hDown, hPerm⟩
  have hSome : maxHeapSort (n + 1) nums = some out := hn (n + 1) (by omega)
  obtain ⟨x₀, t, rfl⟩ := List.exists_cons_of_length_pos (show 0 < nums.length by omega)
  rw [maxHeapSort_eq (by omega)] at hSome
  rcases maxHeapBuild_stay (n + 1) h with hBuild | hBuild
  · rw [hBuild] at hSome
    cases hSome
  rw [hBuild, Option.bind_some, sortLoop, if_pos hx] at hSome
  obtain ⟨mid, hSwap, hPerm', hVal⟩ := swap_eq hx (show (x₀ :: t).length - 1 < (x₀ :: t).length by omega)
  have hBack : mid.getLast? = some (val (x₀ :: t) 1) := by
    rw [List.getLast?_eq_getElem?, hPerm'.length_eq, getElem?_val (by rw [hPerm'.length_eq]; omega), hVal,
      Function.update_self]
  rw [hSwap] at hSome
  simp only [Option.bind_eq_bind, Option.bind_some, hBack] at hSome
  obtain ⟨fixed, -, hLoop⟩ := Option.bind_eq_some_iff.mp hSome
  -- the first element of the heap comes before a greater one
  obtain ⟨rest, rfl⟩ := sortLoop_prefix hLoop
  have hMem : x ∈ val (x₀ :: t) 1 :: rest := hPerm.mem_iff.mpr hIn
  rcases List.mem_cons.mp hMem with rfl | hRest
  · exact absurd hGreater (lt_irrefl _)
  · exact absurd (List.rel_of_pairwise_cons hDown hRest) (not_le.mpr hGreater)

/-- The last of very many elements is the only one that is not 0. -/
theorem not_heapSorts_of_longer {n : ℕ} (hLong : 2 ^ 32 ≤ n) : ¬HeapSorts (List.replicate (n - 1) 0 ++ [1]) := by
  have hLength : (List.replicate (n - 1) (0 : Int)).length = n - 1 := List.length_replicate
  have hZero : ∀ j < n - 1, val (List.replicate (n - 1) 0 ++ [1]) j = 0 := by
    intro j hj
    rw [val_append_left (by rwa [hLength])]
    exact val_eq (List.getElem?_replicate_of_lt hj)
  refine not_heapSorts_of_stay (x := 1) ?_ (fun i hi _ j hParent => ?_) ?_ ?_
  · rw [List.length_append, hLength, List.length_singleton]
    omega
  · rw [hZero j (by omega), hZero i (by omega)]
  · rw [List.tail_append_of_ne_nil (List.ne_nil_of_length_pos (by rw [hLength]; omega))]
    exact List.mem_append_right _ (List.mem_singleton_self 1)
  · rw [hZero 1 (by omega)]
    decide

/-- **`MaxHeapSort`** sorts every vector of `n` elements exactly if `n` is an `int`.  From 2^31 elements on it
sorts none, as long as half of the size is an `int`. -/
theorem heapSorts_iff (n : ℕ) : ((∀ nums : List Int, nums.length = n → HeapSorts nums) ↔ n < 2 ^ 31) ∧
    (n < 2 ^ 32 → ∀ nums : List Int, nums.length = n → (HeapSorts nums ↔ n < 2 ^ 31)) := by
  have hShort : n < 2 ^ 31 → ∀ nums : List Int, nums.length = n → HeapSorts nums := by
    rintro hShort nums rfl
    exact heapSorts_of_short hShort
  have hEach : n < 2 ^ 32 → ∀ nums : List Int, nums.length = n → (HeapSorts nums ↔ n < 2 ^ 31) := by
    rintro hLess nums rfl
    refine ⟨fun hSorts => ?_, fun h => hShort h nums rfl⟩
    by_contra hLong
    exact not_heapSorts_of_long (not_lt.mp hLong) hLess hSorts
  refine ⟨⟨fun hAll => ?_, hShort⟩, hEach⟩
  by_cases hLess : n < 2 ^ 32
  · have hZeros : (List.replicate n (0 : Int)).length = n := List.length_replicate
    exact (hEach hLess _ hZeros).mp (hAll _ hZeros)
  · have hLength : (List.replicate (n - 1) (0 : Int) ++ [1]).length = n := by
      rw [List.length_append, List.length_replicate, List.length_singleton]
      omega
    exact absurd (hAll _ hLength) (not_heapSorts_of_longer (not_lt.mp hLess))

end

theorem heapSorts_iff_three : HeapSorts [0, 1, 2] :=
  ((heapSorts_iff 3).2 (by decide) [0, 1, 2] rfl).mpr (by decide)

/-- Twice the index of the last parent is no `int`. -/
theorem not_heapSorts : ¬∀ nums : List Int, HeapSorts nums := by
  intro h
  have hLength : (List.replicate (2 ^ 31) (0 : Int)).length = 2 ^ 31 := List.length_replicate
  exact not_heapSorts_of_long hLength.ge (by rw [hLength]; omega) (h _)

end DemoCode.SortAbout
