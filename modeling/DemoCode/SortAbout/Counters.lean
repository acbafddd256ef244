import Mathlib.Data.Finset.Max
import Mathlib.Logic.Function.Basic
import DemoCode.Lib.StableSort
import DemoCode.SortAbout.Arrays

/-! The passes over the counters that `CountingSort` and `RadixSort` share. -/

namespace DemoCode.SortAbout

/-- A static `countingArray` of `maxNumber` elements. -/
abbrev Counters := ℕ → Int

def zeros : Counters := fun _ => 0

section

variable (maxNumber : ℕ) (key : Int → Int)

def counter (c : Counters) (i : Int) : Option Int := if 0 ≤ i ∧ i < maxNumber then some (c i.toNat) else none

/-- `countingArray[key(it)] += 1` for each `it`. -/
def tally : List Int → Counters → Option Counters
  | [], c => some c
  | it :: nums, c => do
    let n ← toInt? ((← counter maxNumber c (key it)) + 1)
    tally nums (Function.update c (key it).toNat n)

/-- `countingArray[i] += countingArray[i - 1]` for each `i` up to the given one. -/
def sumUp (c : Counters) : ℕ → Option Counters
  | 0 => some c
  | i + 1 => do
    let c ← sumUp c i
    let n ← toInt? (c (i + 1) + c i)
    some (Function.update c (i + 1) n)

/-- The loop over the elements from the last one on: `tmpVec[countingArray[key(it)] - offset] = it` and
`countingArray[key(it)] -= 1` for each `it`. -/
def place (offset : Int) : List Int → Counters → List Int → Option (Counters × List Int)
  | [], c, tmpVec => some (c, tmpVec)
  | it :: rest, c, tmpVec => do
    let n ← counter maxNumber c (key it)
    let tmpVec ← store tmpVec (n - offset) it
    place offset rest (Function.update c (key it).toNat (n - 1)) tmpVec

/-- The three loops over `nums`.  There is an index of type `int` for each element when the sums are `int`s. -/
def pass (offset : Int) (nums : List Int) (c : Counters) (tmpVec : List Int) : Option (Counters × List Int) := do
  let c ← tally maxNumber key nums c
  let c ← sumUp c (maxNumber - 1)
  place maxNumber key offset nums.reverse c tmpVec

end

open StableSort

/-- Each element has a counter. -/
def Keyed (maxNumber : ℕ) (key : Int → Int) (nums : List Int) : Prop :=
  ∀ x ∈ nums, 0 ≤ key x ∧ key x < maxNumber

/-- The key as an index. -/
def digit (key : Int → Int) (x : Int) : ℕ := (key x).toNat

section

variable {maxNumber : ℕ} {key : Int → Int} {nums rest tmpVec tmpVec' : List Int} {c c' : Counters}
  {offset n m x : Int} {j : ℕ}

theorem counter_eq_some : counter maxNumber c n = some m ↔ (0 ≤ n ∧ n < maxNumber) ∧ c n.toNat = m := by
  rw [counter, Option.ite_none_right_eq_some, Option.some.injEq]

theorem Keyed.digit_lt (h : Keyed maxNumber key nums) : ∀ x ∈ nums, digit key x < maxNumber := by
  intro x hx
  have hKey := h x hx
  rw [digit]
  omega

theorem tally_cons : tally maxNumber key (x :: rest) c = some c' ↔
    (0 ≤ key x ∧ key x < maxNumber) ∧ InInt (c (digit key x) + 1) ∧
      tally maxNumber key rest (Function.update c (digit key x) (c (digit key x) + 1)) = some c' := by
  simp only [tally, Option.bind_eq_bind, Option.bind_eq_some_iff, counter_eq_some, toInt?_eq_some, digit]
  constructor
  · rintro ⟨_, ⟨hKey, rfl⟩, _, ⟨hInt, rfl⟩, hRest⟩
    exact ⟨hKey, hInt, hRest⟩
  · rintro ⟨hKey, hInt, hRest⟩
    exact ⟨_, ⟨hKey, rfl⟩, _, ⟨hInt, rfl⟩, hRest⟩

/-- What `tally` adds for one element and those behind it. -/
theorem update_add_countP (c : Counters) (x : Int) (rest : List Int) (k : ℕ) :
    Function.update c (digit key x) (c (digit key x) + 1) k + rest.countP (fun y => digit key y = k) =
      c k + (x :: rest).countP (fun y => digit key y = k) := by
  rw [List.countP_cons]
  by_cases hk : digit key x = k
  · subst hk
    rw [Function.update_self, if_pos (decide_eq_true rfl)]
    push_cast
    omega
  · rw [Function.update_of_ne (Ne.symm hk), if_neg (by simpa using hk), Nat.add_zero]

theorem tally_some (h : tally maxNumber key nums c = some c') (k : ℕ) :
    c' k = c k + nums.countP (fun x => digit key x = k) := by
  induction nums generalizing c with
  | nil =>
    cases h
    simp
  | cons x rest ih =>
    obtain ⟨-, -, hRest⟩ := tally_cons.mp h
    rw [ih hRest, update_add_countP]

theorem tally_ok (hKeyed : Keyed maxNumber key nums) (hLow : ∀ k, 0 ≤ c k)
    (hHigh : ∀ k, c k + nums.countP (fun x => digit key x = k) < 2 ^ 31) :
    ∃ c', tally maxNumber key nums c = some c' := by
  induction nums generalizing c with
  | nil => exact ⟨c, rfl⟩
  | cons x rest ih =>
    obtain ⟨hKey, hRest⟩ := List.forall_mem_cons.mp hKeyed
    have hSum : ∀ k, _ = c k + (x :: rest).countP (fun y => digit key y = k) :=
      update_add_countP c x rest
    have hHere := hHigh (digit key x)
    have hBefore := hLow (digit key x)
    rw [List.countP_cons, if_pos (decide_eq_true rfl)] at hHere
    have hLow' : ∀ k, 0 ≤ Function.update c (digit key x) (c (digit key x) + 1) k := by
      intro k
      rw [Function.update_apply]
      split_ifs
      · omega
      · exact hLow k
    obtain ⟨c', hTally⟩ := ih hRest hLow' fun k => hSum k ▸ hHigh k
    exact ⟨c', tally_cons.mpr ⟨hKey, ⟨by omega, by omega⟩, hTally⟩⟩

/-! ### Sums -/

theorem sumUp_succ : sumUp c (j + 1) = some c' ↔ ∃ c₁, sumUp c j = some c₁ ∧
    InInt (c₁ (j + 1) + c₁ j) ∧ Function.update c₁ (j + 1) (c₁ (j + 1) + c₁ j) = c' := by
  simp only [sumUp, Option.bind_eq_bind, Option.bind_eq_some_iff, toInt?_eq_some, Option.some.injEq]
  constructor
  · rintro ⟨c₁, hSum, _, ⟨hInt, rfl⟩, hUpdate⟩
    exact ⟨c₁, hSum, hInt, hUpdate⟩
  · rintro ⟨c₁, hSum, hInt, hUpdate⟩
    exact ⟨c₁, hSum, _, ⟨hInt, rfl⟩, hUpdate⟩

/-- The counters up to `j` are sums. -/
theorem sumUp_some (hc : ∀ k, c k = nums.countP fun x => digit key x = k) (h : sumUp c j = some c') (k : ℕ) :
    c' k = if k ≤ j then nums.countP (fun x => digit key x < k + 1) else nums.countP fun x => digit key x = k := by
  induction j generalizing c' k with
  | zero =>
    cases h
    rw [hc]
    split_ifs with hk
    · obtain rfl := Nat.le_zero.mp hk
      simp
    · rfl
  | succ j ih =>
    obtain ⟨c₁, hSum, -, rfl⟩ := sumUp_succ.mp h
    by_cases hk : k = j + 1
    · subst hk
      rw [Function.update_self, ih hSum, ih hSum, if_neg (by omega), if_pos le_rfl, if_pos le_rfl,
        countP_lt_succ (digit key) (j + 1)]
      omega
    · have hIff : k ≤ j ↔ k ≤ j + 1 := by omega
      rw [Function.update_of_ne hk, ih hSum, if_congr hIff rfl rfl]

theorem sumUp_ok (hc : ∀ k, c k = nums.countP fun x => digit key x = k) (hLength : nums.length < 2 ^ 31) :
    ∃ c', sumUp c j = some c' := by
  induction j with
  | zero => exact ⟨c, rfl⟩
  | succ j ih =>
    obtain ⟨c₁, hSum⟩ := ih
    refine ⟨_, sumUp_succ.mpr ⟨c₁, hSum, ?_, rfl⟩⟩
    have hLe : nums.countP (fun x => digit key x < j + 1 + 1) ≤ nums.length := List.countP_le_length
    rw [countP_lt_succ] at hLe
    rw [sumUp_some hc hSum, sumUp_some hc hSum, if_neg (by omega), if_pos le_rfl]
    constructor <;> omega

/-- The last sum counts all, and is an `int`. -/
theorem sumUp_last (hKeyed : Keyed maxNumber key nums) (hPos : 1 < maxNumber)
    (hc : ∀ k, c k = nums.countP fun x => digit key x = k) (h : sumUp c (maxNumber - 1) = some c') :
    nums.length < 2 ^ 31 := by
  obtain ⟨j, rfl⟩ : ∃ j, maxNumber = j + 1 + 1 := ⟨maxNumber - 2, by omega⟩
  obtain ⟨c₁, hSum, ⟨-, hHigh⟩, -⟩ := sumUp_succ.mp h
  have hAll : nums.countP (fun x => digit key x < j + 1 + 1) = nums.length :=
    List.countP_eq_length.mpr fun x hx => decide_eq_true (hKeyed.digit_lt x hx)
  rw [countP_lt_succ] at hAll
  rw [sumUp_some hc hSum, sumUp_some hc hSum, if_neg (by omega), if_pos le_rfl] at hHigh
  omega

/-! ### Places -/

theorem place_cons {r : Counters × List Int} : place maxNumber key offset (x :: rest) c tmpVec = some r ↔
    (0 ≤ key x ∧ key x < maxNumber) ∧
      (0 ≤ c (digit key x) - offset ∧ c (digit key x) - offset < tmpVec.length) ∧
      place maxNumber key offset rest (Function.update c (digit key x) (c (digit key x) - 1))
        (tmpVec.set (c (digit key x) - offset).toNat x) = some r := by
  simp only [place, store, Option.bind_eq_bind, Option.bind_eq_some_iff, counter_eq_some,
    Option.ite_none_right_eq_some, Option.some.injEq, digit]
  constructor
  · rintro ⟨_, ⟨hKey, rfl⟩, _, ⟨hIndex, rfl⟩, hRest⟩
    exact ⟨hKey, hIndex, hRest⟩
  · rintro ⟨hKey, hIndex, hRest⟩
    exact ⟨_, ⟨hKey, rfl⟩, _, ⟨hIndex, rfl⟩, hRest⟩

/-- An element whose counter is the length of `tmpVec` is stored behind its end. -/
theorem place_fails (hx : x ∈ rest) (hc : c (digit key x) = tmpVec.length) :
    place maxNumber key 0 rest c tmpVec = none := by
  induction rest generalizing c tmpVec with
  | nil => cases hx
  | cons y rest ih =>
    rw [Option.eq_none_iff_forall_ne_some]
    intro r hPlace
    obtain ⟨-, ⟨-, hLess⟩, hRest⟩ := place_cons.mp hPlace
    by_cases hSame : digit key x = digit key y
    · rw [← hSame, hc] at hLess
      omega
    · have hIn : x ∈ rest := by
        rcases List.mem_cons.mp hx with rfl | hIn
        · exact absurd rfl hSame
        · exact hIn
      rw [ih hIn] at hRest
      · cases hRest
      · rw [Function.update_of_ne hSame, hc, List.length_set]

/-- What `tmpVec` has for a key: what was there before, and the elements that have their places. -/
def slot (key : Int → Int) (junk : ℕ → List Int) (done : List Int) (k : ℕ) : List Int :=
  junk k ++ done.filter fun x => digit key x = k

/-- The `tmpVec` up to the elements with some key. -/
def slots (key : Int → Int) (junk : ℕ → List Int) (done : List Int) (bound : ℕ) : List Int :=
  (List.range bound).flatMap (slot key junk done)

variable {junk : ℕ → List Int} {done before : List Int} {bound k : ℕ} {y : Int}

theorem slots_succ : slots key junk done (bound + 1) =
    slots key junk done bound ++ slot key junk done bound := by
  rw [slots, List.range_succ, List.flatMap_append, List.flatMap_singleton, slots]

theorem slots_le (h : k < bound) :
    (slots key junk done k).length + (junk k).length ≤ (slots key junk done bound).length := by
  induction bound with
  | zero => exact absurd h (Nat.not_lt_zero k)
  | succ bound ih =>
    rw [slots_succ, List.length_append, slot, List.length_append]
    rcases Nat.lt_succ_iff_lt_or_eq.mp h with hLess | rfl
    · have hLe := ih hLess
      omega
    · omega

/-- The slots of a key when an element gets the last free one of its own key. -/
theorem slot_store : slot key (Function.update junk (digit key x) before) (x :: done) k =
    if k = digit key x then before ++ x :: done.filter fun z => digit key z = k else slot key junk done k := by
  rw [slot]
  split_ifs with hk
  · subst hk
    rw [Function.update_self, List.filter_cons_of_pos (by simp)]
  · rw [Function.update_of_ne hk, List.filter_cons_of_neg (by simpa using Ne.symm hk), slot]

theorem slots_store_of_le (h : bound ≤ digit key x) :
    slots key (Function.update junk (digit key x) before) (x :: done) bound = slots key junk done bound := by
  refine List.flatMap_congr fun k hk => ?_
  have hLess := List.mem_range.mp hk
  rw [slot_store, if_neg (by omega)]

theorem length_slots_store (h : junk (digit key x) = before ++ [y]) :
    (slots key (Function.update junk (digit key x) before) (x :: done) bound).length =
      (slots key junk done bound).length := by
  induction bound with
  | zero => rfl
  | succ bound ih =>
    rw [slots_succ, slots_succ, List.length_append, List.length_append, ih, slot_store]
    split_ifs with hk
    · subst hk
      rw [slot, h]
      simp
    · rfl

theorem slots_store (h : junk (digit key x) = before ++ [y]) (hBound : digit key x < bound) :
    (slots key junk done bound).set ((slots key junk done (digit key x)).length + before.length) x =
      slots key (Function.update junk (digit key x) before) (x :: done) bound := by
  induction bound with
  | zero => exact absurd hBound (Nat.not_lt_zero _)
  | succ bound ih =>
    rw [slots_succ, slots_succ, slot_store]
    rcases Nat.lt_succ_iff_lt_or_eq.mp hBound with hLess | rfl
    · have hLe : _ ≤ (slots key junk done bound).length := slots_le hLess
      rw [h, List.length_append, List.length_singleton] at hLe
      rw [List.set_append_left _ _ (by omega), ih hLess, if_neg hLess.ne']
    · rw [slots_store_of_le le_rfl, List.set_append_right _ _ (by omega), Nat.add_sub_cancel_left, if_pos rfl,
        slot, h, List.append_assoc, List.set_append_right _ _ le_rfl, Nat.sub_self]
      rfl

theorem place_buckets (hKeyed : Keyed maxNumber key rest)
    (hJunk : ∀ k, (junk k).length = rest.countP fun x => digit key x = k)
    (hc : ∀ k < maxNumber, c k = (slots key junk done k).length + (junk k).length) :
    ∃ c', place maxNumber key 1 rest c (slots key junk done maxNumber) =
      some (c', buckets (digit key) maxNumber (rest.reverse ++ done)) := by
  induction rest generalizing c junk done with
  | nil =>
    refine ⟨c, ?_⟩
    have hNone : ∀ k, junk k = [] := fun k => List.eq_nil_of_length_eq_zero (hJunk k)
    have hSlots : slots key junk done maxNumber = buckets (digit key) maxNumber done :=
      List.flatMap_congr fun k _ => by rw [slot, hNone, List.nil_append]
    rw [place, hSlots, List.reverse_nil, List.nil_append]
  | cons x rest ih =>
    obtain ⟨hKey, hRest⟩ := List.forall_mem_cons.mp hKeyed
    have hDigit := hKeyed.digit_lt x List.mem_cons_self
    -- the last slot of the key that is free
    have hLength := hJunk (digit key x)
    rw [List.countP_cons, if_pos (decide_eq_true rfl)] at hLength
    obtain ⟨before, y, hy⟩ : ∃ before y, junk (digit key x) = before ++ [y] := by
      rcases List.eq_nil_or_concat (junk (digit key x)) with hNil | ⟨before, y, hConcat⟩
      · rw [hNil] at hLength
        cases hLength
      · exact ⟨before, y, hConcat.trans List.concat_eq_append⟩
    have hCounter := hc _ hDigit
    have hLe : _ ≤ (slots key junk done maxNumber).length := slots_le hDigit
    rw [hy, List.length_append, List.length_singleton] at hCounter hLe hLength
    have hIndex : (c (digit key x) - 1).toNat = (slots key junk done (digit key x)).length + before.length := by
      omega
    have hJunk' : ∀ k, (Function.update junk (digit key x) before k).length =
        rest.countP fun z => digit key z = k := by
      intro k
      by_cases hk : k = digit key x
      · subst hk
        rw [Function.update_self]
        omega
      · rw [Function.update_of_ne hk, hJunk, List.countP_cons, if_neg (by simpa using Ne.symm hk), Nat.add_zero]
    have hc' : ∀ k < maxNumber, Function.update c (digit key x) (c (digit key x) - 1) k =
        (slots key (Function.update junk (digit key x) before) (x :: done) k).length +
          (Function.update junk (digit key x) before k).length := by
      intro k hk
      rw [length_slots_store hy]
      by_cases hSame : k = digit key x
      · subst hSame
        rw [Function.update_self, Function.update_self]
        omega
      · rw [Function.update_of_ne hSame, Function.update_of_ne hSame, hc k hk]
    obtain ⟨c', hPlace⟩ := ih hRest hJunk' hc'
    rw [← slots_store hy hDigit, ← hIndex] at hPlace
    refine ⟨c', place_cons.mpr ⟨hKey, ⟨by omega, by omega⟩, ?_⟩⟩
    rw [hPlace, List.reverse_cons, List.append_assoc]
    rfl

/-! ### A pass -/

/-- The counters of all elements, from zero on. -/
theorem tally_zero (h : tally maxNumber key nums zeros = some c) (k : ℕ) :
    c k = nums.countP fun x => digit key x = k := by
  rw [tally_some h, zeros, Int.zero_add]

/-- An array of the length of `nums` has room for each key. -/
theorem exists_junk (key : Int → Int) (hTmp : tmpVec.length = nums.length) :
    ∃ junk : ℕ → List Int, (∀ k, (junk k).length = nums.countP fun x => digit key x = k) ∧
      ∀ k, slots key junk [] k = tmpVec.take (nums.countP fun x => digit key x < k) := by
  let junk (k : ℕ) : List Int :=
    (tmpVec.drop (nums.countP fun x => digit key x < k)).take (nums.countP fun x => digit key x = k)
  refine ⟨junk, fun k => ?_, fun k => ?_⟩
  · have hLe : nums.countP (fun x => digit key x < k + 1) ≤ nums.length := List.countP_le_length
    rw [countP_lt_succ] at hLe
    rw [List.length_take, List.length_drop]
    omega
  · induction k with
    | zero => simp [slots]
    | succ k ih => rw [slots_succ, ih, slot, List.filter_nil, List.append_nil, countP_lt_succ, List.take_add]

/-- **A pass with the index of each element** puts the elements into their buckets. -/
theorem pass_buckets (hKeyed : Keyed maxNumber key nums) (hLength : nums.length < 2 ^ 31)
    (hTmp : tmpVec.length = nums.length) : ∃ c, pass maxNumber key 1 nums zeros tmpVec =
      some (c, buckets (digit key) maxNumber nums) := by
  have hCount : ∀ p : Int → Bool, nums.countP p ≤ nums.length := fun p => List.countP_le_length
  obtain ⟨c₁, hTally⟩ : ∃ c₁, tally maxNumber key nums zeros = some c₁ :=
    tally_ok hKeyed (fun _ => le_rfl) fun k => by
      have hLe := hCount fun x => digit key x = k
      rw [zeros]
      omega
  obtain ⟨c₂, hSum⟩ : ∃ c₂, sumUp c₁ (maxNumber - 1) = some c₂ := sumUp_ok (tally_zero hTally) hLength
  obtain ⟨junk, hJunk, hSlots⟩ := exists_junk key hTmp
  have hAll : nums.countP (fun x => digit key x < maxNumber) = tmpVec.length :=
    (List.countP_eq_length.mpr fun x hx => decide_eq_true (hKeyed.digit_lt x hx)).trans hTmp.symm
  have hTmpVec : slots key junk [] maxNumber = tmpVec := by rw [hSlots, hAll, List.take_length]
  have hKeyed' : Keyed maxNumber key nums.reverse := fun x hx => hKeyed x (List.mem_reverse.mp hx)
  have hJunk' : ∀ k, (junk k).length = nums.reverse.countP fun x => digit key x = k := fun k => by
    rw [hJunk, List.countP_reverse]
  have hc₂ : ∀ k < maxNumber, c₂ k = (slots key junk [] k).length + (junk k).length := by
    intro k hk
    have hLe := hCount fun x => digit key x < k
    rw [sumUp_some (tally_zero hTally) hSum, if_pos (by omega), countP_lt_succ, hSlots, List.length_take, hJunk]
    omega
  obtain ⟨c, hPlace⟩ := place_buckets hKeyed' hJunk' hc₂
  rw [hTmpVec, List.reverse_reverse, List.append_nil] at hPlace
  refine ⟨c, ?_⟩
  simp only [pass, hTally, hSum, Option.bind_eq_bind, Option.bind_some, hPlace]

/-- The sums of too many elements are no `int`s. -/
theorem pass_length (hKeyed : Keyed maxNumber key nums) (hPos : 1 < maxNumber) {r : Counters × List Int}
    (h : pass maxNumber key offset nums zeros tmpVec = some r) : nums.length < 2 ^ 31 := by
  simp only [pass, Option.bind_eq_bind, Option.bind_eq_some_iff] at h
  obtain ⟨c₁, hTally, c₂, hSum, -⟩ := h
  exact sumUp_last hKeyed hPos (tally_zero hTally) hSum

/-- **A pass with the number of elements up to each one** stores behind the end. -/
theorem pass_fails (hKeyed : Keyed maxNumber key nums) (hNe : nums ≠ []) (hTmp : tmpVec.length = nums.length) :
    pass maxNumber key 0 nums zeros tmpVec = none := by
  rw [Option.eq_none_iff_forall_ne_some]
  intro r h
  simp only [pass, Option.bind_eq_bind, Option.bind_eq_some_iff] at h
  obtain ⟨c₁, hTally, c₂, hSum, hPlace⟩ := h
  -- a greatest key counts all
  obtain ⟨x, hx, hMax⟩ := nums.toFinset.exists_max_image (digit key) (List.toFinset_nonempty_iff nums |>.mpr hNe)
  rw [List.mem_toFinset] at hx
  have hAll : nums.countP (fun y => digit key y < digit key x + 1) = nums.length :=
    List.countP_eq_length.mpr fun y hy => decide_eq_true (Nat.lt_succ_of_le (hMax y (List.mem_toFinset.mpr hy)))
  have hDigit := hKeyed.digit_lt x hx
  have hCounter : c₂ (digit key x) = tmpVec.length := by
    rw [sumUp_some (tally_zero hTally) hSum, if_pos (by omega), hAll, hTmp]
  rw [place_fails (List.mem_reverse.mpr hx) hCounter] at hPlace
  cases hPlace

end

end DemoCode.SortAbout
