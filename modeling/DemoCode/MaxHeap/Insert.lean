import Mathlib.Data.List.Perm.Basic
import Mathlib.Order.Bounds.Defs
import DemoCode.MaxHeap.Heap

/-! `Insert`: the new element changes places with the highest element above it that is smaller, instead
of moving up one place after the other.  That keeps the heap order when the smaller ones are all equal;
the first element is the greatest in any case.  All this as long as the place of the new element is an
`int`: behind that the loop begins at another place, or at none. -/

namespace DemoCode.MaxHeap

open Heaps

/-- The loop goes up as long as the elements above are smaller. -/
theorem climb_eq {vec : List Int} (tmp : Int) {i : Nat} (hi : 1 ≤ i) (hIn : i < vec.length) :
    ∃ k, climb vec tmp i = some (i / 2 ^ k) ∧ 1 ≤ i / 2 ^ k ∧
      (∀ j < k, val vec (i / 2 ^ (j + 1)) < tmp) ∧ (2 ≤ i / 2 ^ k → tmp ≤ val vec (i / 2 ^ k / 2)) := by
  induction i using Nat.strongRecOn with
  | ind i ih =>
  rw [climb]
  by_cases hOne : i > 1
  · rw [if_pos hOne, getElem?_val (show i / 2 < vec.length by omega)]
    simp only [Option.bind_eq_bind, Option.bind_some]
    by_cases hSmaller : tmp > val vec (i / 2)
    · rw [if_pos hSmaller]
      obtain ⟨k, hClimb, hPos, hBelow, hStop⟩ := ih (i / 2) (by omega) (by omega) (by omega)
      have hHalf : ∀ m, i / 2 / 2 ^ m = i / 2 ^ (m + 1) := fun m => by
        rw [Nat.div_div_eq_div_mul, pow_succ, Nat.mul_comm]
      rw [hHalf] at hClimb hPos hStop
      refine ⟨k + 1, hClimb, hPos, fun j hj => ?_, hStop⟩
      cases j with
      | zero =>
        rw [Nat.zero_add, pow_one]
        exact hSmaller
      | succ j =>
        rw [← hHalf]
        exact hBelow j (by omega)
    · rw [if_neg hSmaller]
      refine ⟨0, by rw [pow_zero, Nat.div_one], by rw [pow_zero, Nat.div_one]; exact hi,
        fun j hj => absurd hj (Nat.not_lt_zero j), fun _ => ?_⟩
      rw [pow_zero, Nat.div_one]
      omega
  · rw [if_neg hOne]
    refine ⟨0, by rw [pow_zero, Nat.div_one], by rw [pow_zero, Nat.div_one]; exact hi,
      fun j hj => absurd hj (Nat.not_lt_zero j), fun hTwo => ?_⟩
    rw [pow_zero, Nat.div_one] at hTwo
    omega

/-- The place of the new element is cut to 32 bits. -/
theorem lastPlace?_eq (n : Nat) :
    lastPlace? (n + 1) = if n % 2 ^ 32 < 2 ^ 31 then some (n % 2 ^ 32) else none := by
  unfold lastPlace?
  rw [Nat.add_sub_cancel, Int.bmod_def]
  dsimp only
  have hMod : ((n : Int) % ((2 ^ 32 : Nat) : Int)) = ((n % 2 ^ 32 : Nat) : Int) := by omega
  rw [hMod]
  by_cases hSmall : n % 2 ^ 32 < 2 ^ 31
  · rw [if_pos hSmall, if_pos (by omega), if_pos (by omega), Int.toNat_natCast]
  · rw [if_neg hSmall, if_neg (by omega)]

/-- What `Insert` does: the new element changes places with the one that the loop has found, coming
from `s`. -/
structure Inserted (h : MaxHeap) (v : Int) (h' : MaxHeap) (s i k : Nat) : Prop where
  start : s ≤ h.vec.length
  place : i = s / 2 ^ k
  pos : 1 ≤ i
  length : h'.vec.length = h.vec.length + 1
  values : val h'.vec = Function.update
    (Function.update (val (h.vec ++ [v])) h.vec.length (val (h.vec ++ [v]) i)) i v
  perm : h'.vec.Perm (h.vec ++ [v])
  smaller : ∀ j < k, val h.vec (s / 2 ^ (j + 1)) < v
  stop : 2 ≤ i → v ≤ val h.vec (i / 2)

theorem length_pos {h : MaxHeap} (hWf : h.Wf) : 1 ≤ h.vec.length := by
  rw [hWf.vec_eq, List.length_cons]
  omega

theorem insert_eq {h : MaxHeap} (hWf : h.Wf) (v : Int) {s : Nat} (hs : 1 ≤ s)
    (hPlace : lastPlace? (h.vec.length + 1) = some s) :
    ∃ h' i k, h.insert v = some h' ∧ Inserted h v h' s i k := by
  have hPos := length_pos hWf
  have hStart : s ≤ h.vec.length := by
    rw [lastPlace?_eq, Option.ite_none_right_eq_some, Option.some.injEq] at hPlace
    exact hPlace.2 ▸ Nat.mod_le _ _
  generalize hVec : h.vec = vec at hPos hPlace hStart
  have hLength : (vec ++ [v]).length = vec.length + 1 := List.length_append
  have hIn : vec.length < (vec ++ [v]).length := by omega
  obtain ⟨k, hClimb, hOne, hSmaller, hStop⟩ := climb_eq v hs (Nat.lt_of_le_of_lt hStart hIn)
  have hLe := Nat.div_le_self s (2 ^ k)
  have hLess : s / 2 ^ k < (vec ++ [v]).length := by omega
  have hOld : ∀ i < vec.length, val (vec ++ [v]) i = val vec i := fun i hi => val_append_left hi [v]
  refine ⟨⟨((vec ++ [v]).set vec.length (val (vec ++ [v]) (s / 2 ^ k))).set (s / 2 ^ k) v⟩,
    s / 2 ^ k, k, ?_, ?_⟩
  · rw [insert, hVec, insertFix]
    by_cases hShort : (vec ++ [v]).length < 3
    · -- the only element stays where it is
      have hZero : s / 2 ^ k = vec.length := by omega
      rw [if_pos hShort, hZero, val_concat, List.set_set]
      rw [Option.map_some, List.set_append_right _ _ (Nat.le_refl _), Nat.sub_self]
      rfl
    · rw [if_neg hShort, List.getLast?_concat, hLength, hPlace, Nat.add_sub_cancel]
      simp only [Option.bind_eq_bind, Option.bind_some, hClimb, getElem?_val hLess, Option.map_some]
  · have hSwap : (((vec ++ [v]).set vec.length (val (vec ++ [v]) (s / 2 ^ k))).set
        (s / 2 ^ k) v).Perm (vec ++ [v]) := by
      have hAt : ∀ i, (hi : i < (vec ++ [v]).length) → val (vec ++ [v]) i = (vec ++ [v])[i] :=
        fun i hi => val_eq (List.getElem?_eq_getElem hi)
      have hPerm := List.set_set_perm hIn hLess
      rw [← hAt, ← hAt, val_concat] at hPerm
      exact hPerm
    constructor
    · rw [hVec]
      exact hStart
    · rfl
    · exact hOne
    · rw [hVec, List.length_set, List.length_set, hLength]
    · rw [hVec, val_set (by rw [List.length_set]; exact hLess), val_set hIn]
    · rw [hVec]
      exact hSwap
    · intro j hj
      have hAbove : s / 2 ^ (j + 1) < s := Nat.div_lt_self hs (Nat.one_lt_two_pow (Nat.succ_ne_zero j))
      rw [hVec, ← hOld _ (by omega)]
      exact hSmaller j hj
    · intro hTwo
      rw [hVec, ← hOld _ (by omega)]
      exact hStop hTwo

section

variable {h h' : MaxHeap} {v : Int} {s i k : Nat}

theorem Inserted.le_start (hIns : Inserted h v h' s i k) : i ≤ s := by
  rw [hIns.place]
  exact Nat.div_le_self _ _

theorem Inserted.le_length (hIns : Inserted h v h' s i k) : i ≤ h.vec.length :=
  hIns.le_start.trans hIns.start

theorem Inserted.wf (hIns : Inserted h v h' s i k) (hWf : h.Wf) : h'.Wf := by
  have hPos := hIns.pos
  have hLe := hIns.le_length
  have hFirst : val h'.vec 0 = -1 := by
    rw [hIns.values, Function.update_of_ne (by omega), Function.update_of_ne (by omega),
      val_append_left (by omega)]
    exact val_eq hWf
  rw [Wf, getElem?_val (by rw [hIns.length]; omega), hFirst]

theorem Inserted.perm_elements (hIns : Inserted h v h' s i k) (hWf : h.Wf) :
    h'.elements.Perm (v :: h.elements) :=
  (hWf.perm_elements (hIns.wf hWf) [v] hIns.perm).trans List.perm_append_comm

/-! ### Heap order -/

/-- The elements above the next place that are smaller are equal to one another. -/
def SmallerAlike (vec : List Int) (v : Int) : Prop :=
  ∀ j k, 1 ≤ j → 1 ≤ k → 1 ≤ vec.length / 2 ^ j → 1 ≤ vec.length / 2 ^ k →
    val vec (vec.length / 2 ^ j) < v → val vec (vec.length / 2 ^ k) < v →
    val vec (vec.length / 2 ^ j) = val vec (vec.length / 2 ^ k)

/-- In heap order an element at a place is at most those above it. -/
theorem le_above {vec : List Int} (hHeap : IsHeap vec) {n j k : Nat} (hn : n / 2 ^ j < vec.length)
    (hLe : j ≤ k) (hPos : 1 ≤ n / 2 ^ k) : val vec (n / 2 ^ j) ≤ val vec (n / 2 ^ k) := by
  obtain ⟨m, rfl⟩ := Nat.exists_eq_add_of_le hLe
  rw [pow_add, ← Nat.div_div_eq_div_mul] at hPos ⊢
  exact hHeap.le_above hn hPos

theorem above_lt {vec : List Int} {j : Nat} (hj : 1 ≤ j) (hPos : 1 ≤ vec.length / 2 ^ j) :
    vec.length / 2 ^ j < vec.length :=
  Nat.div_lt_self (hPos.trans (Nat.div_le_self _ _)) (Nat.one_lt_two_pow (Nat.one_le_iff_ne_zero.mp hj))

theorem half_pos {n j : Nat} (hj : 1 ≤ j) (hPos : 1 ≤ n / 2 ^ j) : 1 ≤ n / 2 := by
  have hLe : 2 ≤ 2 ^ j := Nat.le_self_pow (Nat.one_le_iff_ne_zero.mp hj) 2
  exact hPos.trans (Nat.div_le_div_left hLe Nat.two_pos)

/-- The element just above the next place is the least of those above it. -/
theorem first_le {vec : List Int} (hHeap : IsHeap vec) {j : Nat} (hj : 1 ≤ j)
    (hPos : 1 ≤ vec.length / 2 ^ j) : val vec (vec.length / 2) ≤ val vec (vec.length / 2 ^ j) := by
  have hHalf := half_pos hj hPos
  rw [← pow_one 2] at hHalf
  have hUp := le_above hHeap (above_lt (Nat.le_refl 1) hHalf) hj hPos
  rwa [pow_one] at hUp

/-- Where the element just above is not smaller, none is. -/
theorem smallerAlike_of_first {vec : List Int} (hHeap : IsHeap vec)
    (hFirst : 2 ≤ vec.length → v ≤ val vec (vec.length / 2)) : SmallerAlike vec v := by
  intro j _ hj _ hjPos _ hLess _
  have hUp := first_le hHeap hj hjPos
  have hHalf := half_pos hj hjPos
  have hLe := hFirst (by omega)
  omega

/-- All that are smaller lie between the one just above and the last one that is. -/
theorem eq_first {vec : List Int} (hHeap : IsHeap vec) (hPlace : i = vec.length / 2 ^ (k + 1))
    (hPos : 1 ≤ i) (hStop : 2 ≤ i → v ≤ val vec (i / 2))
    (hEqual : val vec i ≤ val vec (vec.length / 2)) {j : Nat} (hj : 1 ≤ j)
    (hjPos : 1 ≤ vec.length / 2 ^ j) (hLess : val vec (vec.length / 2 ^ j) < v) :
    val vec (vec.length / 2 ^ j) = val vec (vec.length / 2) := by
  have hUp := first_le hHeap hj hjPos
  by_cases hFar : j ≤ k + 1
  · have hTop := le_above hHeap (above_lt hj hjPos) hFar (by rw [← hPlace]; exact hPos)
    rw [← hPlace] at hTop
    omega
  · obtain ⟨m, rfl⟩ : ∃ m, j = k + 1 + 1 + m := ⟨j - (k + 1 + 1), by omega⟩
    have hHalf : i / 2 = vec.length / 2 ^ (k + 1 + 1) := by
      rw [hPlace]
      exact (div_two_pow_succ _ _).symm
    have hTwo : 1 ≤ i / 2 := by
      rw [hHalf]
      refine hjPos.trans (Nat.div_le_div_left ?_ (Nat.two_pow_pos _))
      exact Nat.pow_le_pow_right (by omega) (by omega)
    have hTop := le_above hHeap (above_lt (by omega) (hHalf ▸ hTwo)) (Nat.le_add_right (k + 1 + 1) m)
      hjPos
    have hOver := hStop (by omega)
    rw [hHalf] at hOver
    omega

/-- **The heap order is kept** exactly if the smaller elements above are equal. -/
theorem Inserted.isHeap_iff (hIns : Inserted h v h' h.vec.length i k) (hHeap : IsHeap h.vec) :
    IsHeap h'.vec ↔ SmallerAlike h.vec v := by
  obtain ⟨vec⟩ := h
  have hPlace := hIns.place
  have hPos := hIns.pos
  have hLe := hIns.le_length
  have hSmaller := hIns.smaller
  have hStop := hIns.stop
  dsimp only at hPlace hLe hSmaller hStop hHeap ⊢
  have hOld : ∀ j < vec.length, val (vec ++ [v]) j = val vec j := fun j hj => val_append_left hj [v]
  have hOrder : Ordered (val (vec ++ [v])) vec.length := hHeap.congr fun j _ hj => hOld j hj
  rw [IsHeap, hIns.values, hIns.length]
  dsimp only
  cases k with
  | zero =>
    -- it stays last: nothing above it is smaller
    obtain rfl : i = vec.length := by rw [hPlace, pow_zero, Nat.div_one]
    refine iff_of_true ?_ (smallerAlike_of_first hHeap hStop)
    rw [Function.update_idem]
    intro j hj hLess
    by_cases hLast : j = vec.length
    · rw [hLast, Function.update_self, Function.update_of_ne (by omega), hOld _ (by omega)]
      exact hStop (by omega)
    · rw [Function.update_of_ne hLast, Function.update_of_ne (by omega)]
      exact hOrder j hj (by omega)
  | succ k =>
    have hLess : i < vec.length := by
      rw [hPlace]
      exact above_lt (by omega) (hPlace ▸ hPos)
    have hHere : val vec i < v := by
      rw [hPlace]
      exact hSmaller k (Nat.lt_succ_self k)
    have hFirst : val vec (vec.length / 2) < v := by
      have hZero := hSmaller 0 (Nat.succ_pos k)
      rwa [Nat.zero_add, pow_one] at hZero
    rw [hOrder.swap_iff hPlace hPos (by rw [hOld i hLess]; exact hHere)
      (fun hTwo => by rw [hOld _ (by omega)]; exact hStop hTwo), hOld i hLess, hOld _ (by omega)]
    constructor
    · intro hEqual j m hj hm hjPos hmPos hjLess hmLess
      rw [eq_first hHeap hPlace hPos hStop hEqual hj hjPos hjLess,
        eq_first hHeap hPlace hPos hStop hEqual hm hmPos hmLess]
    · intro hAlike
      have hOne : 1 ≤ vec.length / 2 := by omega
      have hSame := hAlike (k + 1) 1 (by omega) (Nat.le_refl 1) (by rw [← hPlace]; exact hPos)
        (by rw [pow_one]; exact hOne) (by rw [← hPlace]; exact hHere) (by rw [pow_one]; exact hFirst)
      rw [← hPlace, pow_one] at hSame
      exact hSame.le

/-! ### Places that are no `int` -/

/-- Coming from `s`, the loop stops at `p`: all that is above `s` up to there is smaller, and what is just
above `p` is not. -/
def StopsAt (vec : List Int) (v : Int) (s p : Nat) : Prop :=
  ∃ k, p = s / 2 ^ k ∧ 1 ≤ p ∧ (∀ j < k, val vec (s / 2 ^ (j + 1)) < v) ∧
    (2 ≤ p → v ≤ val vec (p / 2))

theorem Inserted.stopsAt (hIns : Inserted h v h' s i k) : StopsAt h.vec v s i :=
  ⟨k, hIns.place, hIns.pos, hIns.smaller, hIns.stop⟩

/-- The loop stops at one place only. -/
theorem StopsAt.unique {vec : List Int} {p q : Nat} (hp : StopsAt vec v s p) (hq : StopsAt vec v s q) :
    p = q := by
  have hFirst : ∀ {k m : Nat}, k < m → 1 ≤ s / 2 ^ m → val vec (s / 2 ^ (k + 1)) < v →
      ¬(2 ≤ s / 2 ^ k → v ≤ val vec (s / 2 ^ k / 2)) := by
    intro k m hLess hPos hSmaller hStop
    have hDeep : s / 2 ^ m ≤ s / 2 ^ (k + 1) :=
      Nat.div_le_div_left (Nat.pow_le_pow_right Nat.two_pos hLess) (Nat.two_pow_pos _)
    rw [div_two_pow_succ] at hDeep hSmaller
    have hOver := hStop (by omega)
    omega
  obtain ⟨k, rfl, hPos, hSmaller, hStop⟩ := hp
  obtain ⟨m, rfl, hPos', hSmaller', hStop'⟩ := hq
  rcases Nat.lt_trichotomy k m with hLess | rfl | hMore
  · exact absurd hStop (hFirst hLess hPos' (hSmaller' k hLess))
  · rfl
  · exact absurd hStop' (hFirst hMore hPos (hSmaller m hMore))

/-- With the place cut to `s`, the new element comes to stand at `p`, and the one from there behind all
others. -/
structure FitsAt (vec : List Int) (v : Int) (s p : Nat) : Prop where
  stops : StopsAt vec v s p
  left : val vec (2 * p) ≤ v
  right : val vec (2 * p + 1) ≤ v
  last : val vec p ≤ val vec (vec.length / 2)

/-- **Far from the end** the order is kept exactly if both elements fit where they come to stand. -/
theorem Inserted.isHeap_far (hIns : Inserted h v h' s i k) (hHeap : IsHeap h.vec) (hs : s < 2 ^ 31)
    (hFar : 2 ^ 32 ≤ h.vec.length) : IsHeap h'.vec ↔ FitsAt h.vec v s i := by
  have hStops := hIns.stopsAt
  have hPos := hIns.pos
  have hLe := hIns.le_start
  have hStop := hIns.stop
  obtain ⟨vec⟩ := h
  rw [IsHeap, hIns.values, hIns.length]
  dsimp only at hFar hStops hStop hHeap ⊢
  have hOld : ∀ j < vec.length, val (vec ++ [v]) j = val vec j := fun j hj => val_append_left hj [v]
  constructor
  · intro hKept
    have hLeft := hKept (2 * i) (by omega) (by omega)
    have hRight := hKept (2 * i + 1) (by omega) (by omega)
    have hLast := hKept vec.length (by omega) (by omega)
    rw [show 2 * i / 2 = i by omega, Function.update_self, Function.update_of_ne (by omega),
      Function.update_of_ne (by omega), hOld _ (by omega)] at hLeft
    rw [show (2 * i + 1) / 2 = i by omega, Function.update_self, Function.update_of_ne (by omega),
      Function.update_of_ne (by omega), hOld _ (by omega)] at hRight
    rw [Function.update_of_ne (by omega), Function.update_self, Function.update_of_ne (by omega),
      Function.update_of_ne (by omega), hOld _ (by omega), hOld _ (by omega)] at hLast
    exact ⟨hStops, hLeft, hRight, hLast⟩
  · intro hFits
    have hLonger : Ordered (Function.update (val (vec ++ [v])) vec.length (val (vec ++ [v]) i))
        (vec.length + 1) := by
      intro j hj hLess
      by_cases hLast : j = vec.length
      · rw [hLast, Function.update_self, Function.update_of_ne (by omega), hOld _ (by omega),
          hOld _ (by omega)]
        exact hFits.last
      · rw [Function.update_of_ne hLast, Function.update_of_ne (by omega), hOld _ (by omega),
          hOld _ (by omega)]
        exact hHeap j hj (by omega)
    refine ((hLonger.hole i).fill_iff hPos (by omega)).mpr ⟨fun hTwo => ?_, fun j hj hLess hParent => ?_⟩
    · rw [Function.update_of_ne (by omega), hOld _ (by omega)]
      exact hStop hTwo
    · rw [Function.update_of_ne (by omega), hOld _ (by omega)]
      obtain rfl | rfl : j = 2 * i ∨ j = 2 * i + 1 := by omega
      · exact hFits.left
      · exact hFits.right

/-- A place that is cut to 0 is that of the sentinel, which goes to the end. -/
theorem insert_sentinel {vec : List Int} (hWf : Wf ⟨vec⟩) (v : Int)
    (hPlace : lastPlace? (vec.length + 1) = some 0) (hTwo : 2 ≤ vec.length) :
    insert ⟨vec⟩ v = some ⟨((vec ++ [v]).set vec.length (-1)).set 0 v⟩ := by
  have hLength : (vec ++ [v]).length = vec.length + 1 := List.length_append
  have hFirst : (vec ++ [v])[0]? = some (-1) := by
    rw [List.getElem?_append_left (by omega)]
    exact hWf
  have hClimb : climb (vec ++ [v]) v 0 = some 0 := by
    rw [climb, if_neg (by decide)]
  rw [insert, insertFix, if_neg (by dsimp only; omega), List.getLast?_concat, hLength, hPlace,
    Nat.add_sub_cancel]
  simp only [Option.bind_eq_bind, Option.bind_some, hClimb, hFirst, Option.map_some]

/-! ### The first element -/

/-- The first element is the greatest. -/
def TopGreatest (h : MaxHeap) : Prop := ∀ x ∈ h.elements, x ≤ val h.vec 1

/-- **The first element stays the greatest**, whatever the order of the others. -/
theorem Inserted.topGreatest (hIns : Inserted h v h' h.vec.length i k) (hWf : h.Wf) (hTop : h.TopGreatest) :
    h'.TopGreatest := by
  intro x hx
  have hPos := hIns.pos
  have hLe := hIns.le_length
  have hPlace := hIns.place
  have hGreatest : v ≤ val h'.vec 1 ∧ ∀ y ∈ h.elements, y ≤ val h'.vec 1 := by
    rw [hIns.values]
    by_cases hFirst : i = 1
    · rw [hFirst, Function.update_self]
      refine ⟨Int.le_refl v, fun y hy => ?_⟩
      cases k with
      | zero =>
        -- it is the only one
        rw [pow_zero, Nat.div_one, hFirst] at hPlace
        obtain ⟨j, hj, hLess, -⟩ := hWf.mem_elements.mp hy
        omega
      | succ k =>
        have hSmaller := hIns.smaller k (Nat.lt_succ_self k)
        rw [← hPlace, hFirst] at hSmaller
        have hUp := hTop y hy
        omega
    · have hOver := hIns.stop (by omega)
      have hHalf : val h.vec (i / 2) ∈ h.elements := hWf.mem_elements.mpr ⟨i / 2, by omega, by omega, rfl⟩
      rw [Function.update_of_ne (Ne.symm hFirst), Function.update_of_ne (by omega), val_append_left (by omega)]
      exact ⟨hOver.trans (hTop _ hHalf), hTop⟩
  rcases List.mem_cons.mp ((hIns.perm_elements hWf).mem_iff.mp hx) with rfl | hOld
  · exact hGreatest.1
  · exact hGreatest.2 x hOld

end

theorem insert_none {h : MaxHeap} {v : Int} (hPlace : lastPlace? (h.vec.length + 1) = none)
    (hTwo : 2 ≤ h.vec.length) : h.insert v = none := by
  have hLength : (h.vec ++ [v]).length = h.vec.length + 1 := List.length_append
  rw [insert, insertFix, if_neg (by omega), List.getLast?_concat, hLength, hPlace]
  rfl

theorem lastPlace?_int {n : Nat} (h : n < 2 ^ 31) : lastPlace? (n + 1) = some n := by
  rw [lastPlace?_eq, Nat.mod_eq_of_lt (by omega), if_pos h]

/-- What insertions into a heap come to, as long as every place is an `int`. -/
theorem inserts_top {h : MaxHeap} (hWf : h.Wf) (hTop : h.TopGreatest) (vals : List Int)
    (hInt : h.vec.length + vals.length ≤ 2 ^ 31) :
    ∃ h', inserts h vals = some h' ∧ h'.Wf ∧ h'.TopGreatest ∧ h'.elements.Perm (vals ++ h.elements) := by
  induction vals generalizing h with
  | nil => exact ⟨h, rfl, hWf, hTop, .refl _⟩
  | cons v vals ih =>
    rw [List.length_cons] at hInt
    obtain ⟨h₁, i, k, hInsert, hIns⟩ := insert_eq hWf v (length_pos hWf) (lastPlace?_int (by omega))
    obtain ⟨h', hRest, hWf', hTop', hPerm⟩ := ih (hIns.wf hWf) (hIns.topGreatest hWf hTop)
      (by rw [hIns.length]; omega)
    refine ⟨h', ?_, hWf', hTop', ?_⟩
    · simp only [inserts, hInsert, Option.bind_eq_bind, Option.bind_some, hRest]
    · exact hPerm.trans (((hIns.perm_elements hWf).append_left vals).trans List.perm_middle)

/-- No place is found for a new element behind `2 ^ 31` others. -/
theorem inserts_none {h : MaxHeap} (hWf : h.Wf) {vals : List Int} (hLe : h.vec.length ≤ 2 ^ 31)
    (hInt : 2 ^ 31 < h.vec.length + vals.length) : inserts h vals = none := by
  induction vals generalizing h with
  | nil =>
    rw [List.length_nil] at hInt
    omega
  | cons v vals ih =>
    rw [List.length_cons] at hInt
    by_cases hLess : h.vec.length < 2 ^ 31
    · obtain ⟨h₁, i, k, hInsert, hIns⟩ := insert_eq hWf v (length_pos hWf) (lastPlace?_int hLess)
      have hRest := ih (hIns.wf hWf) (by rw [hIns.length]; omega) (by rw [hIns.length]; omega)
      simp only [inserts, hInsert, Option.bind_eq_bind, Option.bind_some, hRest]
    · have hNone : h.insert v = none := by
        refine insert_none ?_ (by omega)
        rw [lastPlace?_eq, if_neg (by omega)]
      simp only [inserts, hNone, Option.bind_eq_bind, Option.bind_none]

theorem top_eq {h : MaxHeap} (hWf : h.Wf) (hSome : h.elements ≠ []) : h.top = some (val h.vec 1) := by
  have hLength : h.vec.length > 1 := by
    rw [hWf.vec_eq, List.length_cons]
    have hPos := List.length_pos_iff.mpr hSome
    omega
  rw [top, if_pos hLength, getElem?_val hLength]

/-- An insertion keeps the sentinel, the elements and the heap order. -/
def Keeps (h : MaxHeap) (v : Int) : Prop :=
  ∃ h', h.insert v = some h' ∧ h'.Wf ∧ IsHeap h'.vec ∧ h'.elements.Perm (v :: h.elements)

/-- The values are in the heap after their insertion, and `Top` is the greatest of them. -/
def TopOf (vals : List Int) : Prop :=
  ∃ h' greatest, inserts {} vals = some h' ∧ h'.elements.Perm vals ∧
    h'.top = some greatest ∧ IsGreatest {x | x ∈ vals} greatest

/-- An insertion at a place that is cut to an `int` keeps the heap: into the place of the sentinel only
the value of the sentinel, and into another one what fits there. -/
def KeepsFar (vec : List Int) (v : Int) : Prop :=
  2 ^ 32 ≤ vec.length ∧ vec.length % 2 ^ 32 < 2 ^ 31 ∧
    ((vec.length % 2 ^ 32 = 0 ∧ v = -1 ∧ -1 ≤ val vec (vec.length / 2)) ∨
      ∃ p, FitsAt vec v (vec.length % 2 ^ 32) p)

theorem topOf_iff {vals : List Int} (hSome : vals ≠ []) : TopOf vals ↔ vals.length < 2 ^ 31 := by
  have hEmpty : ({} : MaxHeap).Wf := rfl
  have hNone : ({} : MaxHeap).elements = [] := rfl
  have hSize : ({} : MaxHeap).vec.length = 1 := rfl
  constructor
  · rintro ⟨h', greatest, hRun, -⟩
    by_contra hMany
    rw [inserts_none hEmpty (by omega) (by omega)] at hRun
    cases hRun
  · intro hFew
    obtain ⟨h', hRun, hWf, hTop, hPerm⟩ :=
      inserts_top hEmpty (fun x hx => absurd hx List.not_mem_nil) vals (by omega)
    rw [hNone, List.append_nil] at hPerm
    have hElements : h'.elements ≠ [] := fun hNil => hSome (hNil ▸ hPerm).nil_eq.symm
    have hLength : 1 < h'.vec.length := by
      rw [hWf.vec_eq, List.length_cons]
      have hPos := List.length_pos_iff.mpr hElements
      omega
    refine ⟨h', val h'.vec 1, hRun, hPerm, top_eq hWf hElements, ?_, fun x hx => ?_⟩
    · exact hPerm.mem_iff.mp (hWf.mem_elements.mpr ⟨1, Nat.le_refl 1, hLength, rfl⟩)
    · exact hTop x (hPerm.mem_iff.mpr hx)

theorem keeps_int {h : MaxHeap} (hWf : h.Wf) (hHeap : IsHeap h.vec) (v : Int)
    (hInt : h.vec.length < 2 ^ 31) : h.Keeps v ↔ SmallerAlike h.vec v := by
  obtain ⟨h', i, k, hInsert, hIns⟩ := insert_eq hWf v (length_pos hWf) (lastPlace?_int hInt)
  rw [← hIns.isHeap_iff hHeap]
  constructor
  · rintro ⟨h'', hSome, -, hOrder, -⟩
    obtain rfl := Option.some.inj (hInsert.symm.trans hSome)
    exact hOrder
  · exact fun hOrder => ⟨h', hInsert, hIns.wf hWf, hOrder, hIns.perm_elements hWf⟩

/-- In the place of the sentinel, nothing but its value keeps the heap. -/
theorem keeps_sentinel {vec : List Int} (hWf : Wf ⟨vec⟩) (hHeap : IsHeap vec) (v : Int)
    (hPlace : lastPlace? (vec.length + 1) = some 0) (hTwo : 2 ≤ vec.length) :
    Keeps ⟨vec⟩ v ↔ v = -1 ∧ -1 ≤ val vec (vec.length / 2) := by
  have hInsert := insert_sentinel hWf v hPlace hTwo
  have hFirst : (vec ++ [v]).set vec.length (-1) = vec ++ [-1] := by
    rw [List.set_append_right _ _ (Nat.le_refl _), Nat.sub_self]
    rfl
  rw [hFirst] at hInsert
  have hOld : ∀ j < vec.length, val (vec ++ [-1]) j = val vec j := fun j hj => val_append_left hj [-1]
  have hLength : (vec ++ [-1]).length = vec.length + 1 := List.length_append
  constructor
  · rintro ⟨h', hSome, hWf', hOrder, -⟩
    obtain rfl := Option.some.inj (hInsert.symm.trans hSome)
    have hLast := hOrder vec.length hTwo (by rw [List.length_set]; omega)
    have hSentinel : some v = some (-1) := (List.getElem?_set_self (by omega)).symm.trans hWf'
    rw [val_set (by omega), Function.update_of_ne (by omega), Function.update_of_ne (by omega),
      val_concat, hOld _ (by omega)] at hLast
    exact ⟨Option.some.inj hSentinel, hLast⟩
  · rintro ⟨rfl, hLast⟩
    have hSame : (vec ++ [-1]).set 0 (-1) = vec ++ [-1] := by
      have hVec : vec = -1 :: elements ⟨vec⟩ := hWf.vec_eq
      rw [hVec]
      rfl
    rw [hSame] at hInsert
    have hWf' : Wf ⟨vec ++ [-1]⟩ := by
      rw [Wf, List.getElem?_append_left (by omega)]
      exact hWf
    refine ⟨⟨vec ++ [-1]⟩, hInsert, hWf', fun j hj hLess => ?_, ?_⟩
    · rw [hLength] at hLess
      rw [hOld (j / 2) (by omega)]
      by_cases hEnd : j = vec.length
      · rw [hEnd, val_concat]
        exact hLast
      · rw [hOld j (by omega)]
        exact hHeap j hj (by omega)
    · exact (hWf.perm_elements hWf' [-1] (.refl _)).trans List.perm_append_comm

theorem keeps_far {h : MaxHeap} (hWf : h.Wf) (hHeap : IsHeap h.vec) (v : Int)
    (hInt : 2 ^ 31 ≤ h.vec.length) : h.Keeps v ↔ KeepsFar h.vec v := by
  have hPlace := lastPlace?_eq h.vec.length
  by_cases hNegative : h.vec.length % 2 ^ 32 < 2 ^ 31
  · rw [if_pos hNegative] at hPlace
    have hFar : 2 ^ 32 ≤ h.vec.length := by omega
    rw [KeepsFar, and_iff_right hFar, and_iff_right hNegative]
    by_cases hZero : h.vec.length % 2 ^ 32 = 0
    · have hNone : ¬∃ p, FitsAt h.vec v 0 p := by
        rintro ⟨p, ⟨k, rfl, hPos, -⟩, -⟩
        rw [Nat.zero_div] at hPos
        omega
      rw [hZero] at hPlace ⊢
      rw [or_iff_left hNone, and_iff_right rfl]
      exact keeps_sentinel hWf hHeap v hPlace (by omega)
    · obtain ⟨h', i, k, hInsert, hIns⟩ := insert_eq hWf v (by omega) hPlace
      have hOrder := hIns.isHeap_far hHeap hNegative hFar
      rw [or_iff_right fun hBoth => hZero hBoth.1]
      constructor
      · rintro ⟨h'', hSome, -, hKept, -⟩
        obtain rfl := Option.some.inj (hInsert.symm.trans hSome)
        exact ⟨i, hOrder.mp hKept⟩
      · rintro ⟨p, hFits⟩
        obtain rfl := hFits.stops.unique hIns.stopsAt
        exact ⟨h', hInsert, hIns.wf hWf, hOrder.mpr hFits, hIns.perm_elements hWf⟩
  · rw [if_neg hNegative] at hPlace
    refine iff_of_false ?_ fun hFar => hNegative hFar.2.1
    rintro ⟨h', hSome, -⟩
    rw [insert_none hPlace (by omega)] at hSome
    cases hSome

/-- **Insertion** keeps the heap exactly if the elements above the new place that are smaller than the new
one are equal to one another, for places that are an `int`; and `Top` is the greatest of what was
inserted exactly as long as there is such a place. -/
theorem insert_isHeap_iff {h : MaxHeap} (hWf : h.Wf) (hHeap : IsHeap h.vec) (v : Int) :
    (h.Keeps v ↔ (h.vec.length < 2 ^ 31 ∧ SmallerAlike h.vec v) ∨ KeepsFar h.vec v) ∧
      ∀ vals, vals ≠ [] → (TopOf vals ↔ vals.length < 2 ^ 31) := by
  refine ⟨?_, fun vals hSome => topOf_iff hSome⟩
  by_cases hInt : h.vec.length < 2 ^ 31
  · have hNear : ¬KeepsFar h.vec v := fun hFar => by have hMany := hFar.1; omega
    rw [keeps_int hWf hHeap v hInt, or_iff_left hNear, and_iff_right hInt]
  · rw [keeps_far hWf hHeap v (by omega), or_iff_right fun hBoth => hInt hBoth.1]

/-- The 7 passes the 5 and stays below the 10. -/
theorem insert_isHeap_iff_seven : Keeps ⟨[-1, 10, 5, 3]⟩ 7 ∧ TopOf [10, 5, 3, 7] := by
  have hHeap : IsHeap [-1, 10, 5, 3] := by
    intro j hj hLess
    obtain rfl | rfl : j = 2 ∨ j = 3 := by
      have hFour : j < 4 := hLess
      omega
    · decide
    · decide
  have hFive : ∀ j, 1 ≤ j → 1 ≤ 4 / 2 ^ j → val [-1, 10, 5, 3] (4 / 2 ^ j) < 7 →
      val [-1, 10, 5, 3] (4 / 2 ^ j) = 5 := by
    intro j hj hPos hLess
    have hTwo : j < 3 := by
      by_contra hMore
      have hEight : 2 ^ 3 ≤ 2 ^ j := Nat.pow_le_pow_right Nat.two_pos (Nat.not_lt.mp hMore)
      rw [Nat.div_eq_of_lt (by omega)] at hPos
      omega
    obtain rfl | rfl : j = 1 ∨ j = 2 := by omega
    · rfl
    · exact absurd hLess (by decide)
  have hAlike : SmallerAlike [-1, 10, 5, 3] 7 := by
    intro j k hj hk hjPos hkPos hjLess hkLess
    exact (hFive j hj hjPos hjLess).trans (hFive k hk hkPos hkLess).symm
  have hBoth := @insert_isHeap_iff ⟨[-1, 10, 5, 3]⟩ rfl hHeap 7
  have hFour : ([-1, 10, 5, 3] : List Int).length < 2 ^ 31 := by simp
  have hFew : ([10, 5, 3, 7] : List Int).length < 2 ^ 31 := by simp
  exact ⟨hBoth.1.mpr (.inl ⟨hFour, hAlike⟩), (hBoth.2 _ (List.cons_ne_nil 10 _)).mpr hFew⟩

/-- The 12 passes the 10 and the 5: the 10 comes to stand below the 5. -/
theorem insert_breaks : ¬∀ (h h' : MaxHeap) (v : Int), h.Wf → IsHeap h.vec → h.insert v = some h' →
    IsHeap h'.vec := by
  intro hKeeps
  have hHeap : IsHeap [-1, 10, 5, 3] := by
    intro j hj hLess
    obtain rfl | rfl : j = 2 ∨ j = 3 := by
      have hFour : j < 4 := hLess
      omega
    · decide
    · decide
  have hPlace : lastPlace? 5 = some 4 := lastPlace?_int (by omega)
  have hInserted : insert ⟨[-1, 10, 5, 3]⟩ 12 = some ⟨[-1, 12, 5, 3, 10]⟩ := by
    have hClimb : climb [-1, 10, 5, 3, 12] 12 4 = some 1 := by simp [climb]
    simp [insert, insertFix, hPlace, hClimb]
  have hBroken := hKeeps ⟨[-1, 10, 5, 3]⟩ ⟨[-1, 12, 5, 3, 10]⟩ 12 rfl hHeap hInserted 4 (by decide) (by decide)
  exact absurd hBroken (by decide)

end DemoCode.MaxHeap
