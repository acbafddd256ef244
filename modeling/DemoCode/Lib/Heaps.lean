import Mathlib.Order.Basic
import Mathlib.Logic.Function.Basic
import Mathlib.Data.Nat.Basic
import Mathlib.Algebra.Order.Ring.Nat

/-! Binary heaps in an array from 1 on: every element is at most its parent, which stands at half its
place.  A heap with a hole, and what may fill it. -/

namespace Heaps

variable {α : Type*} [LinearOrder α] {f : ℕ → α} {N c i k n : ℕ} {v x : α}

/-- The elements before `N` are in heap order. -/
def Ordered (f : ℕ → α) (N : ℕ) : Prop := ∀ j, 2 ≤ j → j < N → f j ≤ f (j / 2)

theorem Ordered.mono (h : Ordered f N) (hLe : n ≤ N) : Ordered f n :=
  fun j hj hLess => h j hj (Nat.lt_of_lt_of_le hLess hLe)

theorem Ordered.congr {g : ℕ → α} (h : Ordered f N) (hSame : ∀ j, 1 ≤ j → j < N → g j = f j) : Ordered g N := by
  intro j hj hLess
  rw [hSame j (by omega) hLess, hSame (j / 2) (by omega) (by omega)]
  exact h j hj hLess

/-- Half of half, and so on. -/
theorem div_two_pow_succ (n k : ℕ) : n / 2 ^ (k + 1) = n / 2 ^ k / 2 := by
  rw [pow_succ, Nat.div_div_eq_div_mul]

/-- An element is at most every element above it. -/
theorem Ordered.le_above (h : Ordered f N) (hn : n < N) (hAbove : 1 ≤ n / 2 ^ k) : f n ≤ f (n / 2 ^ k) := by
  induction k with
  | zero => rw [pow_zero, Nat.div_one]
  | succ k ih =>
    rw [div_two_pow_succ] at hAbove ⊢
    have hLess : n / 2 ^ k < N := Nat.lt_of_le_of_lt (Nat.div_le_self _ _) hn
    exact (ih (by omega)).trans (h _ (by omega) hLess)

/-- The first element is the greatest. -/
theorem Ordered.le_first (h : Ordered f N) (hi : 1 ≤ i) (hn : i < N) : f i ≤ f 1 := by
  induction i using Nat.strongRecOn with
  | ind i ih =>
    by_cases hOne : i = 1
    · rw [hOne]
    · exact (h i (by omega) hn).trans (ih (i / 2) (by omega) (by omega) (by omega))

/-! ### Holes -/

/-- Heap order around a hole: what is below it is at most what is above it. -/
structure Hole (f : ℕ → α) (N i : ℕ) : Prop where
  rest : ∀ j, 2 ≤ j → j < N → j ≠ i → j / 2 ≠ i → f j ≤ f (j / 2)
  across : 2 ≤ i → ∀ j, j < N → j / 2 = i → f j ≤ f (i / 2)

theorem Ordered.hole (h : Ordered f N) (i : ℕ) : Hole f N i := by
  refine ⟨fun j hj hLess _ _ => h j hj hLess, fun hi j hLess hParent => ?_⟩
  have hUp := h j (by omega) hLess
  rw [hParent] at hUp
  exact hUp.trans (h i hi (by omega))

theorem Hole.update (h : Hole f N i) (x : α) : Hole (Function.update f i x) N i := by
  refine ⟨fun j hj hLess hNe hParent => ?_, fun hi j hLess hParent => ?_⟩
  · rw [Function.update_of_ne hNe, Function.update_of_ne hParent]
    exact h.rest j hj hLess hNe hParent
  · rw [Function.update_of_ne (by omega), Function.update_of_ne (by omega)]
    exact h.across hi j hLess hParent

/-- **What fills a hole** is between what is below it and what is above it. -/
theorem Hole.fill_iff (h : Hole f N i) (hi : 1 ≤ i) (hIn : i < N) : Ordered (Function.update f i x) N ↔
    (2 ≤ i → x ≤ f (i / 2)) ∧ ∀ j, 2 ≤ j → j < N → j / 2 = i → f j ≤ x := by
  constructor
  · intro hFilled
    refine ⟨fun hTwo => ?_, fun j hj hLess hParent => ?_⟩
    · have hUp := hFilled i hTwo hIn
      rw [Function.update_self, Function.update_of_ne (by omega)] at hUp
      exact hUp
    · have hUp := hFilled j hj hLess
      rw [hParent, Function.update_self, Function.update_of_ne (by omega)] at hUp
      exact hUp
  · rintro ⟨hAbove, hBelow⟩ j hj hLess
    by_cases hHere : j = i
    · rw [hHere, Function.update_self, Function.update_of_ne (by omega)]
      exact hAbove (by omega)
    rw [Function.update_of_ne hHere]
    by_cases hParent : j / 2 = i
    · rw [hParent, Function.update_self]
      exact hBelow j hj hLess hParent
    · rw [Function.update_of_ne hParent]
      exact h.rest j hj hLess hHere hParent

/-- **The hole sinks**: the greater of the elements below it moves up. -/
theorem Hole.sink (h : Hole f N i) (hChild : c / 2 = i) (hc : c < N)
    (hGreater : ∀ j, 2 ≤ j → j < N → j / 2 = i → f j ≤ f c) : Hole (Function.update f i (f c)) N c := by
  refine ⟨fun j hj hLess hNe hParent => ?_, fun _ j hLess hParent => ?_⟩
  · by_cases hHere : j = i
    · rw [hHere, Function.update_self, Function.update_of_ne (by omega)]
      exact h.across (by omega) c hc hChild
    rw [Function.update_of_ne hHere]
    by_cases hUp : j / 2 = i
    · rw [hUp, Function.update_self]
      exact hGreater j hj hLess hUp
    · rw [Function.update_of_ne hUp]
      exact h.rest j hj hLess hHere hUp
  · rw [hChild, Function.update_self, Function.update_of_ne (by omega), ← hParent]
    exact h.rest j (by omega) hLess (by omega) (by omega)

/-! ### Heap order below some places, and an element that sinks -/

/-- Heap order between the elements from `s` on and what is below them. -/
def OrderedFrom (f : ℕ → α) (N s : ℕ) : Prop := ∀ j, 2 ≤ j → j < N → s ≤ j / 2 → f j ≤ f (j / 2)

theorem orderedFrom_one : OrderedFrom f N 1 ↔ Ordered f N :=
  ⟨fun h j hj hLess => h j hj hLess (by omega), fun h j hj hLess _ => h j hj hLess⟩

/-- No element is below the second half. -/
theorem orderedFrom_of_le {s : ℕ} (h : N ≤ 2 * s) : OrderedFrom f N s := by
  intro j hj hLess hFrom
  omega

/-- Heap order except between the element at `q` and what is below it. -/
structure Sinking (f : ℕ → α) (N s q : ℕ) : Prop where
  le : s ≤ q
  rest : ∀ j, 2 ≤ j → j < N → s ≤ j / 2 → j / 2 ≠ q → f j ≤ f (j / 2)
  across : s ≤ q / 2 → ∀ j, j < N → j / 2 = q → f j ≤ f (q / 2)

theorem OrderedFrom.sinking {s : ℕ} (h : OrderedFrom f N (s + 1)) (hs : 1 ≤ s) : Sinking f N s s where
  le := Nat.le_refl s
  rest j hj hLess hFrom hNe := h j hj hLess (by omega)
  across hAbove := absurd hAbove (by omega)

/-- Another first element sinks. -/
theorem Ordered.sinking (h : Ordered f N) (x : α) : Sinking (Function.update f 1 x) N 1 1 where
  le := Nat.le_refl 1
  rest j hj hLess _ hNe := by
    rw [Function.update_of_ne (by omega), Function.update_of_ne hNe]
    exact h j hj hLess
  across hAbove := absurd hAbove (by omega)

theorem Sinking.congr {g : ℕ → α} {s q : ℕ} (h : Sinking f N s q) (hs : 1 ≤ s)
    (hSame : ∀ j, 1 ≤ j → j < N → g j = f j) : Sinking g N s q where
  le := h.le
  rest j hj hLess hFrom hNe := by
    rw [hSame j (by omega) hLess, hSame (j / 2) (by omega) (by omega)]
    exact h.rest j hj hLess hFrom hNe
  across hAbove j hLess hParent := by
    rw [hSame j (by omega) hLess, hSame (q / 2) (by omega) (by omega)]
    exact h.across hAbove j hLess hParent

/-- It has sunk when nothing below it is greater. -/
theorem Sinking.orderedFrom {s q : ℕ} (h : Sinking f N s q) (hBelow : ∀ j, j < N → j / 2 = q → f j ≤ f q) :
    OrderedFrom f N s := by
  intro j hj hLess hFrom
  by_cases hHere : j / 2 = q
  · rw [hHere]
    exact hBelow j hLess hHere
  · exact h.rest j hj hLess hFrom hHere

/-- **The element sinks**: it changes places with the greatest one below it. -/
theorem Sinking.swap {s q : ℕ} (h : Sinking f N s q) (hq : 1 ≤ q) (hc : c < N) (hChild : c / 2 = q)
    (hGreater : ∀ j, j < N → j / 2 = q → f j ≤ f c) (hLe : f q ≤ f c) :
    Sinking (Function.update (Function.update f q (f c)) c (f q)) N s c := by
  have hFrom := h.le
  have hAt : Function.update (Function.update f q (f c)) c (f q) q = f c := by
    rw [Function.update_of_ne (by omega), Function.update_self]
  have hElse : ∀ j, j ≠ q → j ≠ c → Function.update (Function.update f q (f c)) c (f q) j = f j := by
    intro j hNe hNe'
    rw [Function.update_of_ne hNe', Function.update_of_ne hNe]
  refine ⟨by omega, fun j hj hLess hAbove hNe => ?_, fun _ j hLess hParent => ?_⟩
  · by_cases hUp : j / 2 = q
    · rw [hUp, hAt]
      by_cases hHere : j = c
      · rw [hHere, Function.update_self]
        exact hLe
      · rw [hElse j (by omega) hHere]
        exact hGreater j hLess hUp
    · rw [hElse (j / 2) hUp hNe]
      by_cases hHere : j = q
      · rw [hHere, hAt]
        rw [hHere] at hAbove
        exact h.across hAbove c hc hChild
      · rw [hElse j hHere (by omega)]
        exact h.rest j hj hLess hAbove hUp
  · rw [hChild, hAt, hElse j (by omega) (by omega), ← hParent]
    exact h.rest j (by omega) hLess (by omega) (by omega)

/-! ### An element that changes places with one above it -/

/-- The new last element and one above it that is smaller, where what is above that is not, change
places: the order is kept exactly if that one is no greater than the one just above the last place. -/
theorem Ordered.swap_iff (h : Ordered f n) (hAbove : i = n / 2 ^ (k + 1)) (hi : 1 ≤ i) (hSmaller : f i < v)
    (hStop : 2 ≤ i → v ≤ f (i / 2)) :
    Ordered (Function.update (Function.update f n (f i)) i v) (n + 1) ↔ f i ≤ f (n / 2) := by
  have hHalf : i = n / 2 / 2 ^ k := by
    rw [hAbove, pow_succ, Nat.mul_comm, Nat.div_div_eq_div_mul]
  have hLe : i ≤ n / 2 := by
    rw [hHalf]
    exact Nat.div_le_self _ _
  have hNe : n ≠ i := by omega
  constructor
  · intro hSwapped
    by_cases hParent : n / 2 = i
    · rw [hParent]
    · have hUp := hSwapped n (by omega) (Nat.lt_succ_self n)
      rw [Function.update_of_ne hNe, Function.update_self, Function.update_of_ne hParent,
        Function.update_of_ne (by omega)] at hUp
      exact hUp
  · intro hEqual
    have hLonger : Ordered (Function.update f n (f i)) (n + 1) := by
      intro j hj hLess
      by_cases hLast : j = n
      · rw [hLast, Function.update_self, Function.update_of_ne (by omega)]
        exact hEqual
      · rw [Function.update_of_ne hLast, Function.update_of_ne (by omega)]
        exact h j hj (by omega)
    refine ((hLonger.hole i).fill_iff hi (by omega)).mpr ⟨fun hTwo => ?_, fun j hj hLess hParent => ?_⟩
    · rw [Function.update_of_ne (by omega)]
      exact hStop hTwo
    · have hUp := hLonger j hj hLess
      rw [hParent, Function.update_of_ne (Ne.symm hNe)] at hUp
      exact hUp.trans hSmaller.le

end Heaps
