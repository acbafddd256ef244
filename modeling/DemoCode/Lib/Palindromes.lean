import Mathlib.Data.List.Infix
import Mathlib.Tactic.Ring

/-! Palindromes around a place of a list, their radii and how they are mirrored in a wider one, and the
palindromes of a list as those around the places of the same list with separators. -/

namespace Palindromes

variable {α : Type*} {sep : α} {s t : List α} {c i k l p r : Nat}

/-! ### Radii -/

/-- The places less than `k` away from `c` are there, and equal those on the other side. -/
structure Mirrored (t : List α) (c k : Nat) : Prop where
  front : k ≤ c + 1
  back : c + k ≤ t.length
  equal : ∀ a b, a + b = 2 * c → a < c + k → b < c + k → t[a]? = t[b]?

theorem Mirrored.zero (h : c ≤ t.length) : Mirrored t c 0 := ⟨Nat.zero_le _, h, fun a b _ _ _ => by omega⟩

theorem Mirrored.one (h : c < t.length) : Mirrored t c 1 := by
  refine ⟨by omega, h, fun a b hSum ha hb => ?_⟩
  have hSame : a = b := by omega
  rw [hSame]

theorem Mirrored.mono (h : Mirrored t c k) (hLe : l ≤ k) : Mirrored t c l := by
  have hFront := h.front
  have hBack := h.back
  exact ⟨by omega, by omega, fun a b hSum ha hb => h.equal a b hSum (by omega) (by omega)⟩

/-- One place further on both sides. -/
theorem Mirrored.succ (h : Mirrored t c k) (hFront : k ≤ c) (hBack : c + k < t.length)
    (hEqual : t[c - k]? = t[c + k]?) : Mirrored t c (k + 1) := by
  refine ⟨by omega, hBack, fun a b hSum ha hb => ?_⟩
  by_cases hLast : a = c + k
  · have hFirst : b = c - k := by omega
    rw [hLast, hFirst, hEqual]
  by_cases hFirst : b = c + k
  · have hLast : a = c - k := by omega
    rw [hLast, hFirst, hEqual]
  · exact h.equal a b hSum (by omega) (by omega)

/-- The greatest such `k`. -/
def IsRadius (t : List α) (c k : Nat) : Prop := Mirrored t c k ∧ ¬Mirrored t c (k + 1)

theorem IsRadius.le (h : IsRadius t c k) (hMirrored : Mirrored t c l) : l ≤ k := by
  by_contra hLess
  exact h.2 (hMirrored.mono (by omega))

/-- **The mirror**: inside what is mirrored around `p`, what is mirrored around a place is mirrored
around the place on the other side of `p` too. -/
theorem Mirrored.mirror (h : Mirrored t p r) (hi : p ≤ i) (hIn : i + k ≤ p + r)
    (hMirror : Mirrored t (2 * p - i) k) (hFront : i ≤ 2 * p) : Mirrored t i k := by
  have hBack := h.back
  have hStart := hMirror.front
  refine ⟨by omega, by omega, fun a b hSum ha hb => ?_⟩
  have hLeft := h.equal a (2 * p - a) (by omega) (by omega) (by omega)
  have hRight := h.equal b (2 * p - b) (by omega) (by omega) (by omega)
  rw [hLeft, hRight]
  exact hMirror.equal _ _ (by omega) (by omega) (by omega)

/-! ### Separators -/

/-- The list with a separator before each element, and one behind the last. -/
structure Spread (sep : α) (s t : List α) : Prop where
  length : t.length = 2 * s.length + 1
  even : ∀ a ≤ s.length, t[2 * a]? = some sep
  odd : ∀ a < s.length, t[2 * a + 1]? = s[a]?

theorem palindrome_iff {xs : List α} :
    xs.reverse = xs ↔ ∀ a b, a + b + 1 = xs.length → xs[a]? = xs[b]? := by
  constructor
  · intro h a b hSum
    conv_lhs => rw [← h]
    rw [List.getElem?_reverse (by omega)]
    congr 1
    omega
  · intro h
    apply List.ext_getElem?
    intro a
    by_cases ha : a < xs.length
    · rw [List.getElem?_reverse ha]
      exact h _ _ (by omega)
    · rw [List.getElem?_eq_none (by rw [List.length_reverse]; omega), List.getElem?_eq_none (by omega)]

/-- A part of a list, by its place. -/
def part (s : List α) (start size : Nat) : List α := (s.drop start).take size

theorem length_part {start size : Nat} (h : start + size ≤ s.length) : (part s start size).length = size := by
  rw [part, List.length_take, List.length_drop]
  omega

theorem part_infix (s : List α) (start size : Nat) : part s start size <:+: s :=
  (List.take_prefix _ _).isInfix.trans (List.drop_suffix _ _).isInfix

theorem exists_part {q : List α} (h : q <:+: s) : ∃ start, start + q.length ≤ s.length ∧ q = part s start q.length := by
  obtain ⟨u, v, rfl⟩ := h
  refine ⟨u.length, by simp only [List.length_append]; omega, ?_⟩
  rw [part, List.append_assoc, List.drop_left, List.take_left]

theorem getElem?_part {start size a : Nat} (ha : a < size) : (part s start size)[a]? = s[start + a]? := by
  rw [part, List.getElem?_take_of_lt ha, List.getElem?_drop]

/-- A part is a palindrome exactly if what is spread over it is mirrored around its middle. -/
theorem Spread.mirrored_iff (h : Spread sep s t) {start size : Nat} (hIn : start + size ≤ s.length) :
    (part s start size).reverse = part s start size ↔ Mirrored t (2 * start + size) (size + 1) := by
  have hLength := h.length
  rw [palindrome_iff, length_part hIn]
  constructor
  · intro hPart
    refine ⟨by omega, by omega, fun a b hSum ha hb => ?_⟩
    obtain ⟨x, rfl | rfl⟩ : ∃ x, a = 2 * x ∨ a = 2 * x + 1 := ⟨a / 2, by omega⟩
    · obtain ⟨y, rfl⟩ : ∃ y, b = 2 * y := ⟨b / 2, by omega⟩
      rw [h.even x (by omega), h.even y (by omega)]
    · obtain ⟨y, rfl⟩ : ∃ y, b = 2 * y + 1 := ⟨b / 2, by omega⟩
      have hEqual := hPart (x - start) (y - start) (by omega)
      rw [getElem?_part (by omega), getElem?_part (by omega), Nat.add_sub_cancel' (by omega),
        Nat.add_sub_cancel' (by omega)] at hEqual
      rw [h.odd x (by omega), h.odd y (by omega), hEqual]
  · intro hMirrored a b hSum
    rw [getElem?_part (by omega), getElem?_part (by omega), ← h.odd _ (by omega), ← h.odd _ (by omega)]
    exact hMirrored.equal _ _ (by omega) (by omega) (by omega)

/-- A part of one element is a palindrome. -/
theorem Spread.mirrored_one (h : Spread sep s t) {start : Nat} (hIn : start < s.length) :
    Mirrored t (2 * start + 1) 2 := by
  rw [← h.mirrored_iff hIn, palindrome_iff, length_part hIn]
  intro a b hSum
  obtain rfl : a = b := by omega
  rfl

/-- What is mirrored beyond a part has one element on both sides of it. -/
theorem Spread.equal_of_mirrored (h : Spread sep s t) {start size : Nat} (hIn : start + 1 + size < s.length)
    (hMirrored : Mirrored t (2 * (start + 1) + size) (size + 2)) : s[start]? = s[start + 1 + size]? := by
  rw [← h.odd _ (by omega), ← h.odd _ hIn]
  exact hMirrored.equal _ _ (by omega) (by omega) (by omega)

/-- A part with the same element on both sides. -/
theorem Spread.mirrored_widen (h : Spread sep s t) {start size : Nat} (hIn : start + 1 + size < s.length)
    (hMirrored : Mirrored t (2 * (start + 1) + size) (size + 1)) (hEqual : s[start]? = s[start + 1 + size]?) :
    Mirrored t (2 * (start + 1) + size) (size + 3) := by
  have hLength := h.length
  have hElement : Mirrored t (2 * (start + 1) + size) (size + 2) := by
    refine hMirrored.succ (by omega) (by omega) ?_
    have hFront : 2 * (start + 1) + size - (size + 1) = 2 * start + 1 := by omega
    have hBack : 2 * (start + 1) + size + (size + 1) = 2 * (start + 1 + size) + 1 := by omega
    rw [hFront, hBack, h.odd _ (by omega), h.odd _ hIn, hEqual]
  refine hElement.succ (by omega) (by omega) ?_
  have hFront : 2 * (start + 1) + size - (size + 2) = 2 * start := by omega
  have hBack : 2 * (start + 1) + size + (size + 2) = 2 * (start + 1 + size + 1) := by omega
  rw [hFront, hBack, h.even _ (by omega), h.even _ (by omega)]

/-- What is mirrored as far as can be ends with separators. -/
theorem Spread.radius_ends (h : Spread sep s t) (hRadius : IsRadius t c k) (hPos : 0 < k) :
    ∃ start, c + 1 = 2 * start + k := by
  have hLength := h.length
  have hFront := hRadius.1.front
  have hBack := hRadius.1.back
  by_contra hOdd
  have hParity : (c + 1 - k) % 2 = 1 := by
    by_contra hEven
    exact hOdd ⟨(c + 1 - k) / 2, by omega⟩
  -- the next places on both sides would be separators too
  refine hRadius.2 (hRadius.1.succ (by omega) (by omega) ?_)
  obtain ⟨x, hx⟩ : ∃ x, c - k = 2 * x := ⟨(c - k) / 2, by omega⟩
  obtain ⟨y, hy⟩ : ∃ y, c + k = 2 * y := ⟨(c + k) / 2, by omega⟩
  rw [hx, hy, h.even x (by omega), h.even y (by omega)]

/-- **The longest palindrome** is the one around a place of the greatest radius. -/
theorem Spread.longest (h : Spread sep s t) (hRadius : IsRadius t c k) (hPos : 0 < k)
    (hGreatest : ∀ c' < t.length, ∀ l, Mirrored t c' l → l ≤ k) :
    ∃ start, c + 1 = 2 * start + k ∧ start + (k - 1) ≤ s.length ∧
      (part s start (k - 1)).reverse = part s start (k - 1) ∧
      ∀ q, q <:+: s → q.reverse = q → q.length ≤ k - 1 := by
  obtain ⟨start, hStart⟩ := h.radius_ends hRadius hPos
  have hLength := h.length
  have hBack := hRadius.1.back
  have hIn : start + (k - 1) ≤ s.length := by omega
  refine ⟨start, hStart, hIn, ?_, fun q hq hPalindrome => ?_⟩
  · rw [h.mirrored_iff hIn]
    have hMiddle : 2 * start + (k - 1) = c := by omega
    rw [hMiddle, Nat.sub_add_cancel hPos]
    exact hRadius.1
  · obtain ⟨start', hIn', hEq⟩ := exists_part hq
    rw [hEq] at hPalindrome
    have hLe := hGreatest _ (by omega) _ ((h.mirrored_iff hIn').mp hPalindrome)
    omega

end Palindromes
