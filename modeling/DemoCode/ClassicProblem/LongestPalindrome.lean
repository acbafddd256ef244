import DemoCode.ClassicProblem.Sizes
import DemoCode.Lib.Palindromes

/-! `longestPalindrome2` of `longest_palindrome.cpp`.  A character is a byte, an `int` an exact integer
but where a size or a product may leave its range, and an access outside of a string or an array is
`none`. -/

namespace DemoCode.ClassicProblem

open Palindromes

section

variable {α : Type*}

/-- `xs[i]` for an `int`. -/
def fetch (xs : List α) (i : Int) : Option α := if 0 ≤ i then xs[i.toNat]? else none

/-- `xs[i] = x`. -/
def store (xs : List α) (i : Int) (x : α) : Option (List α) :=
  if 0 ≤ i ∧ i < xs.length then some (xs.set i.toNat x) else none

end

/-- An `int` given to a `size_t`. -/
def toSize (n : Int) : Nat := (n % 2 ^ 64).toNat

/-- `ssSize`: no string is reserved, and no array made, of a negative size. -/
def arraySize (n : Nat) : Option Nat := if 0 ≤ toInt n then some (toInt n).toNat else none

/-- `s.substr(pos, len)`, which throws when it begins behind the end. -/
def substr (s : List UInt8) (pos len : Nat) : Option (List UInt8) :=
  if pos ≤ s.length then some ((s.drop pos).take len) else none

/-- The character `'#'`. -/
def separator : UInt8 := 0x23

/-- The character that `ss` gets at `i`. -/
def separated (s : List UInt8) (i : Nat) : Option UInt8 := if i % 2 = 0 then some separator else s[i / 2]?

/-- The loop that makes `ss`. -/
def separate (s : List UInt8) (ssSize i : Nat) (ss : List UInt8) : Option (List UInt8) :=
  if i < ssSize then do
    let c ← separated s i
    separate s ssSize (i + 1) (ss ++ [c])
  else
    some ss
termination_by ssSize - i

/-- The loop that widens `r[i]`. -/
def widen (ss : List UInt8) (ssSize i ri : Int) : Option Int :=
  if i - ri ≥ 0 ∧ i + ri < ssSize then do
    let front ← fetch ss (i - ri)
    let behind ← fetch ss (i + ri)
    if front = behind then widen ss ssSize i (ri + 1) else some ri
  else
    some ri
termination_by (ssSize - (i + ri)).toNat

structure Radii where
  mx : Int := 0
  pos : Int := 0
  r : List Int
  maxPos : Int := 0
  maxVal : Int := 0

/-- `2 * pos - i` as an `int`: the product may be too large for it, the difference is not, so that a wrap
of the machine goes away again. -/
def mirror (pos i : Int) : Int := (2 * pos - i).bmod (2 ^ 32)

/-- What `r[i]` begins with. -/
def firstRadius (m : Radii) (i : Int) : Option Int :=
  if m.mx > i then do
    let other ← fetch m.r (mirror m.pos i)
    some (if m.mx - i < other then m.mx - i else other)
  else
    some 1

/-- The place that reaches furthest. -/
def Radii.reach (m : Radii) (i ri : Int) : Radii :=
  if i + ri > m.mx then { m with mx := i + ri, pos := i } else m

/-- The place with the greatest radius. -/
def Radii.note (m : Radii) (i ri : Int) : Radii :=
  if ri > m.maxVal then { m with maxVal := ri, maxPos := i } else m

/-- One turn of the loop. -/
def scan (ss : List UInt8) (ssSize i : Int) (m : Radii) : Option Radii := do
  let ri ← firstRadius m i
  let ri ← widen ss ssSize i ri
  let r ← store m.r i ri
  some (({ m with r }.reach i ri).note i ri)

def scans (ss : List UInt8) (ssSize i : Nat) (m : Radii) : Option Radii :=
  if i < ssSize then do
    let m ← scan ss ssSize i m
    scans ss ssSize (i + 1) m
  else
    some m
termination_by ssSize - i

def longestPalindrome2 (s : List UInt8) : Option (List UInt8) := do
  let ssSize ← arraySize (s.length * 2 + 1)
  let ss ← separate s ssSize 0 []
  let m ← scans ss ssSize 0 { r := List.replicate ssSize 0 }
  substr s (toSize ((m.maxPos + 1 - m.maxVal).tdiv 2)) (toSize (m.maxVal - 1))

/-! ### Accesses -/

section

variable {α : Type*} {xs : List α}

@[simp] theorem fetch_natCast (xs : List α) (n : Nat) : fetch xs n = xs[n]? := by
  rw [fetch, if_pos (Int.natCast_nonneg n), Int.toNat_natCast]

theorem store_natCast {n : Nat} (h : n < xs.length) (x : α) : store xs n x = some (xs.set n x) := by
  rw [store, if_pos ⟨Int.natCast_nonneg n, Int.ofNat_lt.mpr h⟩, Int.toNat_natCast]

end

theorem toSize_natCast {n : Nat} (h : n < 2 ^ 64) : toSize n = n := by
  rw [toSize, Int.emod_eq_of_lt (by omega) (by omega), Int.toNat_natCast]

theorem arraySize_of_natCast {n size : Nat} (h : toInt n = size) : arraySize n = some size := by
  rw [arraySize, h, if_pos (Int.natCast_nonneg size), Int.toNat_natCast]

theorem arraySize_of_neg {n : Nat} (h : toInt n < 0) : arraySize n = none := by
  rw [arraySize, if_neg (Int.not_le.mpr h)]

theorem arraySize_eq {n : Nat} (h : n < 2 ^ 31) : arraySize n = some n :=
  arraySize_of_natCast (Int.bmod_eq_of_le (by omega) (by omega))

theorem mirror_eq {pos i : Nat} (hFront : i ≤ 2 * pos) (hBound : 2 * pos - i < 2 ^ 31) :
    mirror pos i = (2 * pos - i : Nat) := by
  rw [mirror, Int.bmod_eq_of_le (by omega) (by omega)]
  omega

/-! ### The string with separators -/

/-- What the loop has made so far. -/
structure Separated (s : List UInt8) (i : Nat) (ss : List UInt8) : Prop where
  length : ss.length = i
  even : ∀ a, 2 * a < i → ss[2 * a]? = some separator
  odd : ∀ a, 2 * a + 1 < i → ss[2 * a + 1]? = s[a]?

theorem Separated.concat {s ss : List UInt8} {i : Nat} (h : Separated s i ss) {c : UInt8}
    (hc : separated s i = some c) : Separated s (i + 1) (ss ++ [c]) := by
  unfold separated at hc
  have hLength := h.length
  have hLast : (ss ++ [c])[i]? = some c := by
    rw [← hLength]
    exact List.getElem?_concat_length
  have hOld : ∀ a < i, (ss ++ [c])[a]? = ss[a]? := fun a ha => List.getElem?_append_left (by omega)
  refine ⟨by rw [List.length_append, hLength]; rfl, fun a ha => ?_, fun a ha => ?_⟩
  · by_cases hEnd : 2 * a = i
    · rw [if_pos (by omega)] at hc
      rw [hEnd, hLast, hc]
    · rw [hOld _ (by omega)]
      exact h.even a (by omega)
  · by_cases hEnd : 2 * a + 1 = i
    · rw [if_neg (by omega)] at hc
      rw [hEnd, hLast, ← hc, ← hEnd, show (2 * a + 1) / 2 = a by omega]
    · rw [hOld _ (by omega)]
      exact h.odd a (by omega)

theorem separate_eq {s ss : List UInt8} {size i : Nat} (hSize : size ≤ s.length) (h : Separated s i ss)
    (hi : i ≤ size * 2 + 1) :
    ∃ t, separate s (size * 2 + 1) i ss = some t ∧ Spread separator (s.take size) t := by
  induction hn : size * 2 + 1 - i generalizing i ss with
  | zero =>
    obtain rfl : i = size * 2 + 1 := by omega
    have hTake : (s.take size).length = size := List.length_take_of_le hSize
    rw [separate, if_neg (Nat.lt_irrefl _)]
    refine ⟨ss, rfl, ?_, fun a ha => h.even a (by omega), fun a ha => ?_⟩
    · rw [h.length, hTake, Nat.mul_comm]
    · rw [hTake] at ha
      rw [h.odd a (by omega), List.getElem?_take_of_lt ha]
  | succ n ih =>
    obtain ⟨c, hc⟩ : ∃ c, separated s i = some c := by
      unfold separated
      by_cases hEven : i % 2 = 0
      · exact ⟨separator, if_pos hEven⟩
      · rw [if_neg hEven]
        exact ⟨_, List.getElem?_eq_getElem (by omega)⟩
    obtain ⟨t, hRest, hSpread⟩ := ih (h.concat hc) (by omega) (by omega)
    refine ⟨t, ?_, hSpread⟩
    rw [separate, if_pos (by omega), hc]
    exact hRest

theorem exists_spread {s : List UInt8} {size : Nat} (hSize : size ≤ s.length) :
    ∃ t, separate s (size * 2 + 1) 0 [] = some t ∧ Spread separator (s.take size) t :=
  separate_eq hSize
    ⟨rfl, fun _ ha => absurd ha (Nat.not_lt_zero _), fun _ ha => absurd ha (Nat.not_lt_zero _)⟩ (Nat.zero_le _)

/-! ### Radii -/

/-- What is mirrored is widened as far as can be. -/
theorem widen_eq {ss : List UInt8} {i k : Nat} (h : Mirrored ss i k) :
    ∃ l : Nat, widen ss ss.length i k = some (l : Int) ∧ k ≤ l ∧ IsRadius ss i l := by
  induction hn : ss.length - (i + k) using Nat.strongRecOn generalizing k with
  | ind n ih =>
  rw [widen]
  by_cases hIn : (i : Int) - k ≥ 0 ∧ (i : Int) + k < ss.length
  · have hFront : ((i : Int) - k) = (i - k : Nat) := by omega
    have hBack : ((i : Int) + k) = (i + k : Nat) := by omega
    have hLess : i - k < ss.length := by omega
    have hLess' : i + k < ss.length := by omega
    rw [if_pos hIn, hFront, hBack, fetch_natCast, fetch_natCast, List.getElem?_eq_getElem hLess,
      List.getElem?_eq_getElem hLess']
    simp only [Option.bind_eq_bind, Option.bind_some]
    by_cases hEqual : ss[i - k] = ss[i + k]
    · rw [if_pos hEqual]
      have hNext : Mirrored ss i (k + 1) := by
        apply h.succ (by omega) hLess'
        rw [List.getElem?_eq_getElem hLess, List.getElem?_eq_getElem hLess', hEqual]
      obtain ⟨l, hWiden, hLe, hRadius⟩ := ih _ (by omega) hNext rfl
      exact ⟨l, hWiden, by omega, hRadius⟩
    · rw [if_neg hEqual]
      refine ⟨k, rfl, Nat.le_refl k, h, fun hNext => hEqual ?_⟩
      have hSame := hNext.equal (i - k) (i + k) (by omega) (by omega) (by omega)
      rw [List.getElem?_eq_getElem hLess, List.getElem?_eq_getElem hLess'] at hSame
      exact Option.some.inj hSame
  · rw [if_neg hIn]
    refine ⟨k, rfl, Nat.le_refl k, h, fun hNext => hIn ?_⟩
    have hFront := hNext.front
    have hBack := hNext.back
    omega

/-- What has been found out before a turn of the loop: the radii so far, the one that reaches furthest,
and the greatest. -/
structure Scanned (ss : List UInt8) (i : Nat) (m : Radii) : Prop where
  size : m.r.length = ss.length
  radii : ∀ j < i, ∃ k : Nat, m.r[j]? = some (k : Int) ∧ IsRadius ss j k ∧ (k : Int) ≤ m.maxVal
  furthest : (i = 0 ∧ m.mx = 0) ∨
    ∃ p k : Nat, p < i ∧ m.pos = p ∧ m.mx = (p + k : Nat) ∧ IsRadius ss p k
  greatest : (i = 0 ∧ m.maxVal = 0) ∨
    ∃ p k : Nat, p < i ∧ m.maxPos = p ∧ m.maxVal = k ∧ IsRadius ss p k

/-- **The first guess** is not too large: it is a radius that is known, cut off where nothing is known. -/
theorem Scanned.firstRadius_eq {ss : List UInt8} {i : Nat} {m : Radii} (h : Scanned ss i m)
    (hi : i < ss.length) (hMax : ss.length < 2 ^ 31) :
    ∃ k : Nat, firstRadius m i = some (k : Int) ∧ 0 < k ∧ Mirrored ss i k := by
  unfold firstRadius
  by_cases hWindow : m.mx > i
  · rw [if_pos hWindow]
    obtain ⟨rfl, hZero⟩ | ⟨p, k, hp, hPos, hMx, hRadius⟩ := h.furthest
    · omega
    have hFront := hRadius.1.front
    obtain ⟨l, hl, hOther, -⟩ := h.radii (2 * p - i) (by omega)
    have hOtherPos : 0 < l := hOther.le (Mirrored.one (by omega))
    rw [hPos, mirror_eq (by omega) (by omega), fetch_natCast, hl, hMx]
    simp only [Option.bind_eq_bind, Option.bind_some]
    by_cases hCut : (p + k : Nat) - (i : Int) < l
    · rw [if_pos hCut]
      refine ⟨p + k - i, by congr 1; omega, by omega, ?_⟩
      exact hRadius.1.mirror (by omega) (by omega) (hOther.1.mono (by omega)) (by omega)
    · rw [if_neg hCut]
      exact ⟨l, rfl, hOtherPos, hRadius.1.mirror (by omega) (by omega) hOther.1 (by omega)⟩
  · rw [if_neg hWindow]
    exact ⟨1, rfl, Nat.one_pos, Mirrored.one hi⟩

@[simp] theorem reach_r (m : Radii) (i ri : Int) : (m.reach i ri).r = m.r := by
  unfold Radii.reach
  split <;> rfl

@[simp] theorem reach_maxVal (m : Radii) (i ri : Int) : (m.reach i ri).maxVal = m.maxVal := by
  unfold Radii.reach
  split <;> rfl

@[simp] theorem reach_maxPos (m : Radii) (i ri : Int) : (m.reach i ri).maxPos = m.maxPos := by
  unfold Radii.reach
  split <;> rfl

@[simp] theorem note_r (m : Radii) (i ri : Int) : (m.note i ri).r = m.r := by
  unfold Radii.note
  split <;> rfl

@[simp] theorem note_mx (m : Radii) (i ri : Int) : (m.note i ri).mx = m.mx := by
  unfold Radii.note
  split <;> rfl

@[simp] theorem note_pos (m : Radii) (i ri : Int) : (m.note i ri).pos = m.pos := by
  unfold Radii.note
  split <;> rfl

theorem note_maxVal (m : Radii) (i ri : Int) : m.maxVal ≤ (m.note i ri).maxVal ∧ ri ≤ (m.note i ri).maxVal := by
  unfold Radii.note
  split
  · exact ⟨by dsimp only; omega, Int.le_refl ri⟩
  · exact ⟨Int.le_refl _, by omega⟩

/-- **Step**: a turn of the loop finds the radius of its place. -/
theorem Scanned.scan {ss : List UInt8} {i : Nat} {m : Radii} (h : Scanned ss i m) (hi : i < ss.length)
    (hMax : ss.length < 2 ^ 31) :
    ∃ m', ClassicProblem.scan ss ss.length i m = some m' ∧ Scanned ss (i + 1) m' := by
  obtain ⟨first, hFirst, hFirstPos, hMirrored⟩ := h.firstRadius_eq hi hMax
  obtain ⟨k, hWiden, hLe, hRadius⟩ := widen_eq hMirrored
  have hSize : i < m.r.length := by
    rw [h.size]
    exact hi
  refine ⟨({ m with r := m.r.set i k }.reach i k).note i k, ?_, ?_, ?_, ?_, ?_⟩
  · simp only [ClassicProblem.scan, hFirst, hWiden, store_natCast hSize, Option.bind_eq_bind, Option.bind_some]
  · rw [note_r, reach_r, List.length_set, h.size]
  · intro j hj
    obtain ⟨hOld, hNew⟩ := note_maxVal ({ m with r := m.r.set i k }.reach i k) i k
    rw [note_r, reach_r]
    rw [reach_maxVal] at hOld
    by_cases hSame : j = i
    · subst hSame
      exact ⟨k, List.getElem?_set_self hSize, hRadius, hNew⟩
    · obtain ⟨l, hl, hOther, hVal⟩ := h.radii j (by omega)
      refine ⟨l, ?_, hOther, hVal.trans hOld⟩
      rw [List.getElem?_set_ne (Ne.symm hSame), hl]
  · right
    rw [note_mx, note_pos]
    unfold Radii.reach
    by_cases hFar : (i : Int) + k > m.mx
    · rw [if_pos hFar]
      exact ⟨i, k, Nat.lt_succ_self i, rfl, rfl, hRadius⟩
    · rw [if_neg hFar]
      obtain ⟨rfl, hZero⟩ | ⟨p, l, hp, hPos, hMx, hOther⟩ := h.furthest
      · omega
      · exact ⟨p, l, by omega, hPos, hMx, hOther⟩
  · right
    unfold Radii.note
    rw [reach_maxVal]
    by_cases hMore : (k : Int) > m.maxVal
    · rw [if_pos hMore]
      exact ⟨i, k, Nat.lt_succ_self i, rfl, rfl, hRadius⟩
    · rw [if_neg hMore, reach_maxVal, reach_maxPos]
      obtain ⟨rfl, hZero⟩ | ⟨p, l, hp, hPos, hVal, hOther⟩ := h.greatest
      · omega
      · exact ⟨p, l, by omega, hPos, hVal, hOther⟩

theorem Scanned.scans {ss : List UInt8} {i : Nat} {m : Radii} (h : Scanned ss i m) (hi : i ≤ ss.length)
    (hMax : ss.length < 2 ^ 31) :
    ∃ m', ClassicProblem.scans ss ss.length i m = some m' ∧ Scanned ss ss.length m' := by
  induction hn : ss.length - i generalizing i m with
  | zero =>
    obtain rfl : i = ss.length := by omega
    rw [ClassicProblem.scans, if_neg (Nat.lt_irrefl _)]
    exact ⟨m, rfl, h⟩
  | succ n ih =>
    obtain ⟨m', hScan, hNext⟩ := h.scan (by omega) hMax
    obtain ⟨m'', hRest, hEnd⟩ := ih hNext (by omega) (by omega)
    refine ⟨m'', ?_, hEnd⟩
    rw [ClassicProblem.scans, if_pos (by omega), hScan]
    exact hRest

theorem Scanned.start (ss : List UInt8) : Scanned ss 0 { r := List.replicate ss.length 0 } :=
  ⟨List.length_replicate, fun j hj => absurd hj (Nat.not_lt_zero j), .inl ⟨rfl, rfl⟩, .inl ⟨rfl, rfl⟩⟩

/-- A palindrome that stands in the string, as long as any that does. -/
structure IsLongest (s palindrome : List UInt8) : Prop where
  stands : palindrome <:+: s
  reverse : palindrome.reverse = palindrome
  longest : ∀ other, other <:+: s → other.reverse = other → other.length ≤ palindrome.length

theorem length_spread_take {s t : List UInt8} {size : Nat} (h : Spread separator (s.take size) t)
    (hSize : size ≤ s.length) : t.length = 2 * size + 1 := by
  rw [h.length, List.length_take_of_le hSize]

theorem substr_eq {s : List UInt8} {size start len : Nat} (hSize : size ≤ s.length) (hIn : start + len ≤ size) :
    substr s start len = some (part (s.take size) start len) := by
  rw [substr, if_pos (by omega), part, List.drop_take, List.take_take, Nat.min_eq_left (by omega)]

/-- Under the greatest radius of the string with separators stands a longest palindrome. -/
theorem exists_isLongest {s t : List UInt8} {c k : Nat} (h : Spread separator s t) (hRadius : IsRadius t c k)
    (hPos : 0 < k) (hGreatest : ∀ c' < t.length, ∀ l, Mirrored t c' l → l ≤ k) :
    ∃ start, c + 1 = 2 * start + k ∧ start + (k - 1) ≤ s.length ∧ IsLongest s (part s start (k - 1)) := by
  obtain ⟨start, hStart, hIn, hPalindrome, hLongest⟩ := h.longest hRadius hPos hGreatest
  refine ⟨start, hStart, hIn, part_infix s start (k - 1), hPalindrome, fun other hOther hSame => ?_⟩
  rw [length_part hIn]
  exact hLongest other hOther hSame

/-- The beginning of the string is searched, as far as its size as an `int` goes. -/
theorem longestPalindrome2_take {s : List UInt8} {size : Nat} (hSize : size ≤ s.length)
    (hInt : 2 * size + 1 < 2 ^ 31) (hArray : arraySize (s.length * 2 + 1) = some (size * 2 + 1)) :
    ∃ palindrome, longestPalindrome2 s = some palindrome ∧ IsLongest (s.take size) palindrome := by
  obtain ⟨ss, hSeparate, hSpread⟩ := exists_spread hSize
  have hTake : (s.take size).length = size := List.length_take_of_le hSize
  have hLength := length_spread_take hSpread hSize
  obtain ⟨m, hScans, hEnd⟩ := (Scanned.start ss).scans (Nat.zero_le _) (by omega)
  obtain ⟨hZero, -⟩ | ⟨c, k, hc, hPos, hVal, hRadius⟩ := hEnd.greatest
  · omega
  have hOne : 0 < k := hRadius.le (Mirrored.one hc)
  obtain ⟨start, hStart, hIn, hLongest⟩ := exists_isLongest hSpread hRadius hOne fun c' hc' l hl => by
    obtain ⟨k', -, hOther, hLe⟩ := hEnd.radii c' hc'
    have hBelow := hOther.le hl
    rw [hVal] at hLe
    omega
  rw [hTake] at hIn
  refine ⟨part (s.take size) start (k - 1), ?_, hLongest⟩
  have hBegin : (m.maxPos + 1 - m.maxVal).tdiv 2 = (start : Int) := by
    rw [hPos, hVal, Int.tdiv_eq_ediv_of_nonneg (by omega)]
    omega
  have hLen : m.maxVal - 1 = (k - 1 : Nat) := by omega
  have hWhole : size * 2 + 1 = ss.length := by omega
  rw [hWhole] at hArray hSeparate
  simp only [longestPalindrome2, hArray, hSeparate, Option.bind_eq_bind, Option.bind_some, hScans, hBegin, hLen]
  rw [toSize_natCast (by omega), toSize_natCast (by omega), substr_eq hSize hIn]

/-- **Manacher's algorithm** stays inside the arrays and returns a palindrome that stands in the string, as
long as any that does. -/
theorem longestPalindrome2_longest {s : List UInt8} (hInt : 2 * s.length + 1 < 2 ^ 31) :
    ∃ part, longestPalindrome2 s = some part ∧ part <:+: s ∧ part.reverse = part ∧
      ∀ other, other <:+: s → other.reverse = other → other.length ≤ part.length := by
  obtain ⟨palindrome, hReturns, hLongest⟩ :=
    longestPalindrome2_take (Nat.le_refl s.length) hInt (arraySize_eq (by omega))
  rw [List.take_length] at hLongest
  exact ⟨palindrome, hReturns, hLongest.stands, hLongest.reverse, hLongest.longest⟩

/-- The string `a#a`. -/
theorem longestPalindrome2_longest_three :
    ∃ part, longestPalindrome2 [0x61, 0x23, 0x61] = some part ∧ part <:+: [0x61, 0x23, 0x61] ∧
      part.reverse = part ∧ ∀ other : List UInt8, other <:+: [0x61, 0x23, 0x61] → other.reverse = other →
        other.length ≤ part.length := by
  exact @longestPalindrome2_longest [0x61, 0x23, 0x61] (by decide)

end DemoCode.ClassicProblem
