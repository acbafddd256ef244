import DemoCode.ClassicProblem.LongestPalindrome

/-! `longestPalindrome1` of `longest_palindrome.cpp`, which widens a palindrome around each place, and
where it finds one as long as `longestPalindrome2` does. -/

namespace DemoCode.ClassicProblem

open Palindromes

/-- `CompareLR`: `front` and `tmpSize` when it returns. -/
def compareLR (s : List UInt8) (strSize front behind tmpSize : Int) : Option (Int × Int) :=
  if front ≥ 0 ∧ behind < strSize then do
    let x ← fetch s front
    let y ← fetch s behind
    if x = y then compareLR s strSize (front - 1) (behind + 1) (tmpSize + 1) else some (front, tmpSize)
  else
    some (front, tmpSize)
termination_by (front + 1).toNat

structure Found where
  startPos : Int := 0
  maxSize : Int := 0

/-- A palindrome that is no shorter takes the place of the one before. -/
def Found.note (m : Found) (startPos size : Int) : Found := if size ≥ m.maxSize then ⟨startPos, size⟩ else m

/-- One turn of the loop. -/
def expand (s : List UInt8) (strSize i : Int) (m : Found) : Option Found := do
  let (f, tmpSize) ← compareLR s strSize (i - 1) i 0
  let m := m.note (f + 1) (tmpSize * 2)
  let (f, tmpSize) ← compareLR s strSize (i - 1) (i + 1) 0
  some (m.note (f + 1) (tmpSize * 2 + 1))

def expands (s : List UInt8) (strSize i : Int) (m : Found) : Option Found :=
  if i < strSize then do
    let m ← expand s strSize i m
    expands s strSize (i + 1) m
  else
    some m
termination_by (strSize - i).toNat

def longestPalindrome1 (s : List UInt8) : Option (List UInt8) := do
  let strSize := toInt s.length
  let m ← expands s strSize 1 {}
  substr s (toSize m.startPos) (toSize m.maxSize)

/-- Both searches return, the first one a palindrome that stands in the string, of the length of the
second one's. -/
def SearchesAgree (s : List UInt8) : Prop :=
  ∃ one two, longestPalindrome1 s = some one ∧ longestPalindrome2 s = some two ∧ one <:+: s ∧
    one.reverse = one ∧ one.length = two.length

section

variable {s t : List UInt8} {size start len i : Nat} {m : Found}

/-! ### Widening -/

theorem compareLR_end {strSize front behind : Int} (hEnd : ¬(front ≥ 0 ∧ behind < strSize)) (tmpSize : Int) :
    compareLR s strSize front behind tmpSize = some (front, tmpSize) := by
  rw [compareLR, if_neg hEnd]

theorem compareLR_inside (hIn : start + 1 + len < size) (hSize : size ≤ s.length) (tmpSize : Int) :
    compareLR s size ((start + 1 : Nat) - 1) ((start + 1 : Nat) + len) tmpSize =
      if s[start]? = s[start + 1 + len]? then
        compareLR s size (start - 1) (start + (len + 2 : Nat)) (tmpSize + 1)
      else
        some ((start : Int), tmpSize) := by
  have hBefore : ((start + 1 : Nat) : Int) - 1 = start := by omega
  have hBehind : ((start + 1 : Nat) : Int) + len = (start + 1 + len : Nat) := by omega
  have hNext : ((start + 1 + len : Nat) : Int) + 1 = start + (len + 2 : Nat) := by omega
  rw [compareLR, hBefore, hBehind, if_pos (by omega), fetch_natCast, fetch_natCast,
    List.getElem?_eq_getElem (show start < s.length by omega),
    List.getElem?_eq_getElem (show start + 1 + len < s.length by omega), hNext]
  simp only [Option.bind_eq_bind, Option.bind_some, Option.some_inj]

/-- **The loop of `CompareLR`** widens a palindrome as far as can be. -/
theorem compareLR_eq (h : Spread separator (s.take size) t) (hSize : size ≤ s.length) (hIn : start + len ≤ size)
    (hMirrored : Mirrored t (2 * start + len) (len + 1)) (tmpSize : Int) :
    ∃ start' len' : Nat, compareLR s size (start - 1) (start + len) tmpSize =
        some ((start' : Int) - 1, tmpSize + (start - start')) ∧
      2 * start' + len' = 2 * start + len ∧ start' + len' ≤ size ∧ IsRadius t (2 * start + len) (len' + 1) := by
  have hTake : (s.take size).length = size := List.length_take_of_le hSize
  have hLength := length_spread_take h hSize
  induction start generalizing len tmpSize with
  | zero =>
    refine ⟨0, len, ?_, rfl, hIn, hMirrored, fun hNext => ?_⟩
    · rw [compareLR_end (by omega)]
      simp
    · have hFront := hNext.front
      omega
  | succ start ih =>
    by_cases hEnd : start + 1 + len = size
    · refine ⟨start + 1, len, ?_, rfl, hIn, hMirrored, fun hNext => ?_⟩
      · rw [compareLR_end (by omega)]
        congr 2
        omega
      · have hBack := hNext.back
        omega
    have hInside : start + 1 + len < (s.take size).length := by omega
    have hFront : (s.take size)[start]? = s[start]? := List.getElem?_take_of_lt (by omega)
    have hBack : (s.take size)[start + 1 + len]? = s[start + 1 + len]? := List.getElem?_take_of_lt (by omega)
    rw [compareLR_inside (by omega) hSize]
    by_cases hEqual : s[start]? = s[start + 1 + len]?
    · have hWider := h.mirrored_widen hInside hMirrored (by rw [hFront, hBack, hEqual])
      have hPlace : 2 * (start + 1) + len = 2 * start + (len + 2) := by omega
      rw [hPlace] at hWider ⊢
      obtain ⟨start', len', hRest, hSame, hInRest, hRadius⟩ := ih (by omega) hWider (tmpSize + 1)
      refine ⟨start', len', ?_, hSame, hInRest, hRadius⟩
      rw [if_pos hEqual, hRest]
      congr 2
      omega
    · refine ⟨start + 1, len, ?_, rfl, hIn, hMirrored, fun hNext => hEqual ?_⟩
      · rw [if_neg hEqual]
        congr 2 <;> omega
      · rw [← hFront, ← hBack]
        exact h.equal_of_mirrored hInside hNext

/-! ### The best so far -/

/-- What has been found out before the place `n` of the string with separators: a palindrome widened as
far as can be, and no shorter than those around the places before.  The place of the first character
is never tried. -/
structure Expanded (t : List UInt8) (n : Nat) (m : Found) : Prop where
  found : ∃ start len : Nat, m = ⟨start, len⟩ ∧ IsRadius t (2 * start + len) (len + 1)
  greatest : ∀ c < n, c ≠ 1 → ∀ l, Mirrored t c l → (l : Int) ≤ m.maxSize + 1

theorem Expanded.init (hLength : 0 < t.length) : Expanded t 2 {} := by
  refine ⟨⟨0, 0, rfl, Mirrored.one hLength, fun hNext => ?_⟩, fun c hc hOther l hl => ?_⟩
  · have hFront := hNext.front
    omega
  · have hFront := hl.front
    show (l : Int) ≤ 0 + 1
    omega

theorem Expanded.note (h : Expanded t (2 * start + len) m) (hRadius : IsRadius t (2 * start + len) (len + 1)) :
    Expanded t (2 * start + len + 1) (m.note start len) := by
  unfold Found.note
  by_cases hMore : (len : Int) ≥ m.maxSize
  · rw [if_pos hMore]
    refine ⟨⟨start, len, rfl, hRadius⟩, fun c hc hOther l hl => ?_⟩
    show (l : Int) ≤ len + 1
    by_cases hHere : c = 2 * start + len
    · rw [hHere] at hl
      have hLe := hRadius.le hl
      omega
    · have hLe := h.greatest c (by omega) hOther l hl
      omega
  · rw [if_neg hMore]
    refine ⟨h.found, fun c hc hOther l hl => ?_⟩
    by_cases hHere : c = 2 * start + len
    · rw [hHere] at hl
      have hLe := hRadius.le hl
      omega
    · exact h.greatest c (by omega) hOther l hl

/-- **Step**: a turn of the loop finds the palindromes around the place before a character and around the
character. -/
theorem Expanded.expand (h : Expanded t (2 * i) m) (hSpread : Spread separator (s.take size) t)
    (hSize : size ≤ s.length) (hIn : i < size) :
    ∃ m', ClassicProblem.expand s size i m = some m' ∧ Expanded t (2 * (i + 1)) m' := by
  have hTake : (s.take size).length = size := List.length_take_of_le hSize
  have hLength := length_spread_take hSpread hSize
  have hEvenCentre : Mirrored t (2 * i + 0) (0 + 1) := Mirrored.one (by omega)
  have hOddCentre : Mirrored t (2 * i + 1) (1 + 1) := hSpread.mirrored_one (by omega)
  obtain ⟨start, len, hEven, hSame, -, hRadius⟩ := compareLR_eq hSpread hSize (by omega) hEvenCentre 0
  obtain ⟨start', len', hOdd, hSame', -, hRadius'⟩ := compareLR_eq hSpread hSize (by omega) hOddCentre 0
  rw [Nat.cast_zero, add_zero] at hEven
  rw [Nat.cast_one] at hOdd
  rw [add_zero] at hSame hRadius
  rw [← hSame] at hRadius
  rw [← hSame'] at hRadius'
  have hBegin : (start : Int) - 1 + 1 = start := by omega
  have hBegin' : (start' : Int) - 1 + 1 = start' := by omega
  have hDouble : (0 + ((i : Int) - start)) * 2 = len := by omega
  have hDouble' : (0 + ((i : Int) - start')) * 2 + 1 = len' := by omega
  refine ⟨(m.note start len).note start' len', ?_, ?_⟩
  · simp only [ClassicProblem.expand, hEven, hOdd, Option.bind_eq_bind, Option.bind_some, hBegin, hBegin', hDouble,
      hDouble']
  · have hPlace : 2 * i = 2 * start + len := by omega
    have hPlace' : 2 * start + len + 1 = 2 * start' + len' := by omega
    have hEnd : 2 * (i + 1) = 2 * start' + len' + 1 := by omega
    rw [hPlace] at h
    have hNext := h.note hRadius
    rw [hPlace'] at hNext
    rw [hEnd]
    exact hNext.note hRadius'

theorem Expanded.expands (h : Expanded t (2 * i) m) (hSpread : Spread separator (s.take size) t)
    (hSize : size ≤ s.length) (hIn : i ≤ size) :
    ∃ m', ClassicProblem.expands s size i m = some m' ∧ Expanded t (2 * size) m' := by
  induction hn : size - i generalizing i m with
  | zero =>
    obtain rfl : i = size := by omega
    rw [ClassicProblem.expands, if_neg (lt_irrefl _)]
    exact ⟨m, rfl, h⟩
  | succ n ih =>
    obtain ⟨m', hExpand, hNext⟩ := h.expand hSpread hSize (by omega)
    obtain ⟨m'', hRest, hEnd⟩ := ih hNext (by omega) (by omega)
    refine ⟨m'', ?_, hEnd⟩
    rw [ClassicProblem.expands, if_pos (by omega), hExpand]
    exact hRest

/-- With a second character, the palindrome found is no shorter than those around the places that are not
tried, that of the first character and that behind the last one. -/
theorem Expanded.isGreatest (h : Expanded t (2 * size) m) (hSpread : Spread separator (s.take size) t)
    (hSize : size ≤ s.length) (hTwo : 2 ≤ size) {c l : Nat} (hl : Mirrored t c l) : (l : Int) ≤ m.maxSize + 1 := by
  have hTake : (s.take size).length = size := List.length_take_of_le hSize
  have hLength := length_spread_take hSpread hSize
  have hFront := hl.front
  have hBack := hl.back
  have hCharacter : Mirrored t (2 * 1 + 1) 2 := hSpread.mirrored_one (by omega)
  have hSecond := h.greatest _ (by omega) (by omega) 2 hCharacter
  by_cases hFirst : c = 1
  · omega
  by_cases hLast : c < 2 * size
  · exact h.greatest c hLast hFirst l hl
  · omega

/-- The beginning of the string is searched, as far as its size as an `int` goes. -/
theorem longestPalindrome1_take (hSize : size ≤ s.length) (hTwo : 2 ≤ size) (hInt : toInt s.length = size)
    (hBound : size < 2 ^ 31) :
    ∃ palindrome, longestPalindrome1 s = some palindrome ∧ IsLongest (s.take size) palindrome := by
  obtain ⟨t, -, hSpread⟩ := exists_spread hSize
  have hTake : (s.take size).length = size := List.length_take_of_le hSize
  have hLength := length_spread_take hSpread hSize
  obtain ⟨m, hExpands, hEnd⟩ :=
    (Expanded.init (t := t) (by omega)).expands (i := 1) hSpread hSize (by omega)
  obtain ⟨start, len, rfl, hRadius⟩ := hEnd.found
  obtain ⟨start', hStart, hIn, hLongest⟩ :=
    exists_isLongest hSpread hRadius (Nat.succ_pos len) fun c _ l hl => by
      have hLe := hEnd.isGreatest hSpread hSize hTwo hl
      dsimp only at hLe
      omega
  obtain rfl : start = start' := by omega
  rw [Nat.add_sub_cancel] at hIn hLongest
  rw [hTake] at hIn
  refine ⟨part (s.take size) start len, ?_, hLongest⟩
  rw [Nat.cast_one] at hExpands
  simp only [longestPalindrome1, hInt, hExpands, Option.bind_eq_bind, Option.bind_some]
  rw [toSize_natCast (by omega), toSize_natCast (by omega), substr_eq hSize hIn]

/-- Without a second character nothing is searched. -/
theorem longestPalindrome1_short (hShort : toInt s.length ≤ 1) : longestPalindrome1 s = some [] := by
  simp only [longestPalindrome1, Option.bind_eq_bind]
  rw [expands, if_neg (by omega)]
  simp [substr, toSize]

/-! ### Both searches -/

theorem IsLongest.length_eq {s one two : List UInt8} (hOne : IsLongest s one) (hTwo : IsLongest s two) :
    one.length = two.length :=
  Nat.le_antisymm (hTwo.longest one hOne.stands hOne.reverse) (hOne.longest two hTwo.stands hTwo.reverse)

/-- The longest palindrome of a string with a character is not empty. -/
theorem IsLongest.length_pos {s palindrome : List UInt8} (h : IsLongest s palindrome) (hs : 0 < s.length) :
    0 < palindrome.length :=
  h.longest [s[0]] (by
    obtain ⟨x, xs, rfl⟩ := List.exists_cons_of_length_pos hs
    exact (List.prefix_append [x] xs).isInfix) rfl

/-- For a string with separators of a negative size, the second search throws. -/
theorem not_searchesAgree_of_arraySize (hArray : arraySize (s.length * 2 + 1) = none) : ¬SearchesAgree s := by
  rintro ⟨one, two, -, hTwo, -⟩
  simp only [longestPalindrome2, hArray, Option.bind_eq_bind, Option.bind_none] at hTwo
  cases hTwo

/-- Where the first search finds nothing, the searches agree if there is nothing to be found. -/
theorem searchesAgree_short_iff (hSize : size ≤ s.length) (hShort : toInt s.length ≤ 1) (hInt : 2 * size + 1 < 2 ^ 31)
    (hArray : arraySize (s.length * 2 + 1) = some (size * 2 + 1)) : SearchesAgree s ↔ size = 0 := by
  have hTake : (s.take size).length = size := List.length_take_of_le hSize
  have hFirst := longestPalindrome1_short hShort
  obtain ⟨palindrome, hSecond, hLongest⟩ := longestPalindrome2_take hSize hInt hArray
  constructor
  · rintro ⟨one, two, hOne, hTwo, -, -, hLength⟩
    obtain rfl : [] = one := Option.some.inj (hFirst.symm.trans hOne)
    obtain rfl : palindrome = two := Option.some.inj (hSecond.symm.trans hTwo)
    by_contra hSome
    have hPos := hLongest.length_pos (by omega)
    rw [List.length_nil] at hLength
    omega
  · rintro rfl
    obtain rfl : palindrome = [] := List.eq_nil_of_infix_nil hLongest.stands
    exact ⟨[], [], hFirst, hSecond, List.nil_infix, rfl, rfl⟩

theorem searchesAgree_of_two (hSize : size ≤ s.length) (hTwo : 2 ≤ size) (hInt : 2 * size + 1 < 2 ^ 31)
    (hFirst : toInt s.length = size) (hArray : arraySize (s.length * 2 + 1) = some (size * 2 + 1)) :
    SearchesAgree s := by
  obtain ⟨one, hOne, hLongest⟩ := longestPalindrome1_take hSize hTwo hFirst (by omega)
  obtain ⟨two, hTwo, hLongest'⟩ := longestPalindrome2_take hSize hInt hArray
  exact ⟨one, two, hOne, hTwo, hLongest.stands.trans (List.take_prefix size s).isInfix, hLongest.reverse,
    hLongest.length_eq hLongest'⟩

/-- **The searches agree** exactly if the size of the string, cut to an `int`, is not one and twice as much
is not too large for an `int` either, or if it is the least `int`, where both find nothing. -/
theorem searchesAgree_iff (s : List UInt8) :
    SearchesAgree s ↔ s.length % 2 ^ 32 < 2 ^ 30 ∧ s.length % 2 ^ 32 ≠ 1 ∨ s.length % 2 ^ 32 = 2 ^ 31 := by
  have hLe := Nat.mod_le s.length (2 ^ 32)
  have hFirst := toInt_eq s.length
  have hArray := toInt_eq (s.length * 2 + 1)
  by_cases hPositive : s.length % 2 ^ 32 < 2 ^ 31
  · rw [if_pos hPositive] at hFirst
    by_cases hBelow : s.length % 2 ^ 32 < 2 ^ 30
    · have hSome : arraySize (s.length * 2 + 1) = some (s.length % 2 ^ 32 * 2 + 1) :=
        arraySize_of_natCast (by rw [hArray, if_pos (by omega)]; omega)
      by_cases hTwo : 2 ≤ s.length % 2 ^ 32
      · have hAgree := searchesAgree_of_two hLe hTwo (by omega) hFirst hSome
        exact iff_of_true hAgree (.inl ⟨hBelow, by omega⟩)
      · rw [searchesAgree_short_iff hLe (by omega) (by omega) hSome]
        omega
    · have hNone : arraySize (s.length * 2 + 1) = none :=
        arraySize_of_neg (by rw [hArray, if_neg (by omega)]; omega)
      exact iff_of_false (not_searchesAgree_of_arraySize hNone) (by omega)
  · rw [if_neg hPositive] at hFirst
    by_cases hBelow : s.length % 2 ^ 32 - 2 ^ 31 < 2 ^ 30
    · have hSome : arraySize (s.length * 2 + 1) = some ((s.length % 2 ^ 32 - 2 ^ 31) * 2 + 1) :=
        arraySize_of_natCast (by rw [hArray, if_pos (by omega)]; omega)
      rw [searchesAgree_short_iff (by omega) (by omega) (by omega) hSome]
      omega
    · have hNone : arraySize (s.length * 2 + 1) = none :=
        arraySize_of_neg (by rw [hArray, if_neg (by omega)]; omega)
      exact iff_of_false (not_searchesAgree_of_arraySize hNone) (by omega)

/-- A string of one character: the first search returns the empty one. -/
theorem not_searchesAgree : ¬∀ s, SearchesAgree s := by
  intro h
  have hSize : 1 ≤ [(0x61 : UInt8)].length := Nat.le_refl 1
  have hShort : toInt [(0x61 : UInt8)].length ≤ 1 := Int.le_refl 1
  have hInt : 2 * 1 + 1 < 2 ^ 31 := by omega
  have hArray : arraySize ([(0x61 : UInt8)].length * 2 + 1) = some (1 * 2 + 1) := arraySize_eq (by decide)
  have hNone := (searchesAgree_short_iff hSize hShort hInt hArray).mp (h _)
  exact Nat.one_ne_zero hNone

end

end DemoCode.ClassicProblem
