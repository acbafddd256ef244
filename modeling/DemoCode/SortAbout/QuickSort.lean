import Mathlib.Algebra.Order.Group.Int
import Mathlib.Data.List.GetD
import Mathlib.Data.List.Induction
import Mathlib.Data.List.Nodup
import DemoCode.Lib.Loop
import DemoCode.SortAbout.Arrays

/-! `quick_sort.cpp`.  The hole in which the partition starts is at the first element, which is saved only if
it is the pivot. -/

namespace DemoCode.SortAbout

/-- `Media`: the index of the median of three. -/
def media (nums : List Int) (first mid last : Int) : Option Int := do
  let x ← load nums first
  let y ← load nums mid
  let z ← load nums last
  if x < y then
    if y < z then some mid else if x < z then some last else some first
  else if x < z then
    some first
  else if y < z then
    some last
  else
    some mid

def pivot (nums : List Int) (first last : Int) : Option Int := do
  let sum ← toInt? (first + last)
  let pos ← media nums first (sum.tdiv 2) last
  load nums pos

section

variable (nums : List Int) (tmp : Int)

/-- `while(nums[j] >= tmp && i < j) --j`. -/
def scanDown (i j : Int) : Option Int := do
  let y ← load nums j
  if tmp ≤ y ∧ i < j then scanDown i (j - 1) else some j
termination_by (j - i).toNat
decreasing_by omega

/-- `while(nums[i] <= tmp && i < j) ++i`. -/
def scanUp (i j : Int) : Option Int := do
  let x ← load nums i
  if x ≤ tmp ∧ i < j then scanUp (i + 1) j else some i
termination_by (j - i).toNat
decreasing_by omega

end

/-- The loop `while(i != j)`. -/
def partitionLoop : ℕ → List Int → Int → Int → Int → Option (Int × List Int)
  | 0, _, _, _, _ => none
  | fuel + 1, nums, tmp, i, j =>
    if i ≠ j then do
      let j ← scanDown nums tmp i j
      let nums ← store nums i (← load nums j)
      let i ← scanUp nums tmp i j
      let nums ← store nums j (← load nums i)
      partitionLoop fuel nums tmp i j
    else
      some (i, nums)

/-- What `QuickSort` does before its nested calls. -/
def partition (fuel : ℕ) (nums : List Int) (first last : Int) : Option (Int × List Int) := do
  let tmp ← pivot nums first last
  let (i, nums) ← partitionLoop fuel nums tmp first last
  let nums ← store nums i tmp
  some (i, nums)

def quickSort : ℕ → List Int → Int → Int → Option (List Int)
  | 0, _, _, _ => none
  | fuel + 1, nums, first, last =>
    if last < first then
      some nums
    else do
      let (i, nums) ← partition fuel nums first last
      let leftLast ← toInt? (i - 1)
      let nums ← quickSort fuel nums first leftLast
      let rightFirst ← toInt? (i + 1)
      quickSort fuel nums rightFirst last

/-! ### Ranges that lose nothing -/

/-- What the travelling hole makes of the elements behind the first one, without those that it comes
over: an element from the back goes to the left part, and one that is in its way to the right part. -/
inductive Parted (tmp : Int) : List Int → List Int → List Int → Prop
  | stop {back : List Int} (hBack : ∀ y ∈ back, tmp ≤ y) : Parted tmp back [] back
  | last {front back : List Int} {y : Int} (hFront : ∀ x ∈ front, x ≤ tmp) (hy : y < tmp)
      (hBack : ∀ y ∈ back, tmp ≤ y) : Parted tmp (front ++ y :: back) (y :: front) back
  | swap {front rest back l r : List Int} {y z : Int} (hFront : ∀ x ∈ front, x ≤ tmp) (hz : tmp < z)
      (hy : y < tmp) (hBack : ∀ y ∈ back, tmp ≤ y) (hRest : Parted tmp (rest ++ [z]) l r) :
      Parted tmp (front ++ z :: rest ++ y :: back) (y :: front ++ l) (r ++ back)

/-- The first of three is their median. -/
def IsMedian (x y z : Int) : Prop := y ≤ x ∧ x ≤ z ∨ z ≤ x ∧ x ≤ y

instance (x y z : Int) : Decidable (IsMedian x y z) := inferInstanceAs (Decidable (_ ∨ _))

/-- In a range that starts at `first`, and in the parts that it comes to, the first element is the median of
three, and the sums of indices are `int`s. -/
inductive MedianFirst : Int → List Int → Prop
  | nil (first : Int) : MedianFirst first []
  | cons {first x : Int} {m l r : List Int}
      (hMedian : IsMedian x ((x :: m).getD (m.length / 2) x) ((x :: m).getD m.length x))
      (hSum : InInt (first + (first + m.length))) (hNext : InInt (first + l.length + 1))
      (hParted : Parted x m l r) (hLeft : MedianFirst first l)
      (hRight : MedianFirst (first + l.length + 1) r) : MedianFirst first (x :: m)

section

variable {nums a b c l m r : List Int} {tmp h i j x y : Int} {fuel : ℕ}

/-! ### The partition -/

theorem scanDown_go (hLoad : load nums j = some y) (hy : tmp ≤ y) (hij : i < j) :
    scanDown nums tmp i j = scanDown nums tmp i (j - 1) := by
  rw [scanDown, hLoad, Option.bind_eq_bind, Option.bind_some, if_pos ⟨hy, hij⟩]

theorem scanDown_stop (hLoad : load nums j = some y) (h : ¬(tmp ≤ y ∧ i < j)) :
    scanDown nums tmp i j = some j := by
  rw [scanDown, hLoad, Option.bind_eq_bind, Option.bind_some, if_neg h]

/-- With the hole at `i`, the elements that are not below the pivot are passed. -/
theorem scanDown_back (front : List Int) {back : List Int} (hi : i = a.length) (hj : j = i + front.length)
    (hBack : ∀ y ∈ back, tmp ≤ y) : scanDown (a ++ h :: (front ++ back ++ c)) tmp i (j + back.length) =
      scanDown (a ++ h :: (front ++ back ++ c)) tmp i j := by
  induction back using List.reverseRecOn generalizing c with
  | nil => simp
  | append_singleton back y ih =>
    have hLoad : load (a ++ h :: (front ++ (back ++ [y]) ++ c)) (j + (back ++ [y]).length) = some y := by
      have hSplit : a ++ h :: (front ++ (back ++ [y]) ++ c) = (a ++ h :: (front ++ back)) ++ y :: c := by simp
      rw [hSplit]
      exact load_append (by simp; omega)
    have hSame : a ++ h :: (front ++ (back ++ [y]) ++ c) = a ++ h :: (front ++ back ++ (y :: c)) := by simp
    have hPos : j + ((back ++ [y]).length : Int) - 1 = j + back.length := by simp; omega
    rw [scanDown_go hLoad (hBack y (by simp)) (by simp; omega), hPos, hSame]
    exact ih fun z hz => hBack z (by simp [hz])

theorem scanUp_go (hLoad : load nums i = some x) (hx : x ≤ tmp) (hij : i < j) :
    scanUp nums tmp i j = scanUp nums tmp (i + 1) j := by
  rw [scanUp, hLoad, Option.bind_eq_bind, Option.bind_some, if_pos ⟨hx, hij⟩]

theorem scanUp_stop (hLoad : load nums i = some x) (h : ¬(x ≤ tmp ∧ i < j)) :
    scanUp nums tmp i j = some i := by
  rw [scanUp, hLoad, Option.bind_eq_bind, Option.bind_some, if_neg h]

/-- With the hole at `j`, the elements that are not above the pivot are passed. -/
theorem scanUp_front {front : List Int} (rest : List Int) (hi : i = a.length) (hj : j = i + front.length + rest.length)
    (hFront : ∀ x ∈ front, x ≤ tmp) : scanUp (a ++ (front ++ rest ++ h :: c)) tmp i j =
      scanUp (a ++ (front ++ rest ++ h :: c)) tmp (i + front.length) j := by
  induction front generalizing a i with
  | nil => simp
  | cons x front ih =>
    rw [List.length_cons] at hj
    have hLoad : load (a ++ (x :: front ++ rest ++ h :: c)) i = some x := load_append hi
    have hSame : a ++ (x :: front ++ rest ++ h :: c) = a ++ [x] ++ (front ++ rest ++ h :: c) := by simp
    have hPos : i + ((x :: front).length : Int) = i + 1 + front.length := by simp; omega
    rw [scanUp_go hLoad (hFront x (by simp)) (by omega), hSame, hPos]
    exact ih (by simp [hi]) (by omega) fun z hz => hFront z (by simp [hz])

theorem partitionLoop_stop (h : i = j) : partitionLoop (fuel + 1) nums tmp i j = some (i, nums) := by
  rw [partitionLoop, if_neg (not_not_intro h)]

theorem partitionLoop_pass {nums' nums'' : List Int} {i' j' : Int} (h : i ≠ j)
    (hDown : scanDown nums tmp i j = some j') (hLoad : load nums j' = some y)
    (hStore : store nums i y = some nums') (hUp : scanUp nums' tmp i j' = some i')
    (hLoad' : load nums' i' = some x) (hStore' : store nums' j' x = some nums'') :
    partitionLoop (fuel + 1) nums tmp i j = partitionLoop fuel nums'' tmp i' j' := by
  rw [partitionLoop, if_pos h, hDown]
  simp only [Option.bind_eq_bind, Option.bind_some, hLoad, hStore, hUp, hLoad', hStore']

/-- A pass in which an element comes from the back to the hole, which goes to its place. -/
theorem scanDown_found {front back : List Int} (hi : i = a.length) (hy : y < tmp)
    (hBack : ∀ y ∈ back, tmp ≤ y) :
    scanDown (a ++ h :: (front ++ y :: back ++ c)) tmp i (i + (front ++ y :: back).length) =
        some (i + (y :: front).length) ∧
      load (a ++ h :: (front ++ y :: back ++ c)) (i + (y :: front).length) = some y ∧
      store (a ++ h :: (front ++ y :: back ++ c)) i y =
        some (a ++ (y :: front ++ y :: (back ++ c))) := by
  have hSame : a ++ h :: (front ++ y :: back ++ c) = a ++ h :: (front ++ [y] ++ back ++ c) := by simp
  have hSplit : a ++ h :: (front ++ y :: back ++ c) = (a ++ h :: front) ++ y :: (back ++ c) := by simp
  have hEnd : i + ((front ++ y :: back).length : Int) = i + (front ++ [y]).length + back.length := by
    simp
    omega
  have hPlace : i + ((front ++ [y]).length : Int) = i + (y :: front).length := by simp
  have hLoad : load (a ++ h :: (front ++ y :: back ++ c)) (i + (y :: front).length) = some y := by
    rw [hSplit]
    exact load_append (by simp [hi])
  refine ⟨?_, hLoad, ?_⟩
  · rw [hSame, hEnd, scanDown_back _ hi rfl hBack, hPlace, ← hSame]
    exact scanDown_stop hLoad fun hBoth => absurd hBoth.1 (not_le.mpr hy)
  · rw [store_append hi]
    simp

/-- **Loop lemma**: the hole is at `i`, and the elements behind it up to `j` are still to be moved. -/
theorem Parted.partitionLoop (hParted : Parted tmp m l r) (hi : i = a.length) (hj : j = i + m.length) :
    ∃ h', ∀ fuel, m.length < fuel → partitionLoop fuel (a ++ h :: (m ++ c)) tmp i j =
      some (i + l.length, a ++ l ++ h' :: (r ++ c)) := by
  induction hParted generalizing a h c i j with
  | @stop back hBack =>
    refine ⟨h, fun fuel hFuel => ?_⟩
    obtain ⟨fuel, rfl⟩ : ∃ k, fuel = k + 1 := ⟨fuel - 1, by omega⟩
    by_cases hNil : back = []
    · subst hNil
      rw [partitionLoop_stop (by simpa using hj.symm)]
      simp
    · have hPos := List.length_pos_of_ne_nil hNil
      obtain ⟨fuel, rfl⟩ : ∃ k, fuel = k + 1 := ⟨fuel - 1, by omega⟩
      have hLoad : load (a ++ h :: (back ++ c)) i = some h := load_append hi
      have hStore : store (a ++ h :: (back ++ c)) i h = some (a ++ h :: (back ++ c)) := store_append hi
      have hDown : scanDown (a ++ h :: (back ++ c)) tmp i j = some i := by
        rw [hj]
        have hBack' := scanDown_back [] (h := h) (c := c) hi (Int.add_zero i).symm hBack
        exact hBack'.trans (scanDown_stop hLoad (by simp))
      have hUp : scanUp (a ++ h :: (back ++ c)) tmp i i = some i := scanUp_stop hLoad (by simp)
      rw [partitionLoop_pass (by omega) hDown hLoad hStore hUp hLoad hStore, partitionLoop_stop rfl]
      simp
  | @last front back y hFront hy hBack =>
    refine ⟨y, fun fuel hFuel => ?_⟩
    obtain ⟨fuel, rfl⟩ : ∃ k, fuel = k + 2 := ⟨fuel - 2, by simp at hFuel; omega⟩
    obtain ⟨hDown, hLoad, hStore⟩ : scanDown (a ++ h :: (front ++ y :: back ++ c)) tmp i _ = _ ∧ _ :=
      scanDown_found (c := c) hi hy hBack
    have hAll : ∀ x ∈ y :: front, x ≤ tmp := List.forall_mem_cons.mpr ⟨hy.le, hFront⟩
    have hSplit : a ++ (y :: front ++ y :: (back ++ c)) = (a ++ y :: front) ++ y :: (back ++ c) := by simp
    have hLoad' : load (a ++ (y :: front ++ y :: (back ++ c))) (i + (y :: front).length) = some y := by
      rw [hSplit]
      exact load_append (by simp [hi])
    have hStore' : store (a ++ (y :: front ++ y :: (back ++ c))) (i + (y :: front).length) y =
        some (a ++ (y :: front ++ y :: (back ++ c))) := by
      rw [hSplit]
      exact store_append (by simp [hi])
    have hUp : scanUp (a ++ (y :: front ++ y :: (back ++ c))) tmp i (i + (y :: front).length) =
        some (i + (y :: front).length) := by
      have hPass := scanUp_front [] (h := y) (c := back ++ c) hi (j := i + (y :: front).length)
        (by simp) hAll
      rw [List.append_nil] at hPass
      exact hPass.trans (scanUp_stop hLoad' (by simp))
    rw [hj, partitionLoop_pass (by simp; omega) hDown hLoad hStore hUp hLoad' hStore', partitionLoop_stop rfl]
    simp
  | @swap front rest back l r y z hFront hz hy hBack hRest ih =>
    obtain ⟨h', hLoop⟩ : ∃ h', ∀ fuel, (rest ++ [z]).length < fuel →
        SortAbout.partitionLoop fuel (a ++ (y :: front) ++ z :: (rest ++ [z] ++ (back ++ c))) tmp
          (i + (y :: front).length) (i + (y :: front).length + (rest ++ [z]).length) = _ :=
      ih (by simp [hi]) rfl
    refine ⟨h', fun fuel hFuel => ?_⟩
    simp only [List.length_append, List.length_cons] at hFuel
    obtain ⟨fuel, rfl⟩ : ∃ k, fuel = k + 1 := ⟨fuel - 1, by omega⟩
    obtain ⟨hDown, hLoad, hStore⟩ : scanDown (a ++ h :: (front ++ z :: rest ++ y :: back ++ c)) tmp i _ = _ ∧ _ :=
      scanDown_found (c := c) hi hy hBack
    have hAll : ∀ x ∈ y :: front, x ≤ tmp := List.forall_mem_cons.mpr ⟨hy.le, hFront⟩
    obtain ⟨j', hj'⟩ : ∃ j', j' = i + ((y :: (front ++ z :: rest)).length : Int) := ⟨_, rfl⟩
    have hSplit : a ++ (y :: (front ++ z :: rest) ++ y :: (back ++ c)) =
        (a ++ y :: front) ++ z :: (rest ++ y :: (back ++ c)) := by simp
    have hLoad' : load (a ++ (y :: (front ++ z :: rest) ++ y :: (back ++ c))) (i + (y :: front).length) =
        some z := by
      rw [hSplit]
      exact load_append (by simp [hi])
    have hUp : scanUp (a ++ (y :: (front ++ z :: rest) ++ y :: (back ++ c))) tmp i j' =
        some (i + (y :: front).length) := by
      have hPass := scanUp_front (z :: rest) (h := y) (c := back ++ c) hi (j := j')
        (by rw [hj']; simp; omega) hAll
      exact hPass.trans (scanUp_stop hLoad' fun hBoth => absurd hBoth.1 (not_le.mpr hz))
    have hStore' : store (a ++ (y :: (front ++ z :: rest) ++ y :: (back ++ c))) j' z =
        some (a ++ (y :: front) ++ z :: (rest ++ [z] ++ (back ++ c))) := by
      have hPlace : a ++ (y :: (front ++ z :: rest) ++ y :: (back ++ c)) =
          (a ++ y :: (front ++ z :: rest)) ++ y :: (back ++ c) := by simp
      rw [hPlace, store_append (by simp [hi, hj'])]
      simp
    have hEnd : j' = i + (y :: front).length + (rest ++ [z]).length := by
      rw [hj']
      simp
      omega
    rw [hj, partitionLoop_pass (by simp; omega) hDown hLoad hStore (hj' ▸ hUp) hLoad' (hj' ▸ hStore'), ← hj', hEnd,
      hLoop fuel (by simp; omega)]
    simp
    omega

/-! ### The two parts -/

theorem Parted.perm (h : Parted tmp m l r) : (l ++ r).Perm m := by
  induction h with
  | stop => exact .refl _
  | @last front back y => exact List.perm_middle.symm
  | @swap front rest back l r y z hFront hz hy hBack hRest ih =>
    rw [List.perm_iff_count] at ih ⊢
    intro v
    have hv := ih v
    simp only [List.count_append, List.count_cons, List.count_nil] at hv ⊢
    omega

theorem Parted.le (h : Parted tmp m l r) : ∀ x ∈ l, x ≤ tmp := by
  induction h with
  | stop => exact nofun
  | last hFront hy => exact List.forall_mem_cons.mpr ⟨hy.le, hFront⟩
  | swap hFront hz hy hBack hRest ih =>
    exact List.forall_mem_append.mpr ⟨List.forall_mem_cons.mpr ⟨hy.le, hFront⟩, ih⟩

theorem Parted.ge (h : Parted tmp m l r) : ∀ y ∈ r, tmp ≤ y := by
  induction h with
  | stop hBack => exact hBack
  | last hFront hy hBack => exact hBack
  | swap hFront hz hy hBack hRest ih => exact List.forall_mem_append.mpr ⟨ih, hBack⟩

theorem exists_below (tmp : Int) (m : List Int) : (∀ y ∈ m, tmp ≤ y) ∨
    ∃ front y back, m = front ++ y :: back ∧ y < tmp ∧ ∀ y ∈ back, tmp ≤ y := by
  induction m with
  | nil => exact .inl nofun
  | cons x m ih =>
    rcases ih with hAll | ⟨front, y, back, rfl, hy, hBack⟩
    · rcases lt_or_ge x tmp with hx | hx
      · exact .inr ⟨[], x, m, rfl, hx, hAll⟩
      · exact .inl (List.forall_mem_cons.mpr ⟨hx, hAll⟩)
    · exact .inr ⟨x :: front, y, back, rfl, hy, hBack⟩

theorem exists_above (tmp : Int) (m : List Int) : (∀ x ∈ m, x ≤ tmp) ∨
    ∃ front z rest, m = front ++ z :: rest ∧ (∀ x ∈ front, x ≤ tmp) ∧ tmp < z := by
  induction m with
  | nil => exact .inl nofun
  | cons x m ih =>
    rcases lt_or_ge tmp x with hx | hx
    · exact .inr ⟨[], x, m, rfl, nofun, hx⟩
    · rcases ih with hAll | ⟨front, z, rest, rfl, hFront, hz⟩
      · exact .inl (List.forall_mem_cons.mpr ⟨hx, hAll⟩)
      · exact .inr ⟨x :: front, z, rest, rfl, List.forall_mem_cons.mpr ⟨hx, hFront⟩, hz⟩

theorem exists_parted (tmp : Int) (m : List Int) : ∃ l r, Parted tmp m l r := by
  induction hn : m.length using Nat.strong_induction_on generalizing m with
  | h n ih =>
    rcases exists_below tmp m with hAll | ⟨front, y, back, rfl, hy, hBack⟩
    · exact ⟨[], m, .stop hAll⟩
    · rcases exists_above tmp front with hAll | ⟨front, z, rest, rfl, hFront, hz⟩
      · exact ⟨y :: front, back, .last hAll hy hBack⟩
      · obtain ⟨l, r, hRest⟩ := ih (rest ++ [z]).length (by rw [← hn]; simp; omega) (rest ++ [z]) rfl
        exact ⟨_, _, .swap hFront hz hy hBack hRest⟩

/-! ### The pivot -/

variable {first last mid : Int}

theorem load_range (hFirst : first = a.length) {k : ℕ} (hk : k < b.length) :
    load (a ++ b ++ c) (first + k) = some (b.getD k x) := by
  have hIndex : (first + k).toNat = a.length + k := by omega
  rw [load, if_pos (by omega), List.append_assoc, hIndex, List.getElem?_append_right (by omega),
    Nat.add_sub_cancel_left, List.getElem?_append_left hk, List.getElem?_eq_getElem hk,
    List.getD_eq_getElem _ _ hk]

/-- The median of three is the first exactly if that is one. -/
theorem media_eq {z : Int} (hx : load nums first = some x) (hy : load nums mid = some y)
    (hz : load nums last = some z) : ∃ tmp, (media nums first mid last).bind (load nums) = some tmp ∧
      (tmp = x ∨ tmp = y ∨ tmp = z) ∧ (tmp = x ↔ IsMedian x y z) := by
  rw [media, hx, hy, hz]
  simp only [Option.bind_eq_bind, Option.bind_some, IsMedian]
  split_ifs
  all_goals
    simp only [Option.bind_some, hx, hy, hz, Option.some.injEq, exists_eq_left']
    grind

theorem pivot_eq (hFirst : first = a.length) (hLast : last = first + m.length)
    (hInt : InInt (first + last)) : ∃ tmp ∈ x :: m, pivot (a ++ x :: m ++ c) first last = some tmp ∧
      (tmp = x ↔ IsMedian x ((x :: m).getD (m.length / 2) x) ((x :: m).getD m.length x)) := by
  have hMid : (first + last).tdiv 2 = first + (m.length / 2 : ℕ) := by
    rw [Int.tdiv_eq_ediv_of_nonneg (by omega)]
    omega
  have hLoad : ∀ k ≤ m.length, load (a ++ x :: m ++ c) (first + k) = some ((x :: m).getD k x) :=
    fun k hk => load_range hFirst (by rw [List.length_cons]; omega)
  have hIn : ∀ k ≤ m.length, (x :: m).getD k x ∈ x :: m := by
    intro k hk
    have hLess : k < (x :: m).length := by rw [List.length_cons]; omega
    rw [List.getD_eq_getElem _ _ hLess]
    exact List.getElem_mem hLess
  have hStart : load (a ++ x :: m ++ c) first = some x := by
    rw [List.append_assoc]
    exact load_append hFirst
  obtain ⟨tmp, hMedia, hOne, hFirstIs⟩ := media_eq hStart (hLoad (m.length / 2) (Nat.div_le_self _ 2))
    (hLoad m.length le_rfl)
  refine ⟨tmp, ?_, ?_, hFirstIs⟩
  · rcases hOne with rfl | rfl | rfl
    · exact List.mem_cons_self
    · exact hIn _ (Nat.div_le_self _ 2)
    · exact hIn _ le_rfl
  · rw [pivot, toInt?_eq_some.mpr ⟨hInt, rfl⟩, Option.bind_eq_bind, Option.bind_some, hMid, hLast]
    exact hMedia

/-- **The partition**: the pivot takes the place of the first element. -/
theorem partition_eq (hParted : Parted tmp m l r) (hFirst : first = a.length)
    (hLast : last = first + m.length) (hPivot : pivot (a ++ x :: m ++ c) first last = some tmp)
    (hFuel : m.length < fuel) : partition fuel (a ++ x :: m ++ c) first last =
      some (first + l.length, a ++ l ++ (tmp :: r ++ c)) := by
  obtain ⟨h', hLoop⟩ : ∃ h', ∀ fuel, m.length < fuel →
      partitionLoop fuel (a ++ x :: (m ++ c)) tmp first last = _ := hParted.partitionLoop hFirst hLast
  have hStore : store (a ++ l ++ h' :: (r ++ c)) (first + l.length) tmp = some (a ++ l ++ (tmp :: r ++ c)) := by
    rw [store_append (by simp [hFirst])]
    rfl
  have hSame : a ++ x :: m ++ c = a ++ x :: (m ++ c) := by simp
  rw [partition, hPivot, hSame]
  simp only [Option.bind_eq_bind, Option.bind_some, hLoop fuel hFuel, hStore]

/-! ### The calls -/

variable {l' r' : List Int}

theorem pairwise_pivot (hl : ∀ y ∈ l, y ≤ tmp) (hr : ∀ y ∈ r, tmp ≤ y) (hl' : l'.Pairwise (· ≤ ·))
    (hr' : r'.Pairwise (· ≤ ·)) (hFrom : ∀ y ∈ l', y ∈ l) (hFrom' : ∀ y ∈ r', y ∈ r) :
    (l' ++ tmp :: r').Pairwise (· ≤ ·) := by
  have hLow : ∀ y ∈ l', y ≤ tmp := fun y hy => hl y (hFrom y hy)
  have hHigh : ∀ y ∈ r', tmp ≤ y := fun y hy => hr y (hFrom' y hy)
  refine List.pairwise_append.mpr ⟨hl', List.pairwise_cons.mpr ⟨hHigh, hr'⟩, fun y hy z hz => ?_⟩
  rcases List.mem_cons.mp hz with rfl | hz
  · exact hLow y hy
  · exact (hLow y hy).trans (hHigh z hz)

theorem quickSort_done (h : last < first) : quickSort (fuel + 1) nums first last = some nums := by
  rw [quickSort, if_pos h]

theorem quickSort_none (h : ¬last < first) (hPartition : partition fuel nums first last = none) :
    quickSort (fuel + 1) nums first last = none := by
  rw [quickSort, if_neg h, hPartition]
  rfl

/-- **Step lemma**: a call on a range that is not empty, behind its partition. -/
theorem quickSort_next (hParted : Parted tmp m l r) (hFirst : first = a.length)
    (hLast : last = first + m.length) (hPivot : pivot (a ++ x :: m ++ c) first last = some tmp)
    (hFuel : m.length < fuel) (hInt : InInt (first + last)) :
    quickSort (fuel + 1) (a ++ x :: m ++ c) first last =
      (quickSort fuel (a ++ l ++ (tmp :: r ++ c)) first (first + l.length - 1)).bind fun nums =>
        (toInt? (first + l.length + 1)).bind fun rightFirst => quickSort fuel nums rightFirst last := by
  have hSize := hParted.perm.length_eq
  rw [List.length_append] at hSize
  have hDown : InInt (first + l.length - 1) := by
    have hHigh := hInt.2
    constructor <;> omega
  rw [quickSort, if_neg (by omega), partition_eq hParted hFirst hLast hPivot hFuel]
  simp only [Option.bind_eq_bind, Option.bind_some, toInt?_eq_some.mpr ⟨hDown, rfl⟩]

/-- **Run lemma**: where the first elements are the medians, the range is sorted. -/
theorem MedianFirst.quickSort (h : MedianFirst first b) (hFirst : first = a.length)
    (hLast : last + 1 = first + b.length) : ∃ b', Sorted b b' ∧
      ∀ fuel, b.length < fuel → quickSort fuel (a ++ b ++ c) first last = some (a ++ b' ++ c) := by
  induction h generalizing a c last with
  | nil first =>
    refine ⟨[], ⟨.nil, .refl _⟩, fun fuel hFuel => ?_⟩
    obtain ⟨fuel, rfl⟩ : ∃ k, fuel = k + 1 := ⟨fuel - 1, by omega⟩
    exact quickSort_done (by simp at hLast; omega)
  | @cons first x m l r hMedian hSum hNext hParted hLeft hRight ihLeft ihRight =>
    rw [List.length_cons] at hLast
    have hEnd : last = first + m.length := by omega
    subst hEnd
    have hSize := hParted.perm.length_eq
    rw [List.length_append] at hSize
    obtain ⟨tmp, -, hPivot, hTmp⟩ : ∃ tmp ∈ x :: m, pivot (a ++ x :: m ++ c) _ _ = some tmp ∧ _ :=
      pivot_eq hFirst rfl hSum
    obtain rfl := hTmp.mpr hMedian
    obtain ⟨l', hSortedL, hRunL⟩ : ∃ l', Sorted l l' ∧ ∀ fuel, l.length < fuel →
        SortAbout.quickSort fuel (a ++ l ++ (tmp :: r ++ c)) first (first + l.length - 1) = _ :=
      ihLeft hFirst (by omega)
    have hSizeL := hSortedL.2.length_eq
    obtain ⟨r', hSortedR, hRunR⟩ : ∃ r', Sorted r r' ∧ ∀ fuel, r.length < fuel →
        SortAbout.quickSort fuel (a ++ l' ++ [tmp] ++ r ++ c) (first + l.length + 1) (first + m.length) = _ :=
      ihRight (by simp; omega) (by omega)
    have hAll : (l' ++ tmp :: r').Perm (tmp :: m) :=
      List.perm_middle.trans (((hSortedL.2.append hSortedR.2).trans hParted.perm).cons tmp)
    refine ⟨l' ++ tmp :: r', ⟨?_, hAll⟩, fun fuel hFuel => ?_⟩
    · exact pairwise_pivot hParted.le hParted.ge hSortedL.1 hSortedR.1
        (fun y hy => hSortedL.2.mem_iff.mp hy) fun y hy => hSortedR.2.mem_iff.mp hy
    · obtain ⟨fuel, rfl⟩ : ∃ k, fuel = k + 1 := ⟨fuel - 1, by omega⟩
      rw [List.length_cons] at hFuel
      have hNums : a ++ l' ++ (tmp :: r ++ c) = a ++ l' ++ [tmp] ++ r ++ c := by simp
      rw [quickSort_next hParted hFirst rfl hPivot (by omega) hSum, hRunL fuel (by omega), Option.bind_some,
        toInt?_eq_some.mpr ⟨hNext, rfl⟩, Option.bind_some, hNums, hRunR fuel (by omega)]
      simp

/-- What a call leaves of an array around a range whose elements are all different. -/
inductive Outcome (a b c : List Int) (first : Int) : Option (List Int) → Prop
  | overflow : Outcome a b c first none
  | done (b' : List Int) (hFrom : ∀ y ∈ b', y ∈ b) (hLength : b'.length = b.length)
      (hMedian : b'.Nodup → MedianFirst first b) : Outcome a b c first (some (a ++ b' ++ c))

theorem perm_of_nodup (hNodup : b.Nodup) (hFrom : ∀ y ∈ b, y ∈ l) (hLength : b.length = l.length) : b.Perm l :=
  (List.subperm_of_subset hNodup hFrom).perm_of_length_le hLength.ge

/-- The calls on both parts: if the elements are all different still, the pivot is the one that was written
over. -/
theorem Outcome.next {out : Option (List Int)} (hParted : Parted tmp m l r) (hTmp : tmp ∈ x :: m)
    (hIs : tmp = x → IsMedian x ((x :: m).getD (m.length / 2) x) ((x :: m).getD m.length x))
    (hNodup : (x :: m).Nodup) (hSum : InInt (first + (first + m.length)))
    (hNext : InInt (first + l.length + 1)) (hFrom : ∀ y ∈ l', y ∈ l) (hLength : l'.length = l.length)
    (hMedian : l'.Nodup → MedianFirst first l)
    (hRight : Outcome (a ++ l' ++ [tmp]) r c (first + l.length + 1) out) :
    Outcome a (x :: m) c first out := by
  have hPerm := hParted.perm
  cases hRight with
  | overflow => exact .overflow
  | done r' hFrom' hLength' hMedian' =>
    have hSame : a ++ l' ++ [tmp] ++ r' ++ c = a ++ (l' ++ tmp :: r') ++ c := by simp
    have hIn : ∀ y, y ∈ l ∨ y ∈ r → y ∈ m := fun y hy => hPerm.mem_iff.mp (List.mem_append.mpr hy)
    rw [hSame]
    refine .done _ ?_ ?_ fun hAll => ?_
    · intro y hy
      rcases List.mem_append.mp hy with hy | hy
      · exact List.mem_cons_of_mem x (hIn y (.inl (hFrom y hy)))
      · rcases List.mem_cons.mp hy with rfl | hy
        · exact hTmp
        · exact List.mem_cons_of_mem x (hIn y (.inr (hFrom' y hy)))
    · have hSize := hPerm.length_eq
      simp only [List.length_append, List.length_cons] at hSize ⊢
      omega
    · have hMiddle := List.nodup_middle.mp hAll
      obtain ⟨hNew, hBoth⟩ := List.nodup_cons.mp hMiddle
      have hl' : l'.Nodup := hBoth.of_append_left
      have hr' : r'.Nodup := hBoth.of_append_right
      have hRest : (l' ++ r').Perm m :=
        ((perm_of_nodup hl' hFrom hLength).append (perm_of_nodup hr' hFrom' hLength')).trans hPerm
      -- the pivot is not among the elements that are left
      have hPivot : tmp = x := (List.mem_cons.mp hTmp).resolve_right fun hIn => hNew (hRest.mem_iff.mpr hIn)
      subst hPivot
      exact .cons (hIs rfl) hSum hNext hParted (hMedian hl') (hMedian' hr')

/-- **Run lemma**: a call on a range whose elements are all different. -/
theorem quickSort_outcome (hNodup : b.Nodup) (hFirst : first = a.length)
    (hLast : last + 1 = first + b.length) : ∃ out, (∀ fuel, b.length < fuel →
      quickSort fuel (a ++ b ++ c) first last = out) ∧ Outcome a b c first out := by
  induction hn : b.length using Nat.strong_induction_on generalizing a b c first last with
  | h n ih =>
    cases b with
    | nil =>
      refine ⟨some (a ++ [] ++ c), fun fuel hFuel => ?_, .done [] nofun rfl fun _ => .nil first⟩
      obtain ⟨fuel, rfl⟩ : ∃ k, fuel = k + 1 := ⟨fuel - 1, by omega⟩
      exact quickSort_done (by simp at hLast; omega)
    | cons x m =>
      rw [List.length_cons] at hn hLast
      have hEnd : last = first + m.length := by omega
      subst hEnd
      have hSome : ¬first + (m.length : Int) < first := by omega
      by_cases hSum : InInt (first + (first + m.length))
      · obtain ⟨tmp, hTmp, hPivot, hIs⟩ : ∃ tmp ∈ x :: m, pivot (a ++ x :: m ++ c) _ _ = some tmp ∧ _ :=
          pivot_eq hFirst rfl hSum
        obtain ⟨l, r, hParted⟩ := exists_parted tmp m
        have hPerm := hParted.perm
        have hSize := hPerm.length_eq
        rw [List.length_append] at hSize
        have hParts : (l ++ r).Nodup := hPerm.nodup_iff.mpr hNodup.of_cons
        have hStep : ∀ fuel, m.length < fuel → quickSort (fuel + 1) (a ++ x :: m ++ c) first _ = _ :=
          fun fuel hFuel => quickSort_next hParted hFirst rfl hPivot hFuel hSum
        obtain ⟨out, hLeft, hOut⟩ : ∃ out, (∀ fuel, l.length < fuel →
            quickSort fuel (a ++ l ++ (tmp :: r ++ c)) first (first + l.length - 1) = out) ∧ _ :=
          ih l.length (by omega) hParts.of_append_left hFirst (by omega) rfl
        cases hOut with
        | overflow =>
          refine ⟨none, fun fuel hFuel => ?_, .overflow⟩
          obtain ⟨fuel, rfl⟩ : ∃ k, fuel = k + 1 := ⟨fuel - 1, by omega⟩
          rw [hStep fuel (by omega), hLeft fuel (by omega)]
          rfl
        | done l' hFrom hLength hMedian =>
          by_cases hNext : InInt (first + l.length + 1)
          · obtain ⟨out, hRight, hOut⟩ : ∃ out, (∀ fuel, r.length < fuel → quickSort fuel
                (a ++ l' ++ [tmp] ++ r ++ c) (first + l.length + 1) (first + m.length) = out) ∧ _ :=
              ih r.length (by omega) hParts.of_append_right (by simp; omega) (by omega) rfl
            refine ⟨out, fun fuel hFuel => ?_,
              hOut.next hParted hTmp hIs.mp hNodup hSum hNext hFrom hLength hMedian⟩
            obtain ⟨fuel, rfl⟩ : ∃ k, fuel = k + 1 := ⟨fuel - 1, by omega⟩
            have hNums : a ++ l' ++ (tmp :: r ++ c) = a ++ l' ++ [tmp] ++ r ++ c := by simp
            rw [hStep fuel (by omega), hLeft fuel (by omega), Option.bind_some,
              toInt?_eq_some.mpr ⟨hNext, rfl⟩, Option.bind_some, hNums, hRight fuel (by omega)]
          · refine ⟨none, fun fuel hFuel => ?_, .overflow⟩
            obtain ⟨fuel, rfl⟩ : ∃ k, fuel = k + 1 := ⟨fuel - 1, by omega⟩
            have hNone : toInt? (first + l.length + 1) = none := if_neg hNext
            rw [hStep fuel (by omega), hLeft fuel (by omega), Option.bind_some, hNone]
            rfl
      · refine ⟨none, fun fuel hFuel => ?_, .overflow⟩
        obtain ⟨fuel, rfl⟩ : ∃ k, fuel = k + 1 := ⟨fuel - 1, by omega⟩
        have hNone : toInt? (first + (first + m.length)) = none := if_neg hSum
        refine quickSort_none hSome ?_
        rw [partition, pivot, hNone]
        rfl

end

/-- `QuickSort` ends, and leaves the range sorted. -/
def QuickSorts (nums : List Int) (first last : Int) : Prop :=
  ∃ out, Loop.Settles (fun fuel => quickSort fuel nums first last) out ∧ SortsRange nums out first last

section

variable {a b c : List Int} {first last : Int}

theorem quickSorts_of_medianFirst (h : MedianFirst first b) (hFirst : first = a.length)
    (hLast : last + 1 = first + b.length) : QuickSorts (a ++ b ++ c) first last := by
  obtain ⟨b', hSorted, hRun⟩ := h.quickSort (c := c) hFirst hLast
  exact ⟨_, ⟨b.length + 1, hRun⟩, sortsRange_append hSorted hFirst hLast⟩

theorem medianFirst_of_quickSorts (hNodup : b.Nodup) (hFirst : first = a.length)
    (hLast : last + 1 = first + b.length) (h : QuickSorts (a ++ b ++ c) first last) :
    MedianFirst first b := by
  obtain ⟨out, ⟨n, hn⟩, hSorts⟩ := h
  obtain ⟨out', hRun, hOut⟩ := quickSort_outcome (c := c) hNodup hFirst hLast
  have hSame : some out = out' :=
    (hn _ (Nat.le_max_left n (b.length + 1))).symm.trans (hRun _ (Nat.le_max_right n (b.length + 1)))
  subst hSame
  cases hOut with
  | done b' hFrom hLength hMedian =>
    have hSorted := hSorts.sorted
    rw [slice_append hFirst hLast, slice_append hFirst (hLength ▸ hLast)] at hSorted
    exact hMedian (hSorted.2.nodup_iff.mpr hNodup)

end

/-- **`QuickSort`** sorts a range in which, at every depth, the first element is the median of three and the
sums of indices are `int`s, and no other range of elements that are all different. -/
theorem quickSorts_medianFirst {nums : List Int} {first last : Int}
    (hRange : first ≤ last → 0 ≤ first ∧ last < nums.length) :
    (MedianFirst first (slice nums first last) → QuickSorts nums first last) ∧
      ((slice nums first last).Nodup → QuickSorts nums first last →
        MedianFirst first (slice nums first last)) := by
  by_cases hEmpty : last < first
  · have hSlice : slice nums first last = [] := by
      have hLength : (last - first + 1).toNat = 0 := by omega
      rw [slice, hLength, List.take_zero]
    have hSettles : Loop.Settles (fun fuel => quickSort fuel nums first last) nums :=
      (Loop.settles_const nums).succ fun _ => quickSort_done hEmpty
    rw [hSlice]
    exact ⟨fun _ => ⟨nums, hSettles, sortsRange_self hEmpty.le⟩, fun _ _ => .nil first⟩
  · rw [not_lt] at hEmpty
    obtain ⟨hFirst, hLast⟩ := hRange hEmpty
    obtain ⟨a, b, c, rfl, hStart, hLength⟩ := exists_append (by omega) hFirst hLast
    rw [slice_append hStart hLength]
    exact ⟨fun h => quickSorts_of_medianFirst h hStart hLength,
      fun hNodup => medianFirst_of_quickSorts hNodup hStart hLength⟩

theorem not_medianFirst_three : ¬MedianFirst 0 [1, 2, 3] := by
  intro h
  cases h with
  | cons hMedian => exact absurd hMedian (by decide)

/-- The 4 and the 2 change places, and so do the 5 and the 1; in 1, 2 and 3 the median is not the first. -/
theorem quickSorts_medianFirst_five : QuickSorts [3, 4, 5, 1, 2] 0 4 ∧ ¬QuickSorts [1, 2, 3] 0 2 := by
  constructor
  · apply (quickSorts_medianFirst fun _ => ⟨by decide, by decide⟩).1
    have hParted : Parted 3 [4, 5, 1, 2] [2, 1] [5, 4] :=
      @Parted.swap 3 [] [5, 1] [] [1] [5, 4] 2 4 nofun (by decide) (by decide) nofun
        (@Parted.swap 3 [] [] [4] [] [5] 1 5 nofun (by decide) (by decide) (by decide) (.stop (by decide)))
    have hLeft : MedianFirst 0 [2, 1] :=
      .cons (by decide) (by decide) (by decide) (@Parted.last 2 [] [] 1 nofun (by decide) nofun)
        (.cons (by decide) (by decide) (by decide) (.stop nofun) (.nil 0) (.nil 1)) (.nil 2)
    have hRight : MedianFirst 3 [5, 4] :=
      .cons (by decide) (by decide) (by decide) (@Parted.last 5 [] [] 4 nofun (by decide) nofun)
        (.cons (by decide) (by decide) (by decide) (.stop nofun) (.nil 3) (.nil 4)) (.nil 5)
    exact .cons (by decide) (by decide) (by decide) hParted hLeft hRight
  · intro h
    exact not_medianFirst_three
      ((quickSorts_medianFirst fun _ => ⟨by decide, by decide⟩).2 (by decide) h)

/-- The median of 1, 2 and 3 takes the place of the 1, which is lost. -/
theorem not_quickSorts : ¬∀ (nums : List Int) (first last : Int),
    (first ≤ last → 0 ≤ first ∧ last < nums.length) → QuickSorts nums first last := by
  intro h
  have hSorts : QuickSorts ([] ++ [1, 2, 3] ++ []) 0 2 := h [1, 2, 3] 0 2 fun _ => ⟨by decide, by decide⟩
  exact not_medianFirst_three (medianFirst_of_quickSorts (by decide) rfl rfl hSorts)

end DemoCode.SortAbout
