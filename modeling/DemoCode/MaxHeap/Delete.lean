import Mathlib.Data.List.Perm.Basic
import Mathlib.Order.Bounds.Defs
import DemoCode.MaxHeap.Heap

/-! `Delete`: the last element is put into the first place and sinks to the greater child, as long as
there are two.  An only child is passed over, in an empty heap there is no first place, and from place
`2 ^ 30` on that of a child is no `int`. -/

namespace DemoCode.MaxHeap

open Heaps

/-- The greater child, the left one of two that are equal. -/
def greaterChild (f : Nat → Int) (i : Nat) : Nat := if f (2 * i) < f (2 * i + 1) then 2 * i + 1 else 2 * i

/-- Going to the greater child each time, one comes from `i` to `q`. -/
inductive Leads (f : Nat → Int) : Nat → Nat → Prop
  | here (i : Nat) : Leads f i i
  | down {i q : Nat} (next : Leads f (greaterChild f i) q) : Leads f i q

section

variable {f g : Nat → Int} {i q : Nat}

theorem greaterChild_half (f : Nat → Int) (i : Nat) : greaterChild f i / 2 = i := by
  unfold greaterChild
  split <;> omega

theorem greaterChild_le (f : Nat → Int) (i : Nat) : greaterChild f i ≤ 2 * i + 1 := by
  unfold greaterChild
  split <;> omega

/-- No child is greater than the greater one. -/
theorem le_greaterChild {j : Nat} (hParent : j / 2 = i) : f j ≤ f (greaterChild f i) := by
  obtain rfl | rfl : j = 2 * i ∨ j = 2 * i + 1 := by omega
  · unfold greaterChild
    split <;> omega
  · unfold greaterChild
    split <;> omega

theorem Leads.le (h : Leads f i q) : i ≤ q := by
  induction h with
  | here i => exact Nat.le_refl i
  | @down i q next ih =>
    have hHalf := greaterChild_half f i
    omega

theorem Leads.trans {p : Nat} (h : Leads f i q) (h' : Leads f q p) : Leads f i p := by
  induction h with
  | here i => exact h'
  | down next ih => exact .down (ih h')

/-- There is only one way. -/
theorem Leads.linear {p : Nat} (h : Leads f i q) (h' : Leads f i p) : Leads f q p ∨ Leads f p q := by
  induction h with
  | here i => exact .inl h'
  | @down i q next ih =>
    cases h' with
    | here => exact .inr (.down next)
    | down next' => exact ih next'

/-- The way depends on the places from the children of `i` to `q` and the one beside it. -/
theorem Leads.congr (h : Leads f i q) (hi : 1 ≤ i)
    (hSame : ∀ j, 2 * i ≤ j → j ≤ 2 * (q / 2) + 1 → g j = f j) : Leads g i q := by
  induction h with
  | here i => exact .here i
  | @down i q next ih =>
    have hHalf := greaterChild_half f i
    have hLe := next.le
    have hPick : greaterChild g i = greaterChild f i := by
      unfold greaterChild
      rw [hSame _ (by omega) (by omega), hSame _ (by omega) (by omega)]
    refine .down ?_
    rw [hPick]
    exact ih (by omega) fun j hj hLess => hSame j (by omega) hLess

/-- What is at the end of the way is at most what is on it. -/
theorem Leads.le_way {N c : Nat} (h : Leads f i q) (hHole : Hole f N c) (hc : c < i) (hi : 1 ≤ i)
    (hq : q < N) : f q ≤ f i := by
  induction h with
  | here i => exact Int.le_refl _
  | @down i q next ih =>
    have hHalf := greaterChild_half f i
    have hLe := next.le
    have hUp := hHole.rest (greaterChild f i) (by omega) (by omega) (by omega) (by omega)
    rw [hHalf] at hUp
    exact (ih (by omega) (by omega) hq).trans hUp

/-- What is below the end of the way is at most what is on it. -/
theorem Leads.le_value {N c : Nat} (h : Leads f i q) (hHole : Hole f N c) (hc : c < i) (hi : 1 ≤ i)
    (hq : 2 * q < N) : f (2 * q) ≤ f i := by
  have hLe := h.le
  have hUp := hHole.rest (2 * q) (by omega) hq (by omega) (by omega)
  rw [Nat.mul_div_cancel_left q (by omega)] at hUp
  exact hUp.trans (h.le_way hHole hc hi (by omega))

end

/-- The way leads from `i` to a place whose children have no `int`, by nothing but places with two
children and elements that are greater than `tmp`. -/
def TooDeep (f : Nat → Int) (n : Nat) (tmp : Int) (i : Nat) : Prop :=
  ∃ q, 2 ^ 30 ≤ q ∧ 2 * (q / 2) + 1 < n ∧ tmp < f q ∧ Leads f i q

/-- What the loop of `DeleteFix` has done: the hole has sunk to a place that is not below the element to
be put in, unless it has no two children. -/
structure Sunk (vec : List Int) (tmp : Int) (i : Nat) (vec' : List Int) (i' : Nat) : Prop where
  length : vec'.length = vec.length
  pos : 1 ≤ i'
  inside : i' < vec.length
  hole : Hole (val vec') vec.length i'
  above : 2 ≤ i' → tmp ≤ val vec' (i' / 2)
  perm : (vec'.set i' tmp).Perm (vec.set i tmp)
  first : val vec' 0 = val vec 0
  below : ∀ j, i' < j → val vec' j = val vec j
  way : Leads (val vec) i i'
  two : i' = i ∨ 2 * (i' / 2) + 1 < vec.length
  done : 2 * i' + 1 < vec.length → val vec' (2 * i') ≤ tmp ∧ val vec' (2 * i' + 1) ≤ tmp

/-- One step down. -/
theorem sink_down {vec : List Int} {tmp : Int} {i : Nat} (hi : 1 ≤ i) (hInt : i < 2 ^ 30)
    (hTwo : 2 * i + 1 < vec.length) (hLess : tmp < val vec (greaterChild (val vec) i)) : sink vec tmp i =
      sink (vec.set i (val vec (greaterChild (val vec) i))) tmp (greaterChild (val vec) i) := by
  have hSome : tmp < val vec (2 * i) ∨ tmp < val vec (2 * i + 1) := by
    unfold greaterChild at hLess
    split at hLess
    · exact .inr hLess
    · exact .inl hLess
  rw [sink, if_neg (by omega), if_pos ⟨hi, hTwo⟩, getElem?_val (by omega), getElem?_val hTwo]
  simp only [Option.bind_eq_bind, Option.bind_some, if_pos hSome]
  unfold greaterChild
  split
  · rfl
  · rfl

/-- The element stays where two children are no greater. -/
theorem sink_stay {vec : List Int} {tmp : Int} {i : Nat} (hInt : i < 2 ^ 30)
    (h : 2 * i + 1 < vec.length → ¬tmp < val vec (greaterChild (val vec) i)) : sink vec tmp i = some (vec, i) := by
  rw [sink, if_neg (by omega)]
  by_cases hTwo : 0 < i ∧ 2 * i + 1 < vec.length
  · have hLeft := le_greaterChild (f := val vec) (show 2 * i / 2 = i by omega)
    have hRight := le_greaterChild (f := val vec) (show (2 * i + 1) / 2 = i by omega)
    have hNone := h hTwo.2
    have hNot : ¬(tmp < val vec (2 * i) ∨ tmp < val vec (2 * i + 1)) := by omega
    rw [if_pos hTwo, getElem?_val (by omega), getElem?_val hTwo.2]
    simp only [Option.bind_eq_bind, Option.bind_some, if_neg hNot]
  · rw [if_neg hTwo]

/-- Where the loop ends, the way leads on to no place with a greater element. -/
theorem not_tooDeep_of_stay {vec : List Int} {tmp : Int} {i : Nat} (hi : 1 ≤ i) (hInt : i < 2 ^ 30)
    (hHole : Hole (val vec) vec.length i)
    (h : 2 * i + 1 < vec.length → ¬tmp < val vec (greaterChild (val vec) i)) :
    ¬TooDeep (val vec) vec.length tmp i := by
  rintro ⟨q, hDeep, hTwo, hLess, hLeads⟩
  cases hLeads with
  | here => omega
  | down next =>
    have hHalf := greaterChild_half (val vec) i
    have hLe := next.le
    have hUp := next.le_way hHole (by omega) (by omega) (by omega)
    exact h (by omega) (Int.lt_of_lt_of_le hLess hUp)

/-- What stands behind a place does not change when the place is written. -/
theorem val_set_behind {vec : List Int} {i j : Nat} (hIn : i < vec.length) (x : Int) (hj : i < j) :
    val (vec.set i x) j = val vec j := by
  rw [val_set hIn, Function.update_of_ne (by omega)]

theorem leads_set {vec : List Int} {i c q : Nat} (hIn : i < vec.length) (x : Int) (hc : i < c) :
    Leads (val (vec.set i x)) c q ↔ Leads (val vec) c q := by
  constructor
  · exact fun hWay => hWay.congr (by omega) fun j hj _ => (val_set_behind hIn x (by omega)).symm
  · exact fun hWay => hWay.congr (by omega) fun j hj _ => val_set_behind hIn x (by omega)

/-- After a step down the way leads too deep if it did before. -/
theorem tooDeep_down {vec : List Int} {tmp : Int} {i : Nat} (hi : 1 ≤ i) (hInt : i < 2 ^ 30)
    (hIn : i < vec.length) (x : Int) :
    TooDeep (val (vec.set i x)) vec.length tmp (greaterChild (val vec) i) ↔
      TooDeep (val vec) vec.length tmp i := by
  have hHalf := greaterChild_half (val vec) i
  have hChild : i < greaterChild (val vec) i := by omega
  constructor
  · rintro ⟨q, hDeep, hTwo, hLess, hWay⟩
    rw [val_set_behind hIn x (by omega)] at hLess
    exact ⟨q, hDeep, hTwo, hLess, .down ((leads_set hIn x hChild).mp hWay)⟩
  · rintro ⟨q, hDeep, hTwo, hLess, hWay⟩
    cases hWay with
    | here => omega
    | down next =>
      refine ⟨q, hDeep, hTwo, ?_, (leads_set hIn x hChild).mpr next⟩
      rw [val_set_behind hIn x (by omega)]
      exact hLess

/-- The element at `c` has gone to the hole at `i`, and the hole to `c`. -/
theorem set_hole_perm {vec : List Int} {i c : Nat} (hIn : i < vec.length) (hc : c < vec.length)
    (hNe : i ≠ c) (tmp : Int) : ((vec.set i (val vec c)).set c tmp).Perm (vec.set i tmp) := by
  have hLeft : i < (vec.set i tmp).length := by rw [List.length_set]; exact hIn
  have hRight : c < (vec.set i tmp).length := by rw [List.length_set]; exact hc
  have hPerm := List.set_set_perm hLeft hRight
  rw [List.getElem_set_self, List.getElem_set_ne hNe, List.set_set] at hPerm
  have hAt : val vec c = vec[c] := val_eq (List.getElem?_eq_getElem hc)
  rw [hAt]
  exact hPerm

/-- What the loop does from the greater child on, it has done from its parent on. -/
theorem Sunk.up {vec vec' : List Int} {tmp : Int} {i i' : Nat} (hi : 1 ≤ i) (hTwo : 2 * i + 1 < vec.length)
    (h : Sunk (vec.set i (val vec (greaterChild (val vec) i))) tmp (greaterChild (val vec) i) vec' i') :
    Sunk vec tmp i vec' i' := by
  have hHalf := greaterChild_half (val vec) i
  have hLe := greaterChild_le (val vec) i
  have hDeep := h.way.le
  have hIn : i < vec.length := by omega
  have hInside := h.inside
  have hHole := h.hole
  have hEnd := h.two
  have hDone := h.done
  rw [List.length_set] at hInside hHole hEnd hDone
  constructor
  case length => exact h.length.trans List.length_set
  case pos => exact h.pos
  case inside => exact hInside
  case hole => exact hHole
  case above => exact h.above
  case perm => exact h.perm.trans (set_hole_perm hIn (by omega) (by omega) tmp)
  case first => rw [h.first, val_set hIn, Function.update_of_ne (by omega)]
  case below =>
    intro j hj
    rw [h.below j hj, val_set_behind hIn _ (by omega)]
  case way => exact .down ((leads_set hIn _ (by omega)).mp h.way)
  case two => omega
  case done => exact hDone

/-- **The hole sinks** along the greater children, if it comes to no place whose children have none. -/
theorem sink_eq {vec : List Int} (tmp : Int) {i : Nat} (hi : 1 ≤ i) (hInt : i < 2 ^ 30) (hIn : i < vec.length)
    (hHole : Hole (val vec) vec.length i) (hAbove : 2 ≤ i → tmp ≤ val vec (i / 2)) :
    (TooDeep (val vec) vec.length tmp i ∧ sink vec tmp i = none) ∨
      (¬TooDeep (val vec) vec.length tmp i ∧
        ∃ vec' i', sink vec tmp i = some (vec', i') ∧ Sunk vec tmp i vec' i') := by
  induction hn : vec.length - i using Nat.strongRecOn generalizing vec i with
  | ind n ih =>
  by_cases hDown : 2 * i + 1 < vec.length ∧ tmp < val vec (greaterChild (val vec) i)
  · obtain ⟨hTwo, hLess⟩ := hDown
    have hHalf := greaterChild_half (val vec) i
    have hLe := greaterChild_le (val vec) i
    rw [sink_down hi hInt hTwo hLess, ← tooDeep_down hi hInt hIn (val vec (greaterChild (val vec) i))]
    by_cases hChild : greaterChild (val vec) i < 2 ^ 30
    · have hLength : (vec.set i (val vec (greaterChild (val vec) i))).length = vec.length := List.length_set
      have hSunkHole : Hole (val (vec.set i (val vec (greaterChild (val vec) i)))) vec.length
          (greaterChild (val vec) i) := by
        rw [val_set hIn]
        exact hHole.sink hHalf (by omega) fun j _ _ hj => le_greaterChild hj
      have hRest := ih (vec.length - greaterChild (val vec) i) (by omega) (by omega) hChild
        (by rw [hLength]; omega) (by rw [hLength]; exact hSunkHole)
        (fun _ => by rw [hHalf, val_set hIn, Function.update_self]; exact hLess.le) (by rw [hLength])
      rw [hLength] at hRest
      refine hRest.imp_right fun hFar => ⟨hFar.1, ?_⟩
      obtain ⟨-, vec', i', hSink, hSunk⟩ := hFar
      exact ⟨vec', i', hSink, hSunk.up hi hTwo⟩
    · refine .inl ⟨⟨greaterChild (val vec) i, by omega, by omega, ?_, .here _⟩, ?_⟩
      · rw [val_set_behind hIn _ (by omega)]
        exact hLess
      · rw [sink, if_pos (by omega)]
  · have hStay : 2 * i + 1 < vec.length → ¬tmp < val vec (greaterChild (val vec) i) :=
      fun hTwo hLess => hDown ⟨hTwo, hLess⟩
    refine .inr ⟨not_tooDeep_of_stay hi hInt hHole hStay, vec, i, sink_stay hInt hStay, rfl, hi, hIn, hHole,
      hAbove, .refl _, rfl, fun _ _ => rfl, .here i, .inl rfl, fun hTwo => ?_⟩
    have hLeft := le_greaterChild (f := val vec) (show 2 * i / 2 = i by omega)
    have hRight := le_greaterChild (f := val vec) (show (2 * i + 1) / 2 = i by omega)
    have hNone := hStay hTwo
    omega

/-- Above an only child that is greater, the loop ends exactly if the way leads there. -/
theorem Sunk.ends_iff {vec vec' : List Int} {tmp : Int} {i i' q : Nat} (h : Sunk vec tmp i vec' i') (hi : 1 ≤ i)
    (hOnly : vec.length = 2 * q + 1) (hLess : tmp < val vec (2 * q)) : i' = q ↔ Leads (val vec) i q := by
  have hPos := h.pos
  constructor
  · rintro rfl
    exact h.way
  intro hLeads
  have hLe := hLeads.le
  by_contra hNe
  rcases h.way.linear hLeads with hBefore | hBehind
  · -- the loop would have ended above the way's end, at a place that is not below `tmp`
    cases hBefore with
    | here => exact hNe rfl
    | down next =>
      have hDeep := next.le
      have hHalf := greaterChild_half (val vec) i'
      have hGreater := greaterChild_le (val vec) i'
      generalize greaterChild (val vec) i' = c at *
      obtain ⟨hLeft, hRight⟩ := h.done (by omega)
      have hNext : Leads (val vec') c q := next.congr (by omega) fun j hj _ => h.below j (by omega)
      have hUp := hNext.le_value h.hole (by omega) (by omega) (by omega)
      rw [h.below (2 * q) (by omega)] at hUp
      obtain rfl | rfl : c = 2 * i' ∨ c = 2 * i' + 1 := by omega
      · omega
      · omega
  · cases hBehind with
    | here => exact hNe rfl
    | down next =>
      have hDeep := next.le
      have hHalf := greaterChild_half (val vec) q
      have hInside := h.inside
      have hTwo := h.two
      omega

/-- The element that is put in keeps the heap order unless it has come to stand above an only child that is
greater. -/
theorem Sunk.isHeap_iff {vec vec' : List Int} {tmp : Int} {i i' : Nat} (h : Sunk vec tmp i vec' i') :
    IsHeap (vec'.set i' tmp) ↔ ¬(vec.length = 2 * i' + 1 ∧ tmp < val vec (2 * i')) := by
  have hPos := h.pos
  have hInside := h.inside
  rw [IsHeap, List.length_set, h.length, val_set (by rw [h.length]; exact hInside),
    h.hole.fill_iff hPos hInside, and_iff_right h.above]
  constructor
  · rintro hBelow ⟨hOnly, hLess⟩
    have hUp := hBelow (2 * i') (by omega) (by omega) (by omega)
    rw [h.below _ (by omega)] at hUp
    omega
  · intro hNot j hj hLess hParent
    by_cases hTwo : 2 * i' + 1 < vec.length
    · obtain ⟨hLeft, hRight⟩ := h.done hTwo
      obtain rfl | rfl : j = 2 * i' ∨ j = 2 * i' + 1 := by omega
      · exact hLeft
      · exact hRight
    · obtain rfl : j = 2 * i' := by omega
      rw [h.below _ (by omega)]
      by_contra hGreater
      exact hNot ⟨by omega, by omega⟩

/-! ### Deletion -/

/-- The first element is replaced by the last. -/
theorem deleteFix_eq {mid : List Int} {b : Int} (hHole : Hole (val (-1 :: b :: mid)) (mid.length + 2) 1)
    (hDeep : ¬TooDeep (val (-1 :: b :: mid)) (mid.length + 2) b 1) :
    ∃ vec, deleteFix (-1 :: b :: mid) = some vec ∧ vec.length = mid.length + 2 ∧ val vec 0 = -1 ∧
      vec.Perm (-1 :: b :: mid) ∧ (IsHeap vec ↔ ¬∃ q, mid.length + 2 = 2 * q + 1 ∧
        b < val (-1 :: b :: mid) (2 * q) ∧ Leads (val (-1 :: b :: mid)) 1 q) := by
  generalize hVec : -1 :: b :: mid = vec at *
  have hLength : vec.length = mid.length + 2 := by
    rw [← hVec]
    rfl
  have hFirst : val vec 0 = -1 ∧ val vec 1 = b := by
    rw [← hVec]
    exact ⟨rfl, rfl⟩
  rw [← hLength] at hHole hDeep ⊢
  obtain ⟨-, vec', i', hSink, hSunk⟩ := (sink_eq b (Nat.le_refl 1) (by decide) (by omega) hHole
    (by omega)).resolve_left fun hNone => hDeep hNone.1
  have hInside : i' < vec'.length := by
    rw [hSunk.length]
    exact hSunk.inside
  have hPos := hSunk.pos
  have hSame : vec.set 1 b = vec := by
    rw [← hVec]
    rfl
  have hMissed : (vec.length = 2 * i' + 1 ∧ b < val vec (2 * i')) ↔
      ∃ q, vec.length = 2 * q + 1 ∧ b < val vec (2 * q) ∧ Leads (val vec) 1 q := by
    constructor
    · rintro ⟨hOnly, hLess⟩
      exact ⟨i', hOnly, hLess, hSunk.way⟩
    · rintro ⟨q, hOnly, hLess, hLeads⟩
      obtain rfl := (hSunk.ends_iff (Nat.le_refl 1) hOnly hLess).mpr hLeads
      exact ⟨hOnly, hLess⟩
  rw [← hMissed, ← hSunk.isHeap_iff]
  refine ⟨vec'.set i' b, ?_, by rw [List.length_set, hSunk.length], ?_, ?_, Iff.rfl⟩
  · rw [deleteFix]
    by_cases hShort : vec.length < 3
    · -- the loop has done nothing
      rw [sink, if_neg (by omega), if_neg (by omega)] at hSink
      obtain ⟨rfl, rfl⟩ := Prod.mk.inj (Option.some.inj hSink)
      rw [if_pos hShort, hSame]
    · rw [if_neg hShort, getElem?_val (by omega), hFirst.2]
      simp only [Option.bind_eq_bind, Option.bind_some, hSink, if_pos hInside]
  · rw [val_set hInside, Function.update_of_ne (by omega), hSunk.first, hFirst.1]
  · have hPerm := hSunk.perm
    rwa [hSame] at hPerm

/-- Where the element sinks too deep, the loop has no next place. -/
theorem deleteFix_none {mid : List Int} {b : Int} (hHole : Hole (val (-1 :: b :: mid)) (mid.length + 2) 1)
    (hDeep : TooDeep (val (-1 :: b :: mid)) (mid.length + 2) b 1) : deleteFix (-1 :: b :: mid) = none := by
  have hLong : 2 < mid.length + 2 := by
    obtain ⟨q, hFar, hTwo, -⟩ := hDeep
    omega
  generalize hVec : -1 :: b :: mid = vec at *
  have hLength : vec.length = mid.length + 2 := by
    rw [← hVec]
    rfl
  have hFirst : val vec 1 = b := by
    rw [← hVec]
    rfl
  rw [← hLength] at hHole hDeep
  obtain ⟨-, hSink⟩ := (sink_eq b (Nat.le_refl 1) (by decide) (by omega) hHole
    (by omega)).resolve_right fun hSome => hSome.1 hDeep
  rw [deleteFix, if_neg (by omega), getElem?_val (by omega), hFirst]
  simp only [Option.bind_eq_bind, Option.bind_some, hSink, Option.bind_none]

/-- An odd number of elements, and a way of greater children to the parent of the last but one, its only
child once the last is gone, which is greater than the last. -/
def MissesChild (vec : List Int) : Prop :=
  ∃ q, 1 ≤ q ∧ vec.length = 2 * q + 2 ∧ val vec (2 * q + 1) < val vec (2 * q) ∧ Leads (val vec) 1 q

/-- A way of greater children, all greater than the last element and none beside it, to a place whose
children have no `int`. -/
def SinksTooDeep (vec : List Int) : Prop :=
  TooDeep (val vec) (vec.length - 1) (val vec (vec.length - 1)) 1

/-- The greatest element is gone, once, and the rest is in heap order behind the sentinel; an empty heap
stays empty. -/
def DeletesGreatest (h : MaxHeap) : Prop :=
  ∃ h', h.delete = some h' ∧ h'.Wf ∧ IsHeap h'.vec ∧ (h.elements = [] → h'.elements = []) ∧
    (h.elements ≠ [] → ∃ x, IsGreatest {y | y ∈ h.elements} x ∧ h.elements.Perm (x :: h'.elements))

theorem val_middle {a b : Int} {mid : List Int} {j : Nat} (hj : 2 ≤ j) (hLess : j < mid.length + 2) :
    val (-1 :: b :: mid) j = val (-1 :: a :: (mid ++ [b])) j := by
  obtain ⟨j, rfl⟩ : ∃ m, j = m + 2 := ⟨j - 2, by omega⟩
  show mid.getD j 0 = (mid ++ [b]).getD j 0
  rw [List.getD_append _ _ _ _ (by omega)]

theorem val_last (a b : Int) (mid : List Int) : val (-1 :: a :: (mid ++ [b])) (mid.length + 2) = b := by
  apply val_eq
  show (mid ++ [b])[mid.length]? = some b
  exact List.getElem?_concat_length

/-- The first element of a heap is the greatest. -/
theorem isGreatest_first {h : MaxHeap} (hWf : h.Wf) (hHeap : IsHeap h.vec) (hSome : 1 < h.vec.length) :
    IsGreatest {y | y ∈ h.elements} (val h.vec 1) := by
  refine ⟨hWf.mem_elements.mpr ⟨1, Nat.le_refl 1, hSome, rfl⟩, fun y hy => ?_⟩
  obtain ⟨i, hi, hLess, rfl⟩ := hWf.mem_elements.mp hy
  exact hHeap.le_first hi hLess

theorem delete_one (a : Int) : DeletesGreatest ⟨[-1, a]⟩ := by
  refine ⟨⟨[-1]⟩, rfl, rfl, fun j hj hLess => ?_, nofun, fun _ => ⟨a, ⟨List.mem_singleton_self a, ?_⟩, .refl _⟩⟩
  · have hOne : j < 1 := hLess
    omega
  · intro y hy
    exact (List.mem_singleton.mp hy).le

section

variable {a b : Int} {mid : List Int} {q : Nat}

theorem length_ends (a b : Int) (mid : List Int) : (-1 :: a :: (mid ++ [b])).length = mid.length + 3 := by
  simp only [List.length_cons, List.length_append, List.length_nil]

theorem delete_ends (a b : Int) (mid : List Int) :
    delete ⟨-1 :: a :: (mid ++ [b])⟩ = (deleteFix (-1 :: b :: mid)).map MaxHeap.mk := by
  have hLength := length_ends a b mid
  have hLast : (-1 :: a :: (mid ++ [b])).getLast? = some b := by
    rw [← List.cons_append, ← List.cons_append, List.getLast?_concat]
  have hRest : ((-1 :: a :: (mid ++ [b])).set 1 b).dropLast = -1 :: b :: mid := by
    show (-1 :: b :: (mid ++ [b])).dropLast = _
    rw [← List.cons_append, ← List.cons_append, List.dropLast_concat]
  rw [delete, if_neg (by dsimp only; omega)]
  simp only [hLast, Option.bind_eq_bind, Option.bind_some]
  rw [if_pos (by omega), hRest]

/-- With the last element in the first place, only this place may be out of order. -/
theorem hole_middle (hHeap : IsHeap (-1 :: a :: (mid ++ [b]))) :
    Hole (val (-1 :: b :: mid)) (mid.length + 2) 1 := by
  have hLength := length_ends a b mid
  refine ⟨fun j hj hLess hNe hParent => ?_, fun hTwo => absurd hTwo (by omega)⟩
  rw [val_middle (a := a) hj hLess, val_middle (a := a) (b := b) (by omega) (by omega)]
  exact hHeap j hj (by omega)

/-- A way that does not look at the last element is the same with this in the first place. -/
theorem leads_middle (hTwo : 2 * (q / 2) + 1 < mid.length + 2) :
    Leads (val (-1 :: a :: (mid ++ [b]))) 1 q ↔ Leads (val (-1 :: b :: mid)) 1 q := by
  constructor
  · exact fun hWay => hWay.congr (Nat.le_refl 1) fun j hj hLess => val_middle hj (by omega)
  · exact fun hWay => hWay.congr (Nat.le_refl 1) fun j hj hLess => (val_middle hj (by omega)).symm

theorem sinksTooDeep_iff : SinksTooDeep (-1 :: a :: (mid ++ [b])) ↔
    TooDeep (val (-1 :: b :: mid)) (mid.length + 2) b 1 := by
  have hLength := length_ends a b mid
  have hCount : (-1 :: a :: (mid ++ [b])).length - 1 = mid.length + 2 := by omega
  rw [SinksTooDeep, hCount, val_last]
  constructor
  · rintro ⟨q, hFar, hTwo, hLess, hLeads⟩
    rw [← val_middle (b := b) (by omega) (by omega)] at hLess
    exact ⟨q, hFar, hTwo, hLess, (leads_middle hTwo).mp hLeads⟩
  · rintro ⟨q, hFar, hTwo, hLess, hLeads⟩
    rw [val_middle (a := a) (by omega) (by omega)] at hLess
    exact ⟨q, hFar, hTwo, hLess, (leads_middle hTwo).mpr hLeads⟩

theorem missesChild_iff : MissesChild (-1 :: a :: (mid ++ [b])) ↔ ∃ q, mid.length + 2 = 2 * q + 1 ∧
    b < val (-1 :: b :: mid) (2 * q) ∧ Leads (val (-1 :: b :: mid)) 1 q := by
  have hLength := length_ends a b mid
  constructor
  · rintro ⟨q, hq, hOdd, hLess, hLeads⟩
    have hPlace : 2 * q + 1 = mid.length + 2 := by omega
    rw [hPlace, val_last, ← val_middle (b := b) (by omega) (by omega)] at hLess
    exact ⟨q, by omega, hLess, (leads_middle (by omega)).mp hLeads⟩
  · rintro ⟨q, hOdd, hLess, hLeads⟩
    refine ⟨q, by omega, by omega, ?_, (leads_middle (by omega)).mpr hLeads⟩
    rw [← hOdd, val_last, ← val_middle (b := b) (by omega) (by omega)]
    exact hLess

theorem delete_more (hHeap : IsHeap (-1 :: a :: (mid ++ [b]))) :
    DeletesGreatest ⟨-1 :: a :: (mid ++ [b])⟩ ↔
      ¬MissesChild (-1 :: a :: (mid ++ [b])) ∧ ¬SinksTooDeep (-1 :: a :: (mid ++ [b])) := by
  have hLength := length_ends a b mid
  have hDelete := delete_ends a b mid
  rw [sinksTooDeep_iff, missesChild_iff]
  by_cases hFar : TooDeep (val (-1 :: b :: mid)) (mid.length + 2) b 1
  · rw [deleteFix_none (hole_middle hHeap) hFar] at hDelete
    refine iff_of_false ?_ fun hBoth => hBoth.2 hFar
    rintro ⟨h', hSome, -⟩
    rw [hDelete] at hSome
    cases hSome
  obtain ⟨vec, hFix, hSize, hSentinel, hPerm, hIff⟩ := deleteFix_eq (hole_middle hHeap) hFar
  rw [hFix, Option.map_some] at hDelete
  have hWf : Wf ⟨-1 :: a :: (mid ++ [b])⟩ := rfl
  have hWf' : Wf ⟨vec⟩ := by
    rw [Wf, getElem?_val (by dsimp only; omega), hSentinel]
  have hElements : (elements ⟨vec⟩).Perm (b :: mid) := by
    have hBoth : vec.Perm ((-1 :: b :: mid) ++ []) := by
      rw [List.append_nil]
      exact hPerm
    have hAll := (show Wf ⟨-1 :: b :: mid⟩ from rfl).perm_elements hWf' [] hBoth
    rwa [List.append_nil] at hAll
  rw [and_iff_left hFar, ← hIff]
  constructor
  · rintro ⟨h', hSome, -, hOrder, -⟩
    obtain rfl : ⟨vec⟩ = h' := Option.some.inj (hDelete.symm.trans hSome)
    exact hOrder
  · intro hOrder
    refine ⟨⟨vec⟩, hDelete, hWf', hOrder, nofun, fun _ => ⟨a, ?_, ?_⟩⟩
    · exact isGreatest_first hWf hHeap (by dsimp only; omega)
    · exact (List.perm_append_singleton b mid).cons a |>.trans (hElements.symm.cons a)

end

/-- **Deletion** does what it is for exactly if the heap is not empty, no greater only child is passed
over, and the last element does not sink to a place whose children have no `int`. -/
theorem delete_iff {h : MaxHeap} (hWf : h.Wf) (hHeap : IsHeap h.vec) :
    h.DeletesGreatest ↔ h.elements ≠ [] ∧ ¬MissesChild h.vec ∧ ¬SinksTooDeep h.vec := by
  have hVec := hWf.vec_eq
  obtain ⟨vec⟩ := h
  generalize hElements : elements ⟨vec⟩ = xs at *
  obtain rfl : vec = -1 :: xs := hVec
  rcases xs with _ | ⟨a, xs⟩
  · -- there is no first place to write to
    refine iff_of_false ?_ fun hBoth => hBoth.1 rfl
    rintro ⟨h', hDelete, -⟩
    cases hDelete
  rw [and_iff_right (List.cons_ne_nil a xs)]
  rcases List.eq_nil_or_concat xs with rfl | ⟨mid, b, rfl⟩
  · refine iff_of_true (delete_one a) ⟨?_, ?_⟩
    · rintro ⟨q, hq, hLength, -⟩
      rw [List.length_cons, List.length_singleton] at hLength
      omega
    · rintro ⟨q, hFar, hTwo, -⟩
      rw [List.length_cons, List.length_singleton] at hTwo
      omega
  · rw [List.concat_eq_append] at hHeap ⊢
    exact delete_more hHeap

/-- The 4 sinks below the 9 and the 8. -/
theorem delete_iff_five : DeletesGreatest ⟨[-1, 10, 9, 5, 8, 7, 4]⟩ := by
  have hHeap : IsHeap [-1, 10, 9, 5, 8, 7, 4] := by
    intro j hj hLess
    obtain rfl | rfl | rfl | rfl | rfl : j = 2 ∨ j = 3 ∨ j = 4 ∨ j = 5 ∨ j = 6 := by
      have hSeven : j < 7 := hLess
      omega
    all_goals decide
  refine (@delete_iff ⟨[-1, 10, 9, 5, 8, 7, 4]⟩ rfl hHeap).mpr ⟨by decide, ?_, ?_⟩
  · rintro ⟨q, hq, hLength, -⟩
    have hSeven : 7 = 2 * q + 2 := hLength
    omega
  · rintro ⟨q, hFar, hTwo, -⟩
    have hSix : 2 * (q / 2) + 1 < 6 := hTwo
    omega

/-- The 5 is put above the 9. -/
theorem delete_breaks : ¬∀ h : MaxHeap, h.Wf → IsHeap h.vec → h.DeletesGreatest := by
  intro hKeeps
  have hHeap : IsHeap [-1, 10, 9, 5] := by
    intro j hj hLess
    obtain rfl | rfl : j = 2 ∨ j = 3 := by
      have hFour : j < 4 := hLess
      omega
    · decide
    · decide
  have hDeleted : delete ⟨[-1, 10, 9, 5]⟩ = some ⟨[-1, 5, 9]⟩ := by
    simp [delete, deleteFix, sink]
  obtain ⟨h', hSome, -, hOrder, -⟩ := hKeeps ⟨[-1, 10, 9, 5]⟩ rfl hHeap
  obtain rfl : ⟨[-1, 5, 9]⟩ = h' := Option.some.inj (hDeleted.symm.trans hSome)
  exact absurd (hOrder 2 (by decide) (by decide)) (by decide)

end DemoCode.MaxHeap
