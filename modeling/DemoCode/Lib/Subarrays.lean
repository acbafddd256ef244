import Mathlib.Algebra.BigOperators.Group.List.Basic
import Mathlib.Algebra.Group.Pointwise.Set.Basic
import Mathlib.Algebra.Order.Group.Defs
import Mathlib.Data.List.Infix
import Mathlib.Order.Bounds.Basic
import Mathlib.Order.Bounds.Image
import Mathlib.Tactic.Abel

/-! The sums of the parts of a list: of its prefixes, its suffixes and its contiguous parts, none of
them empty, and the greatest of them. -/

namespace Subarrays

open scoped Pointwise

variable {α : Type*}

section

variable [AddMonoid α] {a x : α} {xs ys : List α}

def prefixSums (xs : List α) : Set α := {x | ∃ p, p ≠ [] ∧ p <+: xs ∧ p.sum = x}

def suffixSums (xs : List α) : Set α := {x | ∃ p, p ≠ [] ∧ p <:+ xs ∧ p.sum = x}

def sums (xs : List α) : Set α := {x | ∃ p, p ≠ [] ∧ p <:+: xs ∧ p.sum = x}

theorem suffixSums_subset (xs : List α) : suffixSums xs ⊆ sums xs := by
  rintro x ⟨p, hSome, hSuffix, rfl⟩
  exact ⟨p, hSome, hSuffix.isInfix, rfl⟩

/-- A prefix is the first element, or that and a prefix of the rest. -/
theorem prefixSums_cons (a : α) (xs : List α) :
    prefixSums (a :: xs) = insert a ((fun x => a + x) '' prefixSums xs) := by
  ext x
  constructor
  · rintro ⟨p, hSome, hPrefix, rfl⟩
    obtain ⟨p, rfl, hRest⟩ := (List.prefix_cons_iff.mp hPrefix).resolve_left hSome
    rw [List.sum_cons]
    cases p with
    | nil => exact .inl (by rw [List.sum_nil, add_zero])
    | cons b p => exact .inr ⟨_, ⟨b :: p, List.cons_ne_nil b p, hRest, rfl⟩, rfl⟩
  · rintro (rfl | ⟨y, ⟨p, -, hPrefix, rfl⟩, rfl⟩)
    · exact ⟨[x], List.cons_ne_nil x [], List.cons_prefix_cons.mpr ⟨rfl, List.nil_prefix⟩, List.sum_singleton⟩
    · exact ⟨a :: p, List.cons_ne_nil a p, List.cons_prefix_cons.mpr ⟨rfl, hPrefix⟩, List.sum_cons⟩

/-- A suffix is the last element, or a suffix of the rest and that. -/
theorem suffixSums_concat (xs : List α) (a : α) :
    suffixSums (xs ++ [a]) = insert a ((fun x => x + a) '' suffixSums xs) := by
  ext x
  constructor
  · rintro ⟨p, hSome, hSuffix, rfl⟩
    obtain ⟨q, rfl, hRest⟩ := (List.suffix_concat_iff.mp hSuffix).resolve_left hSome
    rw [List.sum_append, List.sum_singleton]
    cases q with
    | nil => exact .inl (by rw [List.sum_nil, zero_add])
    | cons b q => exact .inr ⟨_, ⟨b :: q, List.cons_ne_nil b q, hRest, rfl⟩, rfl⟩
  · rintro (rfl | ⟨y, ⟨p, -, hSuffix, rfl⟩, rfl⟩)
    · exact ⟨[x], List.cons_ne_nil x [], List.suffix_append xs [x], List.sum_singleton⟩
    · refine ⟨p ++ [a], by simp, ?_, by rw [List.sum_append, List.sum_singleton]⟩
      obtain ⟨q, rfl⟩ := hSuffix
      exact ⟨q, (List.append_assoc _ _ _).symm⟩

/-- A part of two lists is a part of one of them, or crosses from the first to the second. -/
theorem sums_append (xs ys : List α) :
    sums (xs ++ ys) = sums xs ∪ sums ys ∪ (suffixSums xs + prefixSums ys) := by
  ext x
  constructor
  · rintro ⟨p, hSome, hInfix, rfl⟩
    rcases List.infix_append_iff.mp hInfix with hLeft | hRight | ⟨s, t, rfl, hSuffix, hPrefix⟩
    · exact .inl (.inl ⟨p, hSome, hLeft, rfl⟩)
    · exact .inl (.inr ⟨p, hSome, hRight, rfl⟩)
    · cases s with
      | nil => exact .inl (.inr ⟨t, hSome, hPrefix.isInfix, rfl⟩)
      | cons b s =>
        cases t with
        | nil =>
          rw [List.append_nil]
          exact .inl (.inl ⟨b :: s, List.cons_ne_nil b s, hSuffix.isInfix, rfl⟩)
        | cons c t =>
          rw [List.sum_append]
          exact .inr (Set.add_mem_add ⟨b :: s, List.cons_ne_nil b s, hSuffix, rfl⟩
            ⟨c :: t, List.cons_ne_nil c t, hPrefix, rfl⟩)
  · rintro ((⟨p, hSome, hInfix, rfl⟩ | ⟨p, hSome, hInfix, rfl⟩) | hCross)
    · exact ⟨p, hSome, hInfix.trans (List.prefix_append xs ys).isInfix, rfl⟩
    · exact ⟨p, hSome, hInfix.trans (List.suffix_append xs ys).isInfix, rfl⟩
    · obtain ⟨_, ⟨s, hSome, ⟨s', rfl⟩, rfl⟩, _, ⟨t, -, ⟨t', rfl⟩, rfl⟩, rfl⟩ := hCross
      refine ⟨s ++ t, by simp [hSome], ⟨s', t', ?_⟩, List.sum_append⟩
      simp only [List.append_assoc]

/-- A part of a list with another element ends with it, or is a part of the list. -/
theorem sums_concat (xs : List α) (a : α) : sums (xs ++ [a]) = sums xs ∪ suffixSums (xs ++ [a]) := by
  ext x
  constructor
  · rintro ⟨p, hSome, hInfix, rfl⟩
    rcases List.infix_concat_iff.mp hInfix with hSuffix | hOld
    · exact .inr ⟨p, hSome, hSuffix, rfl⟩
    · exact .inl ⟨p, hSome, hOld, rfl⟩
  · rintro (⟨p, hSome, hInfix, rfl⟩ | hEnd)
    · exact ⟨p, hSome, hInfix.trans (List.prefix_append xs [a]).isInfix, rfl⟩
    · exact suffixSums_subset _ hEnd

/-- A part of a list with another element before it begins with that, or is a part of the list. -/
theorem sums_cons (a : α) (xs : List α) : sums (a :: xs) = prefixSums (a :: xs) ∪ sums xs := by
  ext x
  constructor
  · rintro ⟨p, hSome, hInfix, rfl⟩
    rcases List.infix_cons_iff.mp hInfix with hPrefix | hOld
    · exact .inl ⟨p, hSome, hPrefix, rfl⟩
    · exact .inr ⟨p, hSome, hOld, rfl⟩
  · rintro (⟨p, hSome, hPrefix, rfl⟩ | ⟨p, hSome, hOld, rfl⟩)
    · exact ⟨p, hSome, hPrefix.isInfix, rfl⟩
    · exact ⟨p, hSome, hOld.trans (List.suffix_cons a xs).isInfix, rfl⟩

theorem sums_nil : sums ([] : List α) = ∅ := by
  apply Set.eq_empty_iff_forall_notMem.mpr
  rintro x ⟨p, hSome, hInfix, -⟩
  exact hSome (List.infix_nil.mp hInfix)

theorem prefixSums_nil : prefixSums ([] : List α) = ∅ := by
  apply Set.eq_empty_iff_forall_notMem.mpr
  rintro x ⟨p, hSome, hPrefix, -⟩
  exact hSome (List.prefix_nil.mp hPrefix)

theorem suffixSums_singleton (a : α) : suffixSums [a] = {a} := by
  have hConcat := suffixSums_concat [] a
  have hNone : suffixSums ([] : List α) = ∅ := by
    apply Set.eq_empty_iff_forall_notMem.mpr
    rintro x ⟨p, hSome, hSuffix, -⟩
    exact hSome (List.suffix_nil.mp hSuffix)
  rw [hNone, Set.image_empty, insert_empty_eq] at hConcat
  exact hConcat

theorem sums_singleton (a : α) : sums [a] = {a} := by
  have hConcat := sums_concat [] a
  rw [sums_nil, Set.empty_union, List.nil_append, suffixSums_singleton] at hConcat
  exact hConcat

end

theorem prefixSums_reverse [AddCommMonoid α] (xs : List α) : prefixSums xs.reverse = suffixSums xs := by
  ext x
  constructor
  · rintro ⟨p, hSome, hPrefix, rfl⟩
    refine ⟨p.reverse, by simpa using hSome, ?_, List.sum_reverse p⟩
    exact List.reverse_prefix.mp (by rwa [List.reverse_reverse])
  · rintro ⟨p, hSome, hSuffix, rfl⟩
    exact ⟨p.reverse, by simpa using hSome, List.reverse_prefix.mpr hSuffix, List.sum_reverse p⟩

/-! ### The greatest sums -/

theorem isGreatest_insert_max [LinearOrder α] {a b v : α} {s : Set α} (h : IsGreatest (insert (max a b) s) v) :
    IsGreatest (insert a (insert b s)) v := by
  have hMax : ∀ x ∈ insert (max a b) s, x ≤ v := fun x hIn => h.2 hIn
  have hFirst := hMax _ (Set.mem_insert _ s)
  constructor
  · rcases h.1 with hEq | hOld
    · rcases max_choice a b with hLeft | hRight
      · exact .inl (hEq.trans hLeft)
      · exact .inr (.inl (hEq.trans hRight))
    · exact .inr (.inr hOld)
  · rintro x (rfl | rfl | hOld)
    · exact (le_max_left x b).trans hFirst
    · exact (le_max_right a x).trans hFirst
    · exact hMax x (.inr hOld)

theorem isGreatest_union_of_insert [LinearOrder α] {v w : α} {s t : Set α} (h : IsGreatest s w)
    (hMore : IsGreatest (insert w t) v) : IsGreatest (s ∪ t) v := by
  have hLe : w ≤ v := hMore.2 (Set.mem_insert w t)
  constructor
  · rcases hMore.1 with rfl | hIn
    · exact .inl h.1
    · exact .inr hIn
  · rintro x (hOld | hNew)
    · exact (h.2 hOld).trans hLe
    · exact hMore.2 (.inr hNew)

theorem isGreatest_sums_concat [AddMonoid α] [LinearOrder α] {a b v : α} {xs : List α}
    (h : IsGreatest (sums xs) b) (hEnd : IsGreatest (suffixSums (xs ++ [a])) v) :
    IsGreatest (sums (xs ++ [a])) (max b v) := by
  rw [sums_concat]
  exact h.union hEnd

section

variable [AddCommGroup α] [LinearOrder α] {a b l r m : α} {xs ys : List α}

/-- The greatest of `best` and what a sum comes to when the elements are added to it one by one. -/
def peak (sum best : α) : List α → α
  | [] => best
  | x :: xs => peak (sum + x) (max best (sum + x)) xs

theorem isGreatest_peak (sum best : α) (xs : List α) :
    IsGreatest (insert best ((fun x => sum + x) '' prefixSums xs)) (peak sum best xs) := by
  induction xs generalizing sum best with
  | nil =>
    rw [prefixSums_nil, Set.image_empty, insert_empty_eq]
    exact isGreatest_singleton
  | cons x xs ih =>
    have hImage : (fun y => sum + y) '' prefixSums (x :: xs) =
        insert (sum + x) ((fun y => sum + x + y) '' prefixSums xs) := by
      rw [prefixSums_cons, Set.image_insert_eq, Set.image_image]
      simp only [add_assoc]
    rw [hImage]
    exact isGreatest_insert_max (ih (sum + x) (max best (sum + x)))

/-- Elements are added to the first one. -/
theorem isGreatest_prefixSums (m : α) (xs : List α) : IsGreatest (prefixSums (m :: xs)) (peak m m xs) := by
  rw [prefixSums_cons]
  exact isGreatest_peak m m xs

/-- Elements are added to the last one, from behind. -/
theorem isGreatest_suffixSums (xs : List α) (m : α) :
    IsGreatest (suffixSums (xs ++ [m])) (peak m m xs.reverse) := by
  rw [← prefixSums_reverse, List.reverse_append]
  exact isGreatest_prefixSums m xs.reverse

variable [IsOrderedAddMonoid α]

theorem sum_neg {p : List α} (hSome : p ≠ []) (h : ∀ x ∈ p, x < 0) : p.sum < 0 := by
  induction p with
  | nil => exact absurd rfl hSome
  | cons x p ih =>
    obtain ⟨hx, hRest⟩ := List.forall_mem_cons.mp h
    rw [List.sum_cons]
    by_cases hLast : p = []
    · rwa [hLast, List.sum_nil, add_zero]
    · exact add_neg hx (ih hLast hRest)

/-- A part has a sum that is not negative exactly if an element is not. -/
theorem exists_nonneg_iff : (∃ x ∈ sums xs, 0 ≤ x) ↔ ∃ x ∈ xs, 0 ≤ x := by
  constructor
  · rintro ⟨_, ⟨p, hSome, hInfix, rfl⟩, hNonneg⟩
    by_contra hNone
    have hNeg : ∀ x ∈ p, x < 0 := fun x hx => not_le.mp fun hLe => hNone ⟨x, hInfix.subset hx, hLe⟩
    exact absurd hNonneg (not_le.mpr (sum_neg hSome hNeg))
  · rintro ⟨x, hx, hNonneg⟩
    obtain ⟨s, t, rfl⟩ := List.append_of_mem hx
    refine ⟨x, ⟨[x], List.cons_ne_nil x [], ⟨s, t, ?_⟩, List.sum_singleton⟩, hNonneg⟩
    rw [List.append_assoc, List.singleton_append]

theorem isGreatest_suffixSums_concat (h : IsGreatest (suffixSums xs) b) (a : α) :
    IsGreatest (suffixSums (xs ++ [a])) (max a (b + a)) := by
  rw [suffixSums_concat]
  have hMono : Monotone fun x => x + a := fun x y hLe => add_le_add_left hLe a
  exact (hMono.map_isGreatest h).insert a

/-- **The crossing part**: the greatest sum of a part of two lists is that of one of them, or that of a
part around the last element of the first list. -/
theorem isGreatest_sums_append (hLeft : IsGreatest (sums (xs ++ [m])) a) (hRight : IsGreatest (sums ys) b)
    (hSuffix : IsGreatest (suffixSums (xs ++ [m])) l) (hPrefix : IsGreatest (prefixSums (m :: ys)) r) :
    IsGreatest (sums (xs ++ [m] ++ ys)) (max (max a b) (l + r - m)) := by
  have hAround : l + r - m ∈ sums (xs ++ [m] ++ ys) := by
    obtain ⟨s, hSome, hs, rfl⟩ := hSuffix.1
    obtain ⟨t, hSomeT, ht, rfl⟩ := hPrefix.1
    obtain ⟨s, rfl, ⟨xs', rfl⟩⟩ := (List.suffix_concat_iff.mp hs).resolve_left hSome
    obtain ⟨t, rfl, ⟨ys', rfl⟩⟩ := (List.prefix_cons_iff.mp ht).resolve_left hSomeT
    refine ⟨s ++ [m] ++ t, by simp, ⟨xs', ys', by simp only [List.append_assoc]⟩, ?_⟩
    rw [List.sum_append, List.sum_append, List.sum_singleton, List.sum_cons]
    abel
  have hCross : ∀ x ∈ suffixSums (xs ++ [m]) + prefixSums ys, x ≤ l + r - m := by
    rintro _ ⟨x, hx, y, hy, rfl⟩
    have hy' : m + y ∈ prefixSums (m :: ys) := by
      rw [prefixSums_cons]
      exact .inr ⟨y, hy, rfl⟩
    have hSum := add_le_add (hSuffix.2 hx) (hPrefix.2 hy')
    rw [le_sub_iff_add_le]
    calc x + y + m = x + (m + y) := by abel
      _ ≤ l + r := hSum
  rw [sums_append] at hAround ⊢
  constructor
  · rcases max_choice (max a b) (l + r - m) with hEq | hEq
    · rw [hEq]
      exact .inl (hLeft.union hRight).1
    · rw [hEq]
      exact hAround
  · rintro x (hSide | hx)
    · exact ((hLeft.union hRight).2 hSide).trans (le_max_left _ _)
    · exact (hCross x hx).trans (le_max_right _ _)

end

end Subarrays
