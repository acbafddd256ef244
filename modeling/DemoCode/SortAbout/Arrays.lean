import Mathlib.Algebra.Group.Int.Defs
import Mathlib.Data.List.Perm.Basic

/-! The arrays and the `int`s of the sorting programs.  An access outside an array is `none`, and so is an
operation whose result is no `int`. -/

namespace DemoCode.SortAbout

/-- It fits into an `int`. -/
def InInt (n : Int) : Prop := -2 ^ 31 ≤ n ∧ n < 2 ^ 31

instance (n : Int) : Decidable (InInt n) := inferInstanceAs (Decidable (_ ∧ _))

def toInt? (n : Int) : Option Int := if InInt n then some n else none

theorem toInt?_eq_some {n m : Int} : toInt? n = some m ↔ InInt n ∧ n = m := by
  rw [toInt?, Option.ite_none_right_eq_some, Option.some.injEq]

/-- `nums[i]`. -/
def load (nums : List Int) (i : Int) : Option Int := if 0 ≤ i then nums[i.toNat]? else none

/-- `nums[i] = x`. -/
def store (nums : List Int) (i x : Int) : Option (List Int) :=
  if 0 ≤ i ∧ i < nums.length then some (nums.set i.toNat x) else none

/-- The ascending permutation. -/
def Sorted (nums out : List Int) : Prop := out.Pairwise (· ≤ ·) ∧ out.Perm nums

theorem sorted_short {nums : List Int} (h : nums.length < 2) : Sorted nums nums := by
  refine ⟨?_, List.Perm.refl nums⟩
  rcases nums with _ | ⟨x, _ | ⟨y, nums⟩⟩
  · exact List.Pairwise.nil
  · exact List.pairwise_singleton _ x
  · exact absurd h (by simp)

/-! ### Ranges -/

/-- The elements from the one at `s` to the one at `e`. -/
def slice (nums : List Int) (s e : Int) : List Int := (nums.drop s.toNat).take (e - s + 1).toNat

/-- The range is sorted, and nothing outside it is changed. -/
structure SortsRange (nums out : List Int) (s e : Int) : Prop where
  sorted : Sorted (slice nums s e) (slice out s e)
  length : out.length = nums.length
  outside : ∀ i : ℕ, (i : Int) < s ∨ e < i → out[i]? = nums[i]?

section

variable {nums a b b' c : List Int} {s e x y : Int}

theorem load_append (hs : s = a.length) : load (a ++ x :: c) s = some x := by
  subst hs
  rw [load, if_pos (Int.natCast_nonneg _), Int.toNat_natCast, List.getElem?_append_right (Nat.le_refl _),
    Nat.sub_self]
  rfl

theorem store_append (hs : s = a.length) : store (a ++ x :: c) s y = some (a ++ y :: c) := by
  subst hs
  have hIn : (a.length : Int) < (a ++ x :: c).length := by
    rw [List.length_append, List.length_cons]
    omega
  rw [store, if_pos ⟨Int.natCast_nonneg _, hIn⟩, Int.toNat_natCast,
    List.set_append_right _ _ (Nat.le_refl _), Nat.sub_self]
  rfl

theorem slice_append (hs : s = a.length) (he : e + 1 = s + b.length) : slice (a ++ b ++ c) s e = b := by
  subst hs
  have hLength : (e - a.length + 1).toNat = b.length := by omega
  rw [slice, hLength, Int.toNat_natCast, List.append_assoc, List.drop_left, List.take_left]

theorem sortsRange_append (h : Sorted b b') (hs : s = a.length) (he : e + 1 = s + b.length) :
    SortsRange (a ++ b ++ c) (a ++ b' ++ c) s e := by
  have hLength := h.2.length_eq
  constructor
  · rwa [slice_append hs he, slice_append hs (hLength ▸ he)]
  · simp only [List.length_append, hLength]
  · intro i hOut
    rcases hOut with hLess | hLess
    · have hi : i < a.length := by omega
      rw [List.append_assoc, List.append_assoc, List.getElem?_append_left hi, List.getElem?_append_left hi]
    · have hi : (a ++ b).length ≤ i := by
        rw [List.length_append]
        omega
      have hi' : (a ++ b').length ≤ i := by
        rw [List.length_append, hLength, ← List.length_append]
        exact hi
      rw [List.getElem?_append_right hi, List.getElem?_append_right hi', List.length_append, List.length_append,
        hLength]

/-- A range of at most one element is sorted as it is. -/
theorem sortsRange_self (h : e ≤ s) : SortsRange nums nums s e := by
  have hShort : (slice nums s e).length < 2 := by
    rw [slice, List.length_take]
    omega
  exact ⟨sorted_short hShort, rfl, fun _ _ => rfl⟩

/-- An array around a range. -/
theorem exists_append (h : s ≤ e + 1) (hs : 0 ≤ s) (he : e < nums.length) :
    ∃ a b c, nums = a ++ b ++ c ∧ s = a.length ∧ e + 1 = s + b.length := by
  refine ⟨nums.take s.toNat, slice nums s e, nums.drop (e + 1).toNat, ?_, ?_, ?_⟩
  · have hDrop : nums.drop (e + 1).toNat = (nums.drop s.toNat).drop (e - s + 1).toNat := by
      rw [List.drop_drop]
      congr 1
      omega
    rw [hDrop, slice, List.append_assoc, List.take_append_drop, List.take_append_drop]
  · rw [List.length_take]
    omega
  · rw [slice, List.length_take, List.length_drop]
    omega

end

end DemoCode.SortAbout
