import Mathlib.Data.List.Perm.Basic
import Mathlib.Data.List.Flatten
import Mathlib.Order.Lattice

/-! Stable sorts by a key, one after another: the last one decides, and those before it decide between
elements that it does not tell apart. -/

namespace StableSort

section

variable {α κ κ' κ'' : Type*} [LinearOrder κ] [LinearOrder κ'] [LinearOrder κ''] {key : α → κ}
  {digit : α → κ'} {both : α → κ''} {l m out : List α} {x y : α}

/-- The keys go up, and elements with one key stay as they were. -/
structure Stable (key : α → κ) (l out : List α) : Prop where
  le : out.Pairwise fun x y => key x ≤ key y
  filter : ∀ k, (out.filter fun x => key x = k) = l.filter fun x => key x = k

theorem sublist_of_filter (h : [x, y].Sublist out) (hxy : key x = key y)
    (hFilter : ∀ k, (out.filter fun x => key x = k) = m.filter fun x => key x = k) : [x, y].Sublist m := by
  have hSub := h.filter fun z => key z = key y
  rw [List.filter_eq_self.mpr (by simpa using hxy), hFilter] at hSub
  exact hSub.trans List.filter_sublist

theorem Stable.perm [DecidableEq α] (h : Stable key l out) : out.Perm l := by
  refine List.perm_iff_count.mpr fun x => ?_
  have hKey : ∀ s : List α, (s.filter fun y => key y = key x).count x = s.count x := fun s =>
    List.count_filter (by simp)
  rw [← hKey out, ← hKey l, h.filter]

/-- Nothing is done for a key that is the same everywhere. -/
theorem Stable.refl (h : ∀ x ∈ l, ∀ y ∈ l, key x = key y) : Stable key l l where
  le := List.pairwise_of_forall_mem_list fun x hx y hy => (h x hx y hy).le
  filter _ := rfl

theorem eq_iff_of_le (h : both x ≤ both y ↔ digit x < digit y ∨ digit x = digit y ∧ key x ≤ key y)
    (h' : both y ≤ both x ↔ digit y < digit x ∨ digit y = digit x ∧ key y ≤ key x) :
    both x = both y ↔ digit x = digit y ∧ key x = key y := by
  rw [le_antisymm_iff, h, h']
  constructor
  · rintro ⟨hLess | ⟨hEq, hLe⟩, hLess' | ⟨hEq', hLe'⟩⟩
    · exact absurd hLess' hLess.asymm
    · exact absurd hEq' hLess.ne'
    · exact absurd hEq hLess'.ne'
    · exact ⟨hEq, hLe.antisymm hLe'⟩
  · rintro ⟨hDigit, hKey⟩
    exact ⟨.inr ⟨hDigit, hKey.le⟩, .inr ⟨hDigit.symm, hKey.ge⟩⟩

/-- A sort by a digit behind one by a key. -/
theorem Stable.trans (h : Stable key l m) (h' : Stable digit m out)
    (hLe : ∀ x ∈ l, ∀ y ∈ l,
      both x ≤ both y ↔ digit x < digit y ∨ digit x = digit y ∧ key x ≤ key y) :
    Stable both l out := by
  classical
  have hMem : ∀ x ∈ out, x ∈ l := fun x hx => h.perm.mem_iff.mp (h'.perm.mem_iff.mp hx)
  constructor
  · rw [List.pairwise_iff_forall_sublist]
    intro x y hSub
    have hx : x ∈ out := hSub.subset (by simp)
    have hy : y ∈ out := hSub.subset (by simp)
    rw [hLe x (hMem x hx) y (hMem y hy)]
    rcases (List.pairwise_iff_forall_sublist.mp h'.le hSub).lt_or_eq with hLess | hEq
    · exact .inl hLess
    · exact .inr ⟨hEq, List.pairwise_iff_forall_sublist.mp h.le (sublist_of_filter hSub hEq h'.filter)⟩
  · intro k
    by_cases hAny : ∃ z ∈ l, both z = k
    · obtain ⟨z, hz, rfl⟩ := hAny
      -- both sorts keep the elements of one class
      have hBoth : ∀ s : List α, (∀ x ∈ s, x ∈ l) → (s.filter fun x => both x = both z) =
          s.filter fun x => decide (key x = key z) && decide (digit x = digit z) := by
        intro s hs
        refine List.filter_congr fun x hx => ?_
        rw [← Bool.decide_and, decide_eq_decide]
        exact (eq_iff_of_le (hLe x (hs x hx) z hz) (hLe z hz x (hs x hx))).trans and_comm
      rw [hBoth out hMem, hBoth l fun _ => id, ← List.filter_filter, ← List.filter_filter, h'.filter,
        List.filter_comm, h.filter, List.filter_comm]
    · have hNone : ∀ s : List α, (∀ x ∈ s, x ∈ l) → (s.filter fun x => both x = k) = [] := by
        intro s hs
        refine List.filter_eq_nil_iff.mpr fun x hx hEq => hAny ⟨x, hs x hx, by simpa using hEq⟩
      rw [hNone out hMem, hNone l fun _ => id]

/-- What holds of the elements in their new order. -/
theorem Stable.pairwise_iff {R : α → α → Prop} (h : Stable key l out) : out.Pairwise R ↔
    (∀ x ∈ l, ∀ y ∈ l, key x < key y → R x y) ∧ l.Pairwise fun x y => key x = key y → R x y := by
  classical
  have hMem : ∀ x, x ∈ out ↔ x ∈ l := fun x => h.perm.mem_iff
  constructor
  · intro hR
    constructor
    · have hThere : out.Pairwise fun x y => key x < key y → R x y := by
        refine hR.imp ?_
        intro x y hxy _
        exact hxy
      have hBack : out.Pairwise fun x y => key y < key x → R y x := by
        refine h.le.imp ?_
        intro x y hLe hLess
        exact absurd hLess hLe.not_gt
      intro x hx y hy
      exact hThere.forall_of_forall_of_flip (fun _ _ hLess => absurd hLess (lt_irrefl _)) hBack
        ((hMem x).mpr hx) ((hMem y).mpr hy)
    · rw [List.pairwise_iff_forall_sublist] at hR ⊢
      exact fun hSub hxy => hR (sublist_of_filter hSub hxy fun k => (h.filter k).symm)
  · rintro ⟨hLess, hEq⟩
    rw [List.pairwise_iff_forall_sublist]
    intro x y hSub
    rcases (List.pairwise_iff_forall_sublist.mp h.le hSub).lt_or_eq with hKey | hKey
    · exact hLess x ((hMem x).mp (hSub.subset (by simp))) y ((hMem y).mp (hSub.subset (by simp))) hKey
    · exact List.pairwise_iff_forall_sublist.mp hEq (sublist_of_filter hSub hKey h.filter) hKey

/-- The elements by their keys from 0 on. -/
def buckets (digit : α → ℕ) (bound : ℕ) (l : List α) : List α :=
  (List.range bound).flatMap fun d => l.filter fun x => digit x = d

section

variable {digit : α → ℕ} {bound d : ℕ}

theorem buckets_succ : buckets digit (bound + 1) l = buckets digit bound l ++ l.filter fun x => digit x = bound := by
  rw [buckets, List.range_succ, List.flatMap_append, List.flatMap_singleton, buckets]

theorem countP_lt_succ (digit : α → ℕ) (bound : ℕ) (l : List α) : l.countP (fun x => digit x < bound + 1) =
    l.countP (fun x => digit x < bound) + l.countP fun x => digit x = bound := by
  induction l with
  | nil => rfl
  | cons x l ih =>
    simp only [List.countP_cons, ih, decide_eq_true_eq]
    split_ifs <;> omega

theorem filter_buckets : ((buckets digit bound l).filter fun x => digit x = d) =
    if d < bound then l.filter fun x => digit x = d else [] := by
  induction bound with
  | zero => rfl
  | succ bound ih =>
    have hLast : ((l.filter fun x => digit x = bound).filter fun x => digit x = d) =
        if d = bound then l.filter fun x => digit x = d else [] := by
      rw [List.filter_filter]
      split_ifs with hEq
      · subst hEq
        simp
      · refine List.filter_eq_nil_iff.mpr fun x _ => ?_
        simp only [Bool.and_eq_true, decide_eq_true_eq]
        rintro ⟨rfl, hx⟩
        exact hEq hx
    rw [buckets_succ, List.filter_append, ih, hLast]
    by_cases hLess : d < bound
    · rw [if_pos hLess, if_pos (hLess.trans bound.lt_succ_self), if_neg hLess.ne, List.append_nil]
    · rw [if_neg hLess, List.nil_append]
      exact if_congr (by omega) rfl rfl

/-- **A bucket sort** is stable. -/
theorem stable_buckets (h : ∀ x ∈ l, digit x < bound) : Stable digit l (buckets digit bound l) where
  le := by
    rw [buckets, List.pairwise_flatMap]
    constructor
    · intro d _
      refine List.pairwise_of_forall_mem_list fun x hx y hy => ?_
      rw [of_decide_eq_true (List.mem_filter.mp hx).2, of_decide_eq_true (List.mem_filter.mp hy).2]
    · refine List.pairwise_lt_range.imp fun {d d'} hLess x hx y hy => ?_
      rw [of_decide_eq_true (List.mem_filter.mp hx).2, of_decide_eq_true (List.mem_filter.mp hy).2]
      exact hLess.le
  filter d := by
    rw [filter_buckets]
    split_ifs with hLess
    · rfl
    · refine (List.filter_eq_nil_iff.mpr fun x hx hEq => hLess ?_).symm
      rw [← of_decide_eq_true hEq]
      exact h x hx

end

end

end StableSort
