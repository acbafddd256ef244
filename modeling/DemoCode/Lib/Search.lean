import Mathlib.Data.List.Infix

/-! The first place at which a pattern stands in a list. -/

namespace Search

variable {α : Type*} [DecidableEq α]

def find (pat : List α) : List α → Option Nat
  | [] => if pat = [] then some 0 else none
  | b :: bs => if pat <+: b :: bs then some 0 else (find pat bs).map (· + 1)

def contains (pat s : List α) : Bool := (find pat s).isSome

/-- The pattern stands at the place that is found. -/
theorem find_stands {pat s : List α} {i : Nat} (h : find pat s = some i) : pat <+: s.drop i := by
  induction s generalizing i with
  | nil =>
    rw [find] at h
    split at h
    · rename_i hEmpty
      rw [hEmpty]
      exact List.nil_prefix
    · cases h
  | cons b bs ih =>
    rw [find] at h
    split at h
    · rename_i hHere
      cases h
      exact hHere
    · obtain ⟨j, hRest, rfl⟩ := Option.map_eq_some_iff.mp h
      exact ih hRest

/-- A place at which the pattern stands is not before the one that is found. -/
theorem find_le {pat s : List α} {j : Nat} (hPat : pat ≠ []) (h : pat <+: s.drop j) :
    ∃ i, i ≤ j ∧ find pat s = some i := by
  induction s generalizing j with
  | nil =>
    rw [List.drop_nil, List.prefix_nil] at h
    exact absurd h hPat
  | cons b bs ih =>
    rw [find]
    by_cases hHere : pat <+: b :: bs
    · exact ⟨0, Nat.zero_le j, if_pos hHere⟩
    · rcases j with _ | j
      · exact absurd h hHere
      · obtain ⟨i, hLe, hFind⟩ := ih h
        refine ⟨i + 1, Nat.succ_le_succ hLe, ?_⟩
        rw [if_neg hHere, hFind]
        rfl

theorem find_length {pat s : List α} {i : Nat} (hPat : pat ≠ []) (h : find pat s = some i) :
    i + pat.length ≤ s.length := by
  have hLength := (find_stands h).length_le
  have hPos := List.length_pos_iff.mpr hPat
  rw [List.length_drop] at hLength
  omega

end Search
