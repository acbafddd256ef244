import Mathlib.Algebra.BigOperators.Ring.Finset
import Mathlib.Algebra.Order.BigOperators.Group.Finset
import Mathlib.Data.Fintype.BigOperators

/-! Tallies: a number that each of finitely many parties has by the place where it is, added up over
all of them.  When one party moves, the tally changes by what that party had and has. -/

namespace Tally

variable {ι σ : Type*} [Fintype ι]

/-- The sum of `f` over the places of all parties. -/
def total (f : σ → ℕ) (place : ι → σ) : ℕ := ∑ i, f (place i)

variable {f g : σ → ℕ} {place : ι → σ} {i j : ι}

theorem le_total (f : σ → ℕ) (place : ι → σ) (i : ι) : f (place i) ≤ total f place :=
  Finset.single_le_sum (f := fun i => f (place i)) (fun _ _ => Nat.zero_le _) (Finset.mem_univ i)

theorem total_le_mul {k : ℕ} (h : ∀ p, f p ≤ k * g p) (place : ι → σ) :
    total f place ≤ k * total g place := by
  rw [total, total, Finset.mul_sum]
  exact Finset.sum_le_sum fun i _ => h (place i)

theorem total_le_card (h : ∀ p, f p ≤ 1) (place : ι → σ) : total f place ≤ Fintype.card ι := by
  calc total f place ≤ ∑ _i : ι, 1 := Finset.sum_le_sum fun i _ => h (place i)
    _ = Fintype.card ι := by simp

theorem total_eq_zero (h : ∀ i, f (place i) = 0) : total f place = 0 :=
  Finset.sum_eq_zero fun i _ => h i

theorem exists_of_total_pos (h : 0 < total f place) : ∃ i, 0 < f (place i) := by
  by_contra hNone
  refine h.ne' (total_eq_zero fun i => Nat.eq_zero_of_not_pos fun hPos => hNone ⟨i, hPos⟩)

variable [DecidableEq ι]

/-- One party moves. -/
theorem total_update (f : σ → ℕ) (place : ι → σ) (i : ι) (p : σ) :
    total f (Function.update place i p) + f (place i) = total f place + f p := by
  have hNew := Finset.add_sum_erase Finset.univ (fun j => f (Function.update place i p j))
    (Finset.mem_univ i)
  have hOld := Finset.add_sum_erase Finset.univ (fun j => f (place j)) (Finset.mem_univ i)
  have hRest : ∑ j ∈ Finset.univ.erase i, f (Function.update place i p j) =
      ∑ j ∈ Finset.univ.erase i, f (place j) := by
    refine Finset.sum_congr rfl fun j hj => ?_
    rw [Function.update_of_ne (Finset.ne_of_mem_erase hj)]
  simp only [Function.update_self] at hNew
  simp only [total]
  omega

/-- What two parties have. -/
theorem add_le_total (f : σ → ℕ) (place : ι → σ) (hij : i ≠ j) :
    f (place i) + f (place j) ≤ total f place := by
  have hAll := Finset.add_sum_erase Finset.univ (fun k => f (place k)) (Finset.mem_univ i)
  have hOther : f (place j) ≤ ∑ k ∈ Finset.univ.erase i, f (place k) :=
    Finset.single_le_sum (f := fun k => f (place k)) (fun _ _ => Nat.zero_le _)
      (Finset.mem_erase.mpr ⟨hij.symm, Finset.mem_univ j⟩)
  simp only [total]
  omega

/-- Where only one party has any of `f`, and `g` goes with `f`, that party has all of `g`. -/
theorem total_eq_of_le_one (hfg : ∀ p, f p = 0 → g p = 0) (hi : f (place i) = 1)
    (hOne : total f place ≤ 1) : total g place = g (place i) := by
  refine Finset.sum_eq_single i (fun j _ hj => hfg _ ?_) fun hOut => absurd (Finset.mem_univ i) hOut
  have hPair := add_le_total f place hj
  omega

end Tally
