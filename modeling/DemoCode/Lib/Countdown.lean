import Mathlib.Order.Bounds.Basic
import Mathlib.Data.Set.Insert

/-! References that are counted down: each is held for a number of ticks, possibly several times over,
and what it refers to is released by the tick that drops the last of them. -/

namespace Countdown

variable {ρ : Type*} {S : Set (ρ × ℕ)} {r r' : ρ} {d : ℕ}

/-- The ticks after which the references to something are dropped. -/
def due (S : Set (ρ × ℕ)) (r : ρ) : Set ℕ := {d | (r, d) ∈ S}

/-- A tick drops the references that are due after one. -/
def tick (S : Set (ρ × ℕ)) : Set (ρ × ℕ) := {x | 0 < x.2 ∧ (x.1, x.2 + 1) ∈ S}

/-- The tick drops the last reference. -/
def Released (S : Set (ρ × ℕ)) (r : ρ) : Prop := 1 ∈ due S r ∧ due (tick S) r = ∅

theorem due_insert_self : due (insert (r, d) S) r = insert d (due S r) := by
  ext j
  simp [due]

theorem due_insert_of_ne (h : r' ≠ r) : due (insert (r, d) S) r' = due S r' := by
  ext j
  simp [due, h]

/-- A reference that is due after all others is the last. -/
theorem isGreatest_insert (h : ∀ j ∈ due S r, j ≤ d) : IsGreatest (due (insert (r, d) S) r) d := by
  rw [due_insert_self]
  constructor
  · exact Set.mem_insert d _
  · intro j hIn
    rcases Set.mem_insert_iff.mp hIn with rfl | hOld
    · exact le_rfl
    · exact h j hOld

theorem isGreatest_tick (h : IsGreatest (due S r) (d + 1)) (hPos : 0 < d) :
    IsGreatest (due (tick S) r) d := by
  constructor
  · exact ⟨hPos, h.1⟩
  · intro j hIn
    have hLe := h.2 hIn.2
    omega

theorem due_tick_of_one (h : IsGreatest (due S r) 1) : due (tick S) r = ∅ := by
  apply Set.eq_empty_iff_forall_notMem.mpr
  intro j hIn
  have hLe := h.2 hIn.2
  have hPos := hIn.1
  omega

/-- **Release**: what is due last after some ticks is released by the next one exactly if that is
one. -/
theorem released_iff (h : IsGreatest (due S r) d) (hPos : 0 < d) : Released S r ↔ d = 1 := by
  constructor
  · rintro ⟨-, hNone⟩
    by_contra hOther
    obtain ⟨j, rfl⟩ : ∃ j, d = j + 1 := ⟨d - 1, by omega⟩
    have hKept := isGreatest_tick h (by omega)
    rw [hNone] at hKept
    exact hKept.1
  · rintro rfl
    exact ⟨h.1, due_tick_of_one h⟩

theorem not_released_of_empty (h : due S r = ∅) : ¬Released S r := by
  rintro ⟨hOne, -⟩
  rw [h] at hOne
  exact hOne

theorem due_tick_of_empty (h : due S r = ∅) : due (tick S) r = ∅ := by
  apply Set.eq_empty_iff_forall_notMem.mpr
  intro j hIn
  have hOld : j + 1 ∈ due S r := hIn.2
  rw [h] at hOld
  exact hOld

end Countdown
