import DemoCode.SortAbout.Counters

/-! `counting_sort.cpp`.  The counters say how many elements there are up to each one, and are taken as
indices as they are. -/

namespace DemoCode.SortAbout

def countingSort (countingArray : Counters) (nums : List Int) : Option (Counters × List Int) :=
  if nums.length < 2 then
    some (countingArray, nums)
  else
    pass 1000 id 0 nums countingArray (List.replicate nums.length 0)

/-- Calls in one process. -/
def countingSorts : Counters → List (List Int) → Option (List (List Int))
  | _, [] => some []
  | countingArray, nums :: calls => do
    let (countingArray, out) ← countingSort countingArray nums
    let outs ← countingSorts countingArray calls
    some (out :: outs)

/-- Every access is in range, and each call sorts its vector. -/
def SortsEach (calls : List (List Int)) : Prop :=
  ∃ outs, countingSorts zeros calls = some outs ∧ List.Forall₂ Sorted calls outs

section

variable {nums : List Int} {calls : List (List Int)} {c : Counters}

theorem countingSort_short (h : nums.length < 2) : countingSort c nums = some (c, nums) := if_pos h

theorem countingSort_long (hRange : ∀ x ∈ nums, 0 ≤ x ∧ x < 1000) (h : ¬nums.length < 2) :
    countingSort zeros nums = none := by
  have hNe : nums ≠ [] := by
    rintro rfl
    exact h (by decide)
  rw [countingSort, if_neg h]
  exact pass_fails hRange hNe List.length_replicate

theorem sortsEach_cons (hRange : ∀ x ∈ nums, 0 ≤ x ∧ x < 1000) :
    SortsEach (nums :: calls) ↔ nums.length < 2 ∧ SortsEach calls := by
  by_cases hShort : nums.length < 2
  · simp only [SortsEach, countingSorts, countingSort_short hShort, Option.bind_eq_bind, Option.bind_some,
      Option.bind_eq_some_iff, Option.some.injEq, hShort, true_and]
    constructor
    · rintro ⟨_, ⟨outs, hCalls, rfl⟩, hSorted⟩
      exact ⟨outs, hCalls, (List.forall₂_cons.mp hSorted).2⟩
    · rintro ⟨outs, hCalls, hSorted⟩
      exact ⟨nums :: outs, ⟨outs, hCalls, rfl⟩, .cons (sorted_short hShort) hSorted⟩
  · refine iff_of_false ?_ fun h => hShort h.1
    rintro ⟨outs, hCalls, -⟩
    rw [countingSorts, countingSort_long hRange hShort] at hCalls
    cases hCalls

end

/-- **`CountingSort`** sorts each vector exactly if there is nothing to sort. -/
theorem sortsEach_iff {calls : List (List Int)} (hRange : ∀ nums ∈ calls, ∀ x ∈ nums, 0 ≤ x ∧ x < 1000) :
    SortsEach calls ↔ ∀ nums ∈ calls, nums.length < 2 := by
  induction calls with
  | nil => exact iff_of_true ⟨[], rfl, .nil⟩ nofun
  | cons nums calls ih =>
    obtain ⟨hFirst, hRest⟩ := List.forall_mem_cons.mp hRange
    rw [sortsEach_cons hFirst, ih hRest, List.forall_mem_cons]

theorem sortsEach_iff_single :
    SortsEach [[5], [], [7]] ↔ ∀ nums ∈ ([[5], [], [7]] : List (List Int)), nums.length < 2 := by
  have hRange : ∀ nums ∈ ([[5], [], [7]] : List (List Int)), ∀ x ∈ nums, 0 ≤ x ∧ x < 1000 := by decide
  exact sortsEach_iff hRange

/-- The 1 is the greater one of two: it is stored at the index 2. -/
theorem not_sortsEach :
    ¬∀ calls : List (List Int), (∀ nums ∈ calls, ∀ x ∈ nums, 0 ≤ x ∧ x < 1000) → SortsEach calls := by
  intro h
  exact absurd ((sortsEach_cons (by decide)).mp (h [[1, 0]] (by decide))).1 (by decide)

end DemoCode.SortAbout
