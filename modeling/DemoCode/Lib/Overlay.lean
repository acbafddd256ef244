import Mathlib.Data.List.Basic

/-! Partial updates of the values of keys.  A later update goes over an earlier one, and a field that
is read from a key keeps its own value where no update has the key. -/

namespace Overlay

variable {κ ν α : Type*}

/-- An update with a later one over it. -/
def layer (f g : κ → Option ν) : κ → Option ν := fun k => (g k).or (f k)

/-- Each key with the value of the last update that has it. -/
def last (fs : List (κ → Option ν)) : κ → Option ν := fun k => fs.reverse.findSome? fun f => f k

theorem last_nil : last ([] : List (κ → Option ν)) = fun _ => none := rfl

theorem last_cons (f : κ → Option ν) (fs : List (κ → Option ν)) :
    last (f :: fs) = layer f (last fs) := by
  funext k
  rw [last, List.reverse_cons, List.findSome?_append]
  cases hFirst : f k <;> simp [layer, last, hFirst]

/-- Two updates without a common key. -/
def Disjoint (f g : κ → Option ν) : Prop := ∀ k, f k = none ∨ g k = none

theorem layer_comm {f g : κ → Option ν} (h : Disjoint f g) : layer f g = layer g f := by
  funext k
  rcases h k with hNone | hNone
  · rw [layer, layer, hNone, Option.or_none, Option.none_or]
  · rw [layer, layer, hNone, Option.or_none, Option.none_or]

/-- A field, read from the value of its key where there is one. -/
def pick (read : ν → Option α) (value : Option ν) (old : α) : α := (value.bind read).getD old

@[simp] theorem pick_none (read : ν → Option α) (old : α) : pick read none old = old := rfl

/-- The value of a key, if there is one, can be read. -/
def Reads (read : ν → Option α) (value : Option ν) : Prop := ∀ x, value = some x → (read x).isSome

@[simp] theorem reads_none (read : ν → Option α) : Reads read none := nofun

@[simp] theorem reads_some {read : ν → Option α} {x : ν} : Reads read (some x) ↔ (read x).isSome :=
  ⟨fun h => h x rfl, fun h _ hEq => Option.some.inj hEq ▸ h⟩

theorem reads_or {read : ν → Option α} {v w : Option ν} (hv : Reads read v) (hw : Reads read w) :
    Reads read (w.or v) := by
  cases w with
  | none => exact hv
  | some x => exact hw

/-- A field that is read from one update after the other is read from the two at once. -/
theorem pick_or {read : ν → Option α} {v w : Option ν} (hw : Reads read w) (old : α) :
    pick read (w.or v) old = pick read w (pick read v old) := by
  cases w with
  | none => rfl
  | some x =>
    obtain ⟨a, ha⟩ := Option.isSome_iff_exists.mp (hw x rfl)
    simp [pick, ha]

end Overlay
