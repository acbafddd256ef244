import Mathlib.Data.List.Induction

/-! Names that items are listed under, over a history.  Several items may be listed under one name,
which then stands for the last of them; where every item is always listed under the same name, the
item that a name stands for has that name, whatever is listed later. -/

namespace Naming

variable {α ν : Type*}

/-- The name that an item was listed under last. -/
def nameOf [DecidableEq α] (history : List (α × ν)) (item : α) : Option ν :=
  history.foldl (fun name x => if x.1 = item then some x.2 else name) none

/-- The item that was listed last under a name. -/
def itemOf [DecidableEq ν] (history : List (α × ν)) (name : ν) : Option α :=
  history.foldl (fun item x => if x.2 = name then some x.1 else item) none

/-- Every item always has the same name. -/
def Consistent (history : List (α × ν)) : Prop :=
  ∀ item name name', (item, name) ∈ history → (item, name') ∈ history → name = name'

theorem nameOf_concat [DecidableEq α] (history : List (α × ν)) (x : α × ν) (item : α) :
    nameOf (history ++ [x]) item = if x.1 = item then some x.2 else nameOf history item :=
  List.foldl_append

theorem itemOf_concat [DecidableEq ν] (history : List (α × ν)) (x : α × ν) (name : ν) :
    itemOf (history ++ [x]) name = if x.2 = name then some x.1 else itemOf history name :=
  List.foldl_append

theorem mem_of_itemOf [DecidableEq ν] {history : List (α × ν)} {item : α} {name : ν}
    (h : itemOf history name = some item) : (item, name) ∈ history := by
  induction history using List.reverseRecOn with
  | nil => cases h
  | append_singleton history x ih =>
    rw [itemOf_concat] at h
    split at h
    · rename_i hName
      cases h
      exact List.mem_append_right _ (List.mem_singleton.mpr (Prod.ext rfl hName.symm))
    · exact List.mem_append_left _ (ih h)

theorem exists_nameOf_of_mem [DecidableEq α] {history : List (α × ν)} {item : α} {name : ν}
    (h : (item, name) ∈ history) :
    ∃ name', nameOf history item = some name' ∧ (item, name') ∈ history := by
  induction history using List.reverseRecOn with
  | nil => cases h
  | append_singleton history x ih =>
    rw [nameOf_concat]
    by_cases hItem : x.1 = item
    · refine ⟨x.2, if_pos hItem, ?_⟩
      exact List.mem_append_right _ (List.mem_singleton.mpr (Prod.ext hItem.symm rfl))
    · rw [if_neg hItem]
      rcases List.mem_append.mp h with hOld | hNew
      · obtain ⟨name', hName, hIn⟩ := ih hOld
        exact ⟨name', hName, List.mem_append_left _ hIn⟩
      · exact absurd (congrArg Prod.fst (List.mem_singleton.mp hNew)).symm hItem

/-- **There and back**: the item that a name stands for has that name, also later. -/
theorem nameOf_of_itemOf [DecidableEq α] [DecidableEq ν] {history later : List (α × ν)} {item : α}
    {name : ν}
    (hConsistent : Consistent (history ++ later)) (h : itemOf history name = some item) :
    nameOf (history ++ later) item = some name := by
  have hIn : (item, name) ∈ history ++ later := List.mem_append_left _ (mem_of_itemOf h)
  obtain ⟨name', hName, hIn'⟩ := exists_nameOf_of_mem hIn
  rw [hName, hConsistent item name name' hIn hIn']

end Naming
