import Mathlib.Data.List.Basic
import Mathlib.Logic.Function.Basic
import Mathlib.Logic.Relation

/-! Chains of nodes that are linked by a `next` field, the last one to nothing, read as the list of
their addresses. -/

namespace Links

variable {α : Type*}

/-- The list of the addresses of a chain that ends at its last element. -/
def Linked (next : α → Option α) : List α → Prop
  | [] => True
  | a :: rest => next a = rest.head? ∧ Linked next rest

/-- What the links lead to from an address. -/
def Reaches (next : α → Option α) : α → α → Prop :=
  Relation.ReflTransGen fun a b => next a = some b

variable {next : α → Option α} {a b : α} {l m : List α}

theorem linked_of_append (h : Linked next (l ++ m)) : Linked next m := by
  induction l with
  | nil => exact h
  | cons a l ih => exact ih h.2

/-- A link of the first address leads to the second one. -/
theorem head_of_next (h : Linked next (a :: l)) (hNext : next a = some b) : ∃ m, l = b :: m :=
  List.head?_eq_some_iff.mp (h.1.symm.trans hNext)

/-- A member without a link is the last one. -/
theorem last_of_next_none (h : Linked next l) (ha : a ∈ l) (hNext : next a = none) :
    ∃ m, l = m ++ [a] := by
  induction l with
  | nil => cases ha
  | cons c l ih =>
    rcases List.mem_cons.mp ha with rfl | hIn
    · have hNil : l = [] := List.head?_eq_none_iff.mp (h.1.symm.trans hNext)
      exact ⟨[], by rw [hNil, List.nil_append]⟩
    · obtain ⟨m, rfl⟩ := ih h.2 hIn
      exact ⟨c :: m, rfl⟩

theorem reaches_of_mem (h : Linked next (a :: l)) (hb : b ∈ a :: l) : Reaches next a b := by
  induction l generalizing a with
  | nil =>
    rw [List.mem_singleton.mp hb]
    exact .refl
  | cons c l ih =>
    rcases List.mem_cons.mp hb with rfl | hIn
    · exact .refl
    · exact .head h.1 (ih h.2 hIn)

variable [DecidableEq α]

/-- A chain does not change when a node outside of it is written. -/
theorem linked_update {x : Option α} (h : Linked next l) (ha : a ∉ l) :
    Linked (Function.update next a x) l := by
  induction l with
  | nil => trivial
  | cons c l ih =>
    rw [List.mem_cons, not_or] at ha
    refine ⟨?_, ih h.2 ha.2⟩
    rw [Function.update_of_ne (Ne.symm ha.1)]
    exact h.1

/-- Writing the link of its last node puts another chain behind a chain. -/
theorem linked_link (h : Linked next (l ++ [a])) (hNodup : a ∉ l) (hOther : Linked next m)
    (hm : a ∉ m) : Linked (Function.update next a m.head?) (l ++ [a] ++ m) := by
  induction l with
  | nil => exact ⟨by simp, linked_update hOther hm⟩
  | cons c l ih =>
    rw [List.mem_cons, not_or] at hNodup
    refine ⟨?_, ih h.2 hNodup.2⟩
    rw [Function.update_of_ne (Ne.symm hNodup.1), h.1]
    cases l <;> simp

end Links
