import Mathlib.Data.List.GetD
import DemoCode.Lib.Heaps

/-! `MaxHeap` of `max_heap.cpp`: a vector with a sentinel at index 0 and the elements behind it.  An
access outside of the vector is `none`, and so is an `int` that overflows.  The loops keep their place
in an `int`: a place that is taken from the size is cut to 32 bits. -/

namespace DemoCode

structure MaxHeap where
  vec : List Int := [-1]
  deriving DecidableEq, Repr

namespace MaxHeap

/-- The loop of `InsertFix`. -/
def climb (vec : List Int) (tmp : Int) (i : Nat) : Option Nat :=
  if i > 1 then do
    let parent ← vec[i / 2]?
    if tmp > parent then climb vec tmp (i / 2) else some i
  else
    some i

/-- `int i = m_vec.size() - 1`, as a place of the vector; a negative one is none, and the loop does not
change it. -/
def lastPlace? (size : Nat) : Option Nat :=
  let i := ((size - 1 : Nat) : Int).bmod (2 ^ 32)
  if 0 ≤ i then some i.toNat else none

def insertFix (vec : List Int) : Option (List Int) :=
  if vec.length < 3 then some vec
  else do
    let tmp ← vec.getLast?
    let i ← climb vec tmp (← lastPlace? vec.length)
    let x ← vec[i]?
    some ((vec.set (vec.length - 1) x).set i tmp)

def insert (h : MaxHeap) (val : Int) : Option MaxHeap := (insertFix (h.vec ++ [val])).map MaxHeap.mk

/-- The loop of `DeleteFix`, which begins at 1. -/
def sink (vec : List Int) (tmp : Int) (i : Nat) : Option (List Int × Nat) :=
  if 2 ^ 31 ≤ 2 * i + 1 then
    none
  else if 0 < i ∧ 2 * i + 1 < vec.length then do
    let left ← vec[2 * i]?
    let right ← vec[2 * i + 1]?
    if tmp < left ∨ tmp < right then
      if left < right then sink (vec.set i right) tmp (2 * i + 1) else sink (vec.set i left) tmp (2 * i)
    else
      some (vec, i)
  else
    some (vec, i)
termination_by vec.length - i
decreasing_by all_goals rw [List.length_set]; omega

def deleteFix (vec : List Int) : Option (List Int) :=
  if vec.length < 3 then some vec
  else do
    let tmp ← vec[1]?
    let (vec, i) ← sink vec tmp 1
    some (if i < vec.length then vec.set i tmp else vec)

def delete (h : MaxHeap) : Option MaxHeap :=
  if h.vec.length < 1 then some h
  else do
    let back ← h.vec.getLast?
    if 1 < h.vec.length then (deleteFix (h.vec.set 1 back).dropLast).map MaxHeap.mk else none

def top (h : MaxHeap) : Option Int := if h.vec.length > 1 then h.vec[1]? else h.vec[0]?

/-- A sequence of insertions. -/
def inserts : MaxHeap → List Int → Option MaxHeap
  | h, [] => some h
  | h, val :: vals => do inserts (← h.insert val) vals

/-! ### The array -/

/-- The elements behind the sentinel. -/
def elements (h : MaxHeap) : List Int := h.vec.tail

/-- The array as a function of its places. -/
def val (vec : List Int) (i : Nat) : Int := vec.getD i 0

/-- The sentinel is in its place. -/
def Wf (h : MaxHeap) : Prop := h.vec[0]? = some (-1)

/-- Every element at index 2 or more is at most its parent at half the index. -/
def IsHeap (vec : List Int) : Prop := Heaps.Ordered (val vec) vec.length

variable {vec : List Int} {i j : Nat} {x tmp : Int}

theorem getElem?_val (h : i < vec.length) : vec[i]? = some (val vec i) := by
  rw [val, List.getD_eq_getElem _ _ h, List.getElem?_eq_getElem h]

theorem val_eq (h : vec[i]? = some x) : val vec i = x := by
  rw [val, List.getD_eq_getElem?_getD, h, Option.getD_some]

theorem val_set (h : i < vec.length) (x : Int) : val (vec.set i x) = Function.update (val vec) i x := by
  funext j
  by_cases hSame : j = i
  · rw [hSame, Function.update_self]
    exact val_eq (List.getElem?_set_self h)
  · rw [Function.update_of_ne hSame, val, val, List.getD_eq_getElem?_getD, List.getD_eq_getElem?_getD,
      List.getElem?_set_ne (Ne.symm hSame)]

theorem val_append_left (h : i < vec.length) (rest : List Int) : val (vec ++ rest) i = val vec i := by
  rw [val, val, List.getD_append _ _ _ _ h]

theorem val_concat (vec : List Int) (x : Int) : val (vec ++ [x]) vec.length = x :=
  val_eq List.getElem?_concat_length

theorem Wf.vec_eq {h : MaxHeap} (hWf : h.Wf) : h.vec = -1 :: h.elements := by
  obtain ⟨_ | ⟨s, xs⟩⟩ := h
  · cases hWf
  · obtain rfl : s = -1 := Option.some.inj hWf
    rfl

theorem Wf.mem_elements {h : MaxHeap} (hWf : h.Wf) {x : Int} :
    x ∈ h.elements ↔ ∃ i, 1 ≤ i ∧ i < h.vec.length ∧ val h.vec i = x := by
  constructor
  · intro hIn
    obtain ⟨i, hi, hEq⟩ := List.getElem_of_mem hIn
    refine ⟨i + 1, by omega, by rw [hWf.vec_eq, List.length_cons]; omega, val_eq ?_⟩
    rw [hWf.vec_eq, List.getElem?_cons_succ, List.getElem?_eq_getElem hi, hEq]
  · rintro ⟨i, hi, hLess, rfl⟩
    obtain ⟨j, rfl⟩ : ∃ j, i = j + 1 := ⟨i - 1, by omega⟩
    have hGet := getElem?_val hLess
    rw [hWf.vec_eq, List.getElem?_cons_succ] at hGet
    exact List.mem_of_getElem? (hWf.vec_eq ▸ hGet)

/-- An order of the whole vector that leaves the sentinel is one of the elements. -/
theorem Wf.perm_elements {h h' : MaxHeap} (hWf : h.Wf) (hWf' : h'.Wf) (xs : List Int)
    (hPerm : h'.vec.Perm (h.vec ++ xs)) : h'.elements.Perm (h.elements ++ xs) := by
  rw [hWf.vec_eq, hWf'.vec_eq, List.cons_append] at hPerm
  exact hPerm.cons_inv

end MaxHeap

end DemoCode
