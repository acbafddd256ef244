import DemoCode.AVLTree.DelNode

/-! Both deletions take the value out of a search tree, however its nodes are balanced: the rotations
keep the order, and a child that is too high has the nodes that a rotation moves. -/

namespace DemoCode.AVLTree

open Trees Avl

variable {s : AvlTree} {t : BinaryTree Addr} {val : Int}

/-- A call returns, without a null pointer dereferenced, and leaves a search tree of the values but
`val`. -/
def Removes (s : AvlTree) (t : BinaryTree Addr) (val : Int) (call : ℕ → Option AvlTree) : Prop :=
  ∃ s' t', Loop.Settles call s' ∧ Rep s' t' ∧ Sorted s'.val t' ∧
    ∀ v, v ∈ vals s' t' ↔ v ∈ vals s t ∧ v ≠ val

/-- A tree with the nodes of the recursive deletion, in their order. -/
theorem removes_of_inorder {s' : AvlTree} {t' : BinaryTree Addr} {call : ℕ → Option AvlTree}
    (hSorted : Sorted s.val t) (hCall : Loop.Settles call s') (hRep : Rep s' t') (hVal : s'.val = s.val)
    (hInorder : inorder t' = inorder (erase (towards s.val val) t)) : Removes s t val call := by
  refine ⟨s', t', hCall, hRep, ?_, fun v => ?_⟩
  · rw [Sorted, hInorder, hVal]
    exact hSorted.erase
  · rw [vals, hInorder, hVal]
    exact hSorted.mem_erase

theorem Rep.delNode_inorder (h : Rep s t) (val : Int) :
    ∃ s' t', Loop.Settles (fun fuel => s.delNode fuel val) s' ∧ Rep s' t' ∧ s'.val = s.val ∧
      inorder t' = inorder (erase (towards s.val val) t) := by
  obtain ⟨⟨path, u⟩, hTrail⟩ : ∃ x, trail (towards s.val val) [] t = x := ⟨_, rfl⟩
  have hErase := inorder_plug_erase (towards s.val val) [] t
  rw [hTrail] at hErase
  cases u with
  | nil =>
    have hPlug := plug_trail (towards s.val val) [] t
    rw [hTrail] at hPlug
    refine ⟨s, t, ?_, h, rfl, (congrArg inorder hPlug).symm.trans hErase.symm⟩
    by_cases hNil : t = .nil
    · exact (hNil ▸ h).delNode_nil val
    · exact h.delNode_missing hNil hTrail
  | node a l r =>
    have hWay := way_of_trail (congrArg Prod.snd hTrail)
    have hWithout : erase (towards s.val val) (.node a l r) = Avl.without l r := by rw [erase, hWay]
    obtain ⟨s', u, t', hCall, hRep, hVal, hu, hClimbs⟩ := h.delNode_found hTrail
    have hSame : inorder u = inorder (Avl.without l r) := by
      rcases hu with rfl | rfl
      · rfl
      · exact inorder_settle
    refine ⟨s', t', hCall, hRep, hVal, ?_⟩
    rw [hWithout] at hErase
    exact hClimbs.inorder_eq.trans ((inorder_plug_congr path hSame).trans hErase.symm)

/-- **`DelNode` and `DelNode_re`** take exactly the value out of a search tree. -/
theorem deletes_remove (h : Rep s t) (hSorted : Sorted s.val t) (val : Int) :
    Removes s t val (fun fuel => s.delNode fuel val) ∧ Removes s t val (fun fuel => s.delRe fuel val) := by
  constructor
  · obtain ⟨s', t', hCall, hRep, hVal, hInorder⟩ := h.delNode_inorder val
    exact removes_of_inorder hSorted hCall hRep hVal hInorder
  · obtain ⟨s', hCall, hRep, hVal⟩ := h.delRe val
    exact removes_of_inorder hSorted hCall hRep hVal rfl

/-- The root, between two subtrees. -/
theorem deletes_remove_twenty : Removes leaning leaningTree 20 (fun fuel => leaning.delNode fuel 20) ∧
    Removes leaning leaningTree 20 (fun fuel => leaning.delRe fuel 20) :=
  deletes_remove rep_leaning (by decide) 20

end DemoCode.AVLTree
