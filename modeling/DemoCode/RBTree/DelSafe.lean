import DemoCode.RBTree.AddNode
import DemoCode.RBTree.DelNode

/-! When `DelNode` returns: the trees in which its loop goes round for ever or meets a null pointer. -/

namespace DemoCode.RBTree

open Trees RedBlack

variable {s : RbTree} {side : Side} {p b : Node} {sub t : BinaryTree Node} {path : List (Frame Node)}
  {m : ℕ} {red : Bool} {next : BinaryTree Node → Option (Option (BinaryTree Node))}

def isLeaf : BinaryTree Node → Bool
  | .node _ .nil .nil => true
  | _ => false

/-- The brother of what hangs on the hole is a red right child: the loop turns it up and down. -/
def stuck : List (Frame Node) → Bool
  | [] => false
  | f :: _ => f.side = .left && isRed Node.color f.sibling

/-- Where the last node of a path may go, a black leaf that is not the root. -/
def Safe : List (Frame Node) → Prop
  | [] => True
  | f :: path =>
    if isLeaf f.sibling then f.parent.color = .red ∨ stuck path = false
    else match f.side with
      | .left => isRed Node.color f.sibling = false
      | .right =>
        let nephew := part .left f.sibling
        if isRed Node.color f.sibling then
          if isLeaf nephew then stuck path = false else part .left nephew ≠ .nil
        else nephew ≠ .nil

/-- Where `val` may be deleted. -/
def DelSafe (val : Int) (t : BinaryTree Node) : Prop :=
  match cut val t with
  | none => True
  | some (path, d, c) => d.color = .red ∨ c ≠ .nil ∨ Safe path

theorem repair_left_red (h : isRed Node.color t = true) :
    repair (⟨.left, p, t⟩ :: path) sub = none := by
  rw [repair.eq_def]
  simp only [h]

theorem repair_right_red {l r : BinaryTree Node} (h : b.color = .red) :
    repair (⟨.right, p, .node b l r⟩ :: path) sub = repairHalf (fun t => repair path t) .right path
      (b.paint .black) (branch .right (p.paint .red) sub r) l := by
  rw [repair.eq_def]
  simp only [isRed_node, h, decide_true]

theorem repair_black (h : isRed Node.color t = false) : repair (⟨side, p, t⟩ :: path) sub =
    repairHalf (fun t => repair path t) side path p sub t := by
  rw [repair.eq_def]
  simp only [h]

/-- What a half of the loop needs below a brother that is not red. -/
theorem repairHalf_isSome (ht : t ≠ .nil) :
    (∃ t', repairHalf next side path p sub t = some (some t')) ↔
      if isLeaf t then
        p.color = .red ∨ ∃ t', next (branch side p sub (paint .red t)) = some (some t')
      else side = .left ∨ part .left t ≠ .nil := by
  match t, ht with
  | .node b .nil .nil, _ =>
    simp only [repairHalf, isLeaf, if_true, paint]
    by_cases hp : p.color = .red <;> simp [hp]
  | .node b (.node v x y) r, _ =>
    simp only [repairHalf, isLeaf, part, Bool.false_eq_true, if_false, reduceCtorEq, and_false]
    simp
  | .node b .nil (.node v x y), _ =>
    simp only [repairHalf, isLeaf, part, Bool.false_eq_true, if_false, and_true]
    cases side <;> simp

/-- Two levels above the leaf the brother has all the nephews that the loop asks for. -/
theorem repairHalf_high (h : Balanced Node.color t (m + 2)) (hRed : isRed Node.color t = false) :
    ∃ b i o, t = branch side b i o ∧ b.color = .black ∧ Balanced Node.color i (m + 1) ∧
      Balanced Node.color o (m + 1) ∧
      repairHalf next side path p sub t = some (some (plug path (mend side p b sub i o))) := by
  cases t with
  | nil => cases balanced_nil.mp h
  | node b l r =>
    obtain ⟨i, o, hNode⟩ := exists_branch side b l r
    rw [hNode] at h hRed ⊢
    rw [isRed_branch, decide_eq_false_iff_not] at hRed
    have hb := Color.ne_red.mp hRed
    obtain ⟨hi, ho⟩ := (balanced_black_succ hb).mp h
    have hiNe : i ≠ .nil := fun hNil => by cases balanced_nil.mp (hNil ▸ hi)
    have hoNe : o ≠ .nil := fun hNil => by cases balanced_nil.mp (hNil ▸ ho)
    refine ⟨b, i, o, rfl, hb, hi, ho, ?_⟩
    rw [repairHalf_branch fun hNil => hiNe hNil.1, if_neg fun hNil => hoNe hNil.2]

theorem repair_high (hFits : Fits Node.color path red (m + 2)) :
    (∃ t', repair path sub = some (some t')) ↔ stuck path = false := by
  cases path with
  | nil => exact ⟨fun _ => rfl, fun _ => ⟨sub, rfl⟩⟩
  | cons f path =>
    obtain ⟨side, p, t⟩ := f
    cases hRed : isRed Node.color t with
    | false =>
      obtain ⟨b, i, o, -, -, -, -, hHalf⟩ := repairHalf_high hFits.sibling hRed
      rw [repair_black hRed, hHalf]
      simp [stuck, hRed]
    | true =>
      cases side with
      | left =>
        rw [repair_left_red hRed]
        simp [stuck, hRed]
      | right =>
        cases t with
        | nil => cases hRed
        | node b l r =>
          have hb : b.color = .red := by simpa [isRed_node] using hRed
          have hSibling : Balanced Node.color (branch .left b l r) (m + 2) := hFits.sibling
          obtain ⟨hl, -, hBl, -⟩ := (balanced_red hb).mp hSibling
          obtain ⟨b', i, o, -, -, -, -, hHalf⟩ := repairHalf_high hBl hl
          rw [repair_right_red hb, hHalf]
          simp [stuck]

theorem not_red_of_fits {f : Frame Node} (hFits : Fits Node.color (f :: path) red m)
    (hRed : isRed Node.color f.sibling = true) : f.parent.color = .black := by
  cases hColor : f.parent.color with
  | red => cases hRed.symm.trans ((fits_red hColor).mp hFits).2.2.1
  | black => rfl

/-- The loop comes to an end below a black leaf that goes exactly when this is safe. -/
theorem repair_safe (hFits : Fits Node.color path red 1) :
    (∃ t', repair path .nil = some (some t')) ↔ Safe path := by
  cases path with
  | nil => exact ⟨fun _ => trivial, fun _ => ⟨_, rfl⟩⟩
  | cons f path =>
    obtain ⟨side, p, t⟩ := f
    have ht : t ≠ .nil := by
      rintro rfl
      cases balanced_nil.mp hFits.sibling
    cases hRed : isRed Node.color t with
    | false =>
      rw [repair_black hRed, repairHalf_isSome ht]
      simp only [Safe, hRed]
      split
      · cases hp : p.color with
        | red => simp
        | black =>
          simp only [reduceCtorEq, false_or]
          exact repair_high ((fits_black hp).mp hFits).2
      · cases side <;> simp
    | true =>
      have hp := not_red_of_fits hFits hRed
      cases t with
      | nil => cases hRed
      | node b l r =>
        have hb : b.color = .red := by simpa [isRed_node] using hRed
        have hSibling : Balanced Node.color (branch .left b l r) 1 := hFits.sibling
        obtain ⟨hl, -, hBl, -⟩ := (balanced_red hb).mp hSibling
        have hlNe : l ≠ .nil := by
          rintro rfl
          cases balanced_nil.mp hBl
        have hLeaf : isLeaf (.node b l r) = false := by
          cases l with
          | nil => exact absurd rfl hlNe
          | node v x y => rfl
        simp only [Safe, hLeaf, hRed, Bool.false_eq_true, if_false, if_true]
        cases side with
        | left =>
          rw [repair_left_red hRed]
          simp
        | right =>
          have hPart : part .left (.node b l r) = l := rfl
          rw [repair_right_red hb, repairHalf_isSome hlNe, hPart]
          cases hNephew : isLeaf l with
          | true =>
            simp only [if_true, Node.paint_color, reduceCtorEq, false_or]
            exact repair_high ((fits_black hp).mp hFits).2
          | false => simp

/-- What the tree tells about the call. -/
theorem deleteVal_isSome {val : Int} (hValid : Valid Node.color t) :
    (∃ t', deleteVal val t = some (some t')) ↔ DelSafe val t := by
  have hPlug := plug_locate val [] t
  cases hLocate : locate val [] t with
  | mk path sub =>
    rw [hLocate] at hPlug
    cases sub with
    | nil => simp [deleteVal, DelSafe, cut, hLocate]
    | node d l r =>
      have hPlug' : plug path (.node d l r) = t := hPlug
      rw [← hPlug'] at hValid
      obtain ⟨side, hValid'⟩ := valid_cutAt hValid
      simp only [deleteVal, DelSafe, cut, hLocate]
      generalize cutAt path d l r = x at hValid'
      obtain ⟨path', d', c⟩ := x
      cases hd : d'.color with
      | red => cases path' <;> simp [delFix, hd]
      | black =>
        cases c with
        | node v x y => cases path' <;> simp [delFix, hd]
        | nil =>
          cases path' with
          | nil => simp [delFix, Safe]
          | cons f path' =>
            simp only [delFix, hd, reduceCtorEq, ne_eq, not_true_eq_false, false_or]
            exact repair_safe (fits_one hValid' hd)

/-- **Deletion**: in a valid tree `DelNode` returns with a search tree of the values without `val`,
linked both ways, exactly where the node that goes is red or at the root or has a child or where it is
safe to fill its place. -/
theorem delNode_removes_iff (h : Rep s t) (hSorted : Sorted t) (hValid : Valid Node.color t)
    (val : Int) : (∃ s', Loop.Returns (fun fuel => s.delNode fuel val) (some s') ∧
      ∃ t', Rep s' t' ∧ Sorted t' ∧ vals t' = (vals t).erase val) ↔ DelSafe val t := by
  have hOutcome := h.delNode hSorted hValid val
  rw [← deleteVal_isSome hValid]
  match hRes : deleteVal val t, hOutcome with
  | none, hOutcome =>
    apply iff_of_false (fun ⟨s', hReturns, _⟩ => hOutcome _ hReturns)
    rintro ⟨t', ht'⟩
    cases ht'
  | some none, hOutcome =>
    refine iff_of_false (fun ⟨s', hReturns, _⟩ => ?_) ?_
    · cases Loop.Steady.unique (steady_delNode s val) hReturns hOutcome
    · rintro ⟨t', ht'⟩
      cases ht'
  | some (some t'), ⟨s', hRep, hReturns⟩ =>
    obtain ⟨hSorted', hVals⟩ := deleteVal_spec hSorted hRes
    exact iff_of_true ⟨s', hReturns, t', hRep, hSorted', hVals⟩ ⟨t', rfl⟩

/-- A valid tree that four calls of `AddNode` build; its left child has a right child only. -/
def fourNodes (a b c d : Addr) : BinaryTree Node :=
  .node ⟨a, 10, .black⟩ (.node ⟨b, 5, .black⟩ .nil (.node ⟨d, 7, .red⟩ .nil .nil))
    (.node ⟨c, 15, .black⟩ .nil .nil)

theorem exists_fourNodes : ∃ s a b c d, Rep s (fourNodes a b c d) := by
  obtain ⟨s, as, hLength, -, hRep⟩ := exists_calls nextFree [10, 5, 15, 7]
  match as, hLength with
  | [a, b, c, d], _ => exact ⟨s, a, b, c, d, hRep⟩

theorem sorted_fourNodes (a b c d : Addr) : Sorted (fourNodes a b c d) := by
  simp [Sorted, vals, fourNodes]

theorem valid_fourNodes (a b c d : Addr) : Valid Node.color (fourNodes a b c d) :=
  valid_iff.mpr ⟨rfl, 2, .black rfl (.black rfl .nil (.red rfl rfl rfl .nil .nil))
    (.black rfl .nil .nil)⟩

theorem delNode_removes_iff_fourNodes : ∃ (s : RbTree) (a b c d : Addr),
    (∃ s', Loop.Returns (fun fuel => s.delNode fuel 15) (some s') ∧ ∃ t', Rep s' t' ∧ Sorted t' ∧
      vals t' = (vals (fourNodes a b c d)).erase 15) ↔ DelSafe 15 (fourNodes a b c d) :=
  let ⟨s, a, b, c, d, hRep⟩ := exists_fourNodes
  ⟨s, a, b, c, d, delNode_removes_iff hRep (sorted_fourNodes a b c d) (valid_fourNodes a b c d) 15⟩

/-- Where the right child goes from this tree, `brother->l` is null. -/
theorem not_removes : ¬∀ s t, Rep s t → Sorted t → Valid Node.color t → ∀ val,
    ∃ s', Loop.Returns (fun fuel => s.delNode fuel val) (some s') ∧
      ∃ t', Rep s' t' ∧ Sorted t' ∧ vals t' = (vals t).erase val := by
  intro h
  obtain ⟨s, a, b, c, d, hRep⟩ := exists_fourNodes
  have hNull : deleteVal 15 (fourNodes a b c d) = some none := rfl
  have hOutcome := hRep.delNode (sorted_fourNodes a b c d) (valid_fourNodes a b c d) 15
  rw [hNull] at hOutcome
  obtain ⟨s', hReturns, -⟩ := h s _ hRep (sorted_fourNodes a b c d) (valid_fourNodes a b c d) 15
  cases Loop.Steady.unique (steady_delNode s 15) hReturns hOutcome

end DemoCode.RBTree
