import DemoCode.Lib.Avl

/-! Deletion from a height-balanced tree without regard to the heights below a turned node, and when
it keeps the balance nevertheless. -/

namespace Avl

open Trees

variable {α : Type*} {way : α → Option Side} {side : Side} {a b : α} {x y l r t t' : BinaryTree α}
  {path : List (Frame α)} {low safe : Prop}

/-- The last node of a tree, or `a`. -/
def last (a : α) : BinaryTree α → α
  | .nil => a
  | .node b _ r => last b r

def removeLast : BinaryTree α → BinaryTree α
  | .nil => .nil
  | .node _ l .nil => l
  | .node a l (.node b x y) => .node a l (removeLast (.node b x y))

/-- What takes the place of a node between two subtrees. -/
def without : BinaryTree α → BinaryTree α → BinaryTree α
  | .nil, r => r
  | .node b x y, .nil => .node b x y
  | .node b x y, .node c z w => .node (last b y) (removeLast (.node b x y)) (.node c z w)

/-- The root has a child on `side`. -/
def wide (side : Side) (t : BinaryTree α) : Bool := (root? (part side t)).isSome

section

variable (way : α → Option Side)

def erase : BinaryTree α → BinaryTree α
  | .nil => .nil
  | .node a l r =>
    match way a with
    | some .left => mend .right (wide .right) (.node a (erase l) r)
    | some .right => mend .left (wide .left) (.node a l (erase r))
    | none => without l r

/-- The node that the way ends at. -/
def find? : BinaryTree α → Option α
  | .nil => none
  | .node a l r =>
    match way a with
    | some .left => find? l
    | some .right => find? r
    | none => some a

end

theorem erase_branch (h : way a = some side) : erase way (branch side a x y) =
    mend side.other (wide side.other) (branch side.other a y (erase way x)) := by
  cases side <;> rw [branch, erase, h] <;> rfl

theorem find?_branch (h : way a = some side) : find? way (branch side a x y) = find? way x := by
  cases side <;> rw [branch, find?, h]

theorem removeLast_node (h : r ≠ .nil) : removeLast (.node a l r) = .node a l (removeLast r) := by
  cases r with
  | nil => exact absurd rfl h
  | node b x y => rfl

theorem wide_eq_false : wide side t = false ↔ part side t = .nil := by
  rw [wide, Option.isSome_eq_false_iff, Option.isNone_iff_eq_none, root?_eq_none]

theorem inorder_removeLast (h : t ≠ .nil) : inorder (removeLast t) ++ [last a t] = inorder t := by
  induction t generalizing a with
  | nil => exact absurd rfl h
  | node b l r _ ihr =>
    by_cases hNil : r = .nil
    · subst hNil
      rfl
    · rw [removeLast_node hNil, inorder_node, inorder_node, List.append_assoc, List.cons_append, last,
        ihr hNil]

theorem inorder_without : inorder (without l r) = inorder l ++ inorder r := by
  cases l with
  | nil => rfl
  | node b x y =>
    cases r with
    | nil => exact (List.append_nil _).symm
    | node c z w =>
      have hLast := inorder_removeLast (a := b) (t := .node b x y) (by simp)
      rw [without, inorder_node, ← hLast, List.append_assoc]
      rfl

theorem inorder_erase_perm (way : α → Option Side) (t : BinaryTree α) :
    (inorder t).Perm ((find? way t).toList ++ inorder (erase way t)) := by
  induction t using way_induction way with
  | nil => exact List.Perm.refl _
  | stop a l r hStop =>
    rw [find?, erase, hStop, inorder_without]
    exact List.perm_middle
  | go side a x y hSide ih =>
    rw [erase_branch hSide, inorder_mend, find?_branch hSide, branch_other]
    have hOld := inorder_branch_perm side a x y
    have hNew := inorder_branch_perm side a (erase way x) y
    refine hOld.trans (((ih.append_right (inorder y)).cons a).trans ?_)
    rw [List.append_assoc]
    exact List.perm_middle.symm.trans (hNew.symm.append_left _)

theorem inorder_erase_branch (h : way a = some side) :
    inorder (erase way (branch side a x y)) = inorder (branch side a (erase way x) y) := by
  rw [erase_branch h, inorder_mend, branch_other]

theorem sublist_erase (way : α → Option Side) (t : BinaryTree α) :
    (inorder (erase way t)).Sublist (inorder t) := by
  induction t using way_induction way with
  | nil => exact List.Sublist.refl _
  | stop a l r hStop =>
    rw [erase, hStop, inorder_without]
    exact (List.sublist_cons_self a _).append_left _
  | go side a x y hSide ih =>
    rw [inorder_erase_branch hSide]
    cases side with
    | left => exact ih.append_right _
    | right => exact (ih.cons_cons a).append_left _

/-- A deletion takes out the node at the end of the way. -/
theorem inorder_plug_erase (way : α → Option Side) (path : List (Frame α)) (t : BinaryTree α) :
    inorder (plug path (erase way t)) =
      inorder (plug (trail way path t).1 (erase way (trail way path t).2)) := by
  induction t using way_induction way generalizing path with
  | nil => rfl
  | stop a l r hStop => rw [trail, hStop]
  | go side a x y hSide ih =>
    rw [trail_branch hSide, ← ih]
    exact inorder_plug_congr path (inorder_erase_branch hSide)

/-- A deletion always finds the nodes it moves. -/
theorem ready_wide (side : Side) (t : BinaryTree α) : Ready side (wide side) t := by
  intro hHigh hNarrow hNil
  rw [wide_eq_false] at hNarrow
  obtain ⟨q, o, i, hEq⟩ := exists_branch_of_ne side (ne_nil_of_lt hHigh)
  rw [hEq, part_branch] at hNarrow
  rw [hEq, part_other_branch] at hNil
  rw [hEq, hNarrow, hNil, height_branch, BinaryTree.height] at hHigh
  omega

/-! ### Balance after a deletion -/

/-- The removal of the last node lowers the tree. -/
def LastLowers : BinaryTree α → Prop
  | .nil => False
  | .node _ l r => r = .nil ∨ LastLowers r ∧ l.height < r.height

/-- The removal of the last node keeps the tree balanced. -/
def LastSafe : BinaryTree α → Prop
  | .nil => True
  | .node _ l r => LastSafe r ∧ ¬(LastLowers r ∧ r.height < l.height)

/-- The outer subtree of the root is missing, or it is the higher one: a turn lowers the tree. -/
def Falls (side : Side) (t : BinaryTree α) : Prop :=
  part side t = .nil ∨ (part side.other t).height < (part side t).height

/-- There is an outer subtree, and the inner one is higher: a single rotation is wrong. -/
def Slips (side : Side) (t : BinaryTree α) : Prop :=
  part side t ≠ .nil ∧ (part side t).height < (part side.other t).height

section

variable (way : α → Option Side)

/-- The deletion lowers the tree. -/
def Lowers : BinaryTree α → Prop
  | .nil => False
  | .node a l r =>
    match way a with
    | some .left => Lowers l ∧ (r.height < l.height ∨ l.height < r.height ∧ Falls .right r)
    | some .right => Lowers r ∧ (l.height < r.height ∨ r.height < l.height ∧ Falls .left l)
    | none => l = .nil ∨ r = .nil ∨ LastLowers l ∧ r.height < l.height

/-- The deletion keeps the tree balanced. -/
def Safe : BinaryTree α → Prop
  | .nil => True
  | .node a l r =>
    match way a with
    | some .left => Safe l ∧ ¬(Lowers way l ∧ l.height < r.height ∧ Slips .right r)
    | some .right => Safe r ∧ ¬(Lowers way r ∧ r.height < l.height ∧ Slips .left l)
    | none => l = .nil ∨ r = .nil ∨ LastSafe l ∧ ¬(LastLowers l ∧ l.height < r.height)

section

variable [DecidableEq α]

instance decidableLastLowers : (t : BinaryTree α) → Decidable (LastLowers t)
  | .nil => isFalse id
  | .node _ _ r =>
    haveI := decidableLastLowers r
    inferInstanceAs (Decidable (_ ∨ _ ∧ _))

instance decidableLastSafe : (t : BinaryTree α) → Decidable (LastSafe t)
  | .nil => isTrue trivial
  | .node _ _ r =>
    haveI := decidableLastSafe r
    inferInstanceAs (Decidable (_ ∧ ¬(_ ∧ _)))

instance (side : Side) (t : BinaryTree α) : Decidable (Falls side t) :=
  inferInstanceAs (Decidable (_ ∨ _))

instance (side : Side) (t : BinaryTree α) : Decidable (Slips side t) :=
  inferInstanceAs (Decidable (_ ∧ _))

instance decidableLowers (way : α → Option Side) : (t : BinaryTree α) → Decidable (Lowers way t)
  | .nil => isFalse id
  | .node a l r =>
    haveI := decidableLowers way l
    haveI := decidableLowers way r
    match h : way a with
    | some .left => decidable_of_iff (Lowers way l ∧ (_ ∨ _ ∧ Falls .right r)) (by rw [Lowers, h])
    | some .right => decidable_of_iff (Lowers way r ∧ (_ ∨ _ ∧ Falls .left l)) (by rw [Lowers, h])
    | none => decidable_of_iff (l = .nil ∨ r = .nil ∨ LastLowers l ∧ _) (by rw [Lowers, h])

instance decidableSafe (way : α → Option Side) : (t : BinaryTree α) → Decidable (Safe way t)
  | .nil => isTrue trivial
  | .node a l r =>
    haveI := decidableSafe way l
    haveI := decidableSafe way r
    match h : way a with
    | some .left =>
      decidable_of_iff (Safe way l ∧ ¬(Lowers way l ∧ _ ∧ Slips .right r)) (by rw [Safe, h])
    | some .right =>
      decidable_of_iff (Safe way r ∧ ¬(Lowers way r ∧ _ ∧ Slips .left l)) (by rw [Safe, h])
    | none =>
      decidable_of_iff (l = .nil ∨ r = .nil ∨ LastSafe l ∧ ¬(LastLowers l ∧ _)) (by rw [Safe, h])

end

/-- What has become of a tree: it is lower exactly if `low`, and balanced exactly if `safe`. -/
structure Erased (low safe : Prop) (t t' : BinaryTree α) : Prop where
  height : low ∧ t'.height + 1 = t.height ∨ ¬low ∧ t'.height = t.height
  balanced : Balanced t' ↔ safe

end

theorem lowers_branch (h : way a = some side) : Lowers way (branch side a x y) ↔
    Lowers way x ∧ (y.height < x.height ∨ x.height < y.height ∧ Falls side.other y) := by
  cases side <;> rw [branch, Lowers, h] <;> rfl

theorem safe_branch (h : way a = some side) : Safe way (branch side a x y) ↔
    Safe way x ∧ ¬(Lowers way x ∧ x.height < y.height ∧ Slips side.other y) := by
  cases side <;> rw [branch, Safe, h] <;> rfl

theorem Erased.le (h : Erased low safe t t') : t'.height ≤ t.height := by
  rcases h.height with ⟨-, hLower⟩ | ⟨-, hSame⟩
  · omega
  · omega

theorem Erased.congr {low' safe' : Prop} (h : Erased low safe t t') (hLow : low ↔ low')
    (hSafe : safe ↔ safe') : Erased low' safe' t t' := by
  rw [← hLow, ← hSafe]
  exact h

theorem Erased.height_of_low (h : Erased low safe t t') (hLow : low) : t'.height + 1 = t.height := by
  rcases h.height with ⟨-, hLower⟩ | ⟨hKept, -⟩
  · exact hLower
  · exact absurd hLow hKept

theorem Erased.height_of_not (h : Erased low safe t t') (hKept : ¬low) : t'.height = t.height := by
  rcases h.height with ⟨hLow, -⟩ | ⟨-, hSame⟩
  · exact absurd hLow hKept
  · exact hSame

/-- A subtree is changed below a node where nothing is turned. -/
theorem Erased.plain (h : Erased low safe x t') (side : Side) (a b : α) (hxy : x.height ≤ y.height + 1)
    (hyx : y.height ≤ x.height + 1) (hy : Balanced y) :
    Erased (low ∧ y.height < x.height) (safe ∧ ¬(low ∧ x.height < y.height)) (branch side a x y)
      (branch side b t' y) := by
  have hLe := h.le
  constructor
  · rw [height_branch, height_branch]
    by_cases hLow : low
    · have hLower := h.height_of_low hLow
      by_cases hLess : y.height < x.height
      · exact .inl ⟨⟨hLow, hLess⟩, by omega⟩
      · exact .inr ⟨fun hBoth => hLess hBoth.2, by omega⟩
    · have hSame := h.height_of_not hLow
      exact .inr ⟨fun hBoth => hLow hBoth.1, by omega⟩
  · rw [balanced_branch, h.balanced]
    constructor
    · rintro ⟨-, hy', hSafe, -⟩
      refine ⟨hSafe, fun hBoth => ?_⟩
      have hLower := h.height_of_low hBoth.1
      omega
    · rintro ⟨hSafe, hNot⟩
      refine ⟨by omega, ?_, hSafe, hy⟩
      by_cases hLow : low
      · have hLess : ¬x.height < y.height := fun hLess => hNot ⟨hLow, hLess⟩
        have hLower := h.height_of_low hLow
        omega
      · have hSame := h.height_of_not hLow
        omega

theorem erased_removeLast (h : Balanced t) (hNe : t ≠ .nil) :
    Erased (LastLowers t) (LastSafe t) t (removeLast t) := by
  induction t with
  | nil => exact absurd rfl hNe
  | node a l r _ ihr =>
    obtain ⟨hlr, hrl, hl, hr⟩ := h
    by_cases hNil : r = .nil
    · subst hNil
      refine ⟨.inl ⟨.inl rfl, ?_⟩, ?_⟩
      · simp [removeLast]
      · simp [removeLast, LastSafe, LastLowers, hl]
    · have hPlain := (ihr hr hNil).plain .right a a hrl hlr hl
      have hLowers : LastLowers (.node a l r) ↔ LastLowers r ∧ l.height < r.height := or_iff_right hNil
      rw [removeLast_node hNil, LastSafe, hLowers]
      exact hPlain

theorem without_node (hl : l ≠ .nil) (hr : r ≠ .nil) :
    without l r = .node (last a l) (removeLast l) r := by
  cases l with
  | nil => exact absurd rfl hl
  | node b x y =>
    cases r with
    | nil => exact absurd rfl hr
    | node c z w => rfl

theorem without_nil : without l .nil = l := by
  cases l <;> rfl

theorem erased_without (h : Balanced (.node a l r)) :
    Erased (l = .nil ∨ r = .nil ∨ LastLowers l ∧ r.height < l.height)
      (l = .nil ∨ r = .nil ∨ LastSafe l ∧ ¬(LastLowers l ∧ l.height < r.height)) (.node a l r)
      (without l r) := by
  obtain ⟨hlr, hrl, hl, hr⟩ := h
  by_cases hLeft : l = .nil
  · subst hLeft
    exact ⟨.inl ⟨.inl rfl, by simp [without]⟩, iff_of_true hr (.inl rfl)⟩
  · by_cases hRight : r = .nil
    · subst hRight
      rw [without_nil]
      exact ⟨.inl ⟨.inr (.inl rfl), by simp⟩, iff_of_true hl (.inr (.inl rfl))⟩
    · rw [without_node (a := a) hLeft hRight, or_iff_right hLeft, or_iff_right hRight,
        or_iff_right hLeft, or_iff_right hRight]
      exact (erased_removeLast hl hLeft).plain .left a _ hlr hrl hr

/-- A subtree that has become too low is the safe case of a single or a double rotation, or the
outer subtree on the other side is the lower one. -/
theorem Erased.turn (h : Erased low safe x t') (side : Side) (a : α) (hxy : x.height ≤ y.height + 1)
    (hyx : y.height ≤ x.height + 1) (hy : Balanced y) (hHigh : t'.height + 1 < y.height) :
    (Falls side y ∧ (Avl.turn side (wide side) (branch side a y t')).height = y.height ∨
      ¬Falls side y ∧ (Avl.turn side (wide side) (branch side a y t')).height = y.height + 1) ∧
      (Balanced (Avl.turn side (wide side) (branch side a y t')) ↔ safe ∧ ¬Slips side y) := by
  have hLe := h.le
  have hLow : low := by
    by_contra hKept
    have hSame := h.height_of_not hKept
    omega
  have hLower := h.height_of_low hLow
  obtain ⟨q, o, i, rfl⟩ := exists_branch_of_ne side (ne_nil_of_lt hHigh)
  rw [← h.balanced, Avl.turn, part_branch, Falls, Slips, part_branch, part_other_branch]
  rw [height_branch] at hHigh hxy hyx ⊢
  obtain ⟨hoi, hio, hBo, hBi⟩ := balanced_branch.mp hy
  by_cases hOuter : o = .nil
  · subst hOuter
    have hWide : ¬wide side (branch side q .nil i) = true := by
      rw [Bool.not_eq_true, wide_eq_false, part_branch]
    obtain ⟨n, b, c, rfl⟩ : ∃ n b c, i = branch side.other n b c := by
      refine exists_branch_of_ne side.other (ne_nil_of_lt (n := 0) ?_)
      rw [BinaryTree.height] at hHigh
      omega
    rw [if_neg hWide, rotate2_branch]
    rw [height_branch, BinaryTree.height] at hio hHigh hyx
    obtain ⟨-, -, hBb, hBc⟩ := balanced_branch.mp hBi
    have hNil : t' = .nil := height_eq_zero.mp (by omega)
    subst hNil
    refine ⟨.inl ⟨.inl rfl, ?_⟩, iff_of_true ?_ ⟨trivial, fun hSlips => hSlips.1 rfl⟩⟩
    · simp only [height_branch, BinaryTree.height]
      omega
    · simp only [balanced_branch, height_branch, BinaryTree.height]
      refine ⟨by omega, by omega, ⟨by omega, by omega, trivial, hBc⟩, by omega, by omega, hBb, trivial⟩
  · have hWide : wide side (branch side q o i) = true := by
      rw [← Bool.not_eq_false, wide_eq_false, part_branch]
      exact hOuter
    rw [if_pos hWide, rotate_branch]
    refine ⟨?_, ?_⟩
    · simp only [height_branch]
      by_cases hLess : i.height < o.height
      · exact .inl ⟨.inr hLess, by omega⟩
      · exact .inr ⟨fun hFalls => hFalls.elim hOuter hLess, by omega⟩
    · simp only [balanced_branch, height_branch]
      constructor
      · rintro ⟨-, hoi', -, -, -, -, hBalanced⟩
        refine ⟨hBalanced, fun hSlips => ?_⟩
        have hLess := hSlips.2
        omega
      · rintro ⟨hBalanced, hSlips⟩
        have hLe : ¬o.height < i.height := fun hLess => hSlips ⟨hOuter, hLess⟩
        exact ⟨by omega, by omega, hBo, by omega, by omega, hBi, hBalanced⟩

theorem Erased.mend (h : Erased low safe x t') (hBalanced : Balanced (branch side a y x)) :
    Erased (low ∧ (y.height < x.height ∨ x.height < y.height ∧ Falls side y))
      (safe ∧ ¬(low ∧ x.height < y.height ∧ Slips side y)) (branch side a y x)
      (Avl.mend side (wide side) (branch side a y t')) := by
  obtain ⟨hyx, hxy, hy, -⟩ := balanced_branch.mp hBalanced
  have hLe := h.le
  by_cases hHigh : t'.height + 1 < y.height
  · obtain ⟨hHeight, hTurned⟩ := h.turn side a hxy hyx hy hHigh
    have hLow : low := by
      by_contra hKept
      have hSame := h.height_of_not hKept
      omega
    have hLess : x.height < y.height := by
      have hLower := h.height_of_low hLow
      omega
    rw [mend_of_lt (by rwa [part_branch, part_other_branch])]
    refine ⟨?_, ?_⟩
    · rw [height_branch]
      rcases hHeight with ⟨hFalls, hEq⟩ | ⟨hStays, hEq⟩
      · exact .inl ⟨⟨hLow, .inr ⟨hLess, hFalls⟩⟩, by omega⟩
      · refine .inr ⟨fun hBoth => ?_, by omega⟩
        rcases hBoth.2 with hGreater | hFalls
        · omega
        · exact hStays hFalls.2
    · rw [hTurned]
      simp only [hLow, hLess, true_and]
  · have hPlain := h.plain side.other a a hxy hyx hy
    have hNot : ¬(low ∧ x.height < y.height) := by
      rintro ⟨hLow, hLess⟩
      have hLower := h.height_of_low hLow
      omega
    rw [branch_other, branch_other] at hPlain
    rw [mend_of_le (by rw [part_branch, part_other_branch]; omega)]
    apply hPlain.congr
    · tauto
    · tauto

theorem erased_erase (h : Balanced t) : Erased (Lowers way t) (Safe way t) t (erase way t) := by
  induction t using way_induction way with
  | nil => exact ⟨.inr ⟨id, rfl⟩, Iff.rfl⟩
  | stop a l r hStop =>
    rw [erase, Lowers, Safe, hStop]
    exact erased_without h
  | go side a x y hSide ih =>
    have hx := ih (balanced_branch.mp h).2.2.1
    rw [← branch_other] at h
    have hMend := hx.mend h
    rw [branch_other] at hMend
    rw [erase_branch hSide]
    exact hMend.congr (lowers_branch hSide).symm (safe_branch hSide).symm

theorem trail_safe (path : List (Frame α)) (h : Balanced t) (hSafe : Safe way t) :
    Balanced (trail way path t).2 ∧ Safe way (trail way path t).2 := by
  induction t using way_induction way generalizing path with
  | nil => exact ⟨h, hSafe⟩
  | stop a l r hStop =>
    rw [trail, hStop]
    exact ⟨h, hSafe⟩
  | go side a x y hSide ih =>
    rw [trail_branch hSide]
    exact ih _ (balanced_branch.mp h).2.2.1 ((safe_branch hSide).mp hSafe).1

/-- Where the deletion is safe, the climb from the node that was removed does nothing else. -/
theorem Climbs.erase (h : Balanced t) (hSafe : Safe way t)
    (hClimbs : Climbs wide path (Avl.erase way t) t') :
    Climbs wide (trail way path t).1 (Avl.erase way (trail way path t).2) t' := by
  induction t using way_induction way generalizing path with
  | nil => exact hClimbs
  | stop a l r hStop =>
    rw [trail, hStop]
    exact hClimbs
  | go side a x y hSide ih =>
    obtain ⟨hxy, hyx, hx, hy⟩ := balanced_branch.mp h
    have hSafe' := ((safe_branch hSide).mp hSafe).1
    have hLe : (Avl.erase way x).height ≤ y.height + 1 :=
      Nat.le_trans (erased_erase hx).le hxy
    rw [trail_branch hSide]
    refine ih hx hSafe' (.cons (fun _ => ready_wide _ _) ?_)
    rw [erase_branch hSide, branch_other] at hClimbs
    rw [← branch_other, settle_branch hLe, branch_other]
    exact hClimbs

/-- Nothing happens to a balanced tree where the way does not stop at a node. -/
theorem erase_of_trail (h : Balanced t) (hTrail : (trail way path t).2 = .nil) : erase way t = t := by
  induction t using way_induction way generalizing path with
  | nil => rfl
  | stop a l r hStop =>
    rw [trail, hStop] at hTrail
    cases hTrail
  | go side a x y hSide ih =>
    obtain ⟨hxy, hyx, hx, -⟩ := balanced_branch.mp h
    rw [trail_branch hSide] at hTrail
    rw [erase_branch hSide, ih hx hTrail, mend_of_le, branch_other]
    rw [part_branch, part_other_branch]
    exact hyx

theorem way_of_trail (hTrail : (trail way path t).2 = .node a l r) : way a = none := by
  induction t using way_induction way generalizing path with
  | nil => cases hTrail
  | stop b x y hStop =>
    rw [trail, hStop] at hTrail
    cases hTrail
    exact hStop
  | go side b x y hSide ih =>
    rw [trail_branch hSide] at hTrail
    exact ih hTrail

/-! ### Search trees -/

section

variable {κ : Type*} [LinearOrder κ] {key : α → κ} {k : κ}

theorem find?_key (h : find? (towards key k) t = some a) : key a = k := by
  induction t using way_induction (towards key k) with
  | nil => cases h
  | stop b l r hStop =>
    rw [find?, hStop] at h
    cases h
    exact towards_none.mp hStop
  | go side b x y hSide ih =>
    rw [find?_branch hSide] at h
    exact ih h

/-- The way to a key misses no node. -/
theorem Sorted.find?_none (h : Sorted key t) (hNone : find? (towards key k) t = none) :
    ∀ a ∈ inorder t, key a ≠ k := by
  induction t using way_induction (towards key k) with
  | nil =>
    intro a ha
    cases ha
  | stop b l r hStop =>
    rw [find?, hStop] at hNone
    cases hNone
  | go side b x y hSide ih =>
    rw [find?_branch hSide] at hNone
    intro a ha
    cases side with
    | left =>
      obtain ⟨hx, -, -, hGreater⟩ := sorted_node.mp h
      have hb := towards_left.mp hSide
      rcases mem_branch.mp ha with rfl | hIn | hIn
      · exact hb.ne'
      · exact ih hx hNone a hIn
      · exact (hb.trans (hGreater a hIn)).ne'
    | right =>
      obtain ⟨-, hx, hLess, -⟩ := sorted_node.mp h
      have hb := towards_right.mp hSide
      rcases mem_branch.mp ha with rfl | hIn | hIn
      · exact hb.ne
      · exact ih hx hNone a hIn
      · exact ((hLess a hIn).trans hb).ne

theorem Sorted.erase (h : Sorted key t) : Sorted key (erase (towards key k) t) :=
  h.sublist ((sublist_erase _ t).map key)

/-- **A deletion from a search tree** removes the key and nothing else. -/
theorem Sorted.mem_erase (h : Sorted key t) {v : κ} :
    v ∈ (inorder (Avl.erase (towards key k) t)).map key ↔ v ∈ (inorder t).map key ∧ v ≠ k := by
  have hPerm := (inorder_erase_perm (towards key k) t).map key
  cases hFound : find? (towards key k) t with
  | none =>
    rw [hFound, Option.toList_none, List.nil_append] at hPerm
    rw [← hPerm.mem_iff, iff_self_and]
    intro hIn hEq
    obtain ⟨a, ha, rfl⟩ := List.mem_map.mp hIn
    exact h.find?_none hFound a ha hEq
  | some a =>
    have hKey := find?_key hFound
    rw [hFound, Option.toList_some, List.singleton_append, List.map_cons, hKey] at hPerm
    have hNot := (List.nodup_cons.mp (hPerm.nodup_iff.mp (h.imp ne_of_lt))).1
    rw [hPerm.mem_iff, List.mem_cons]
    constructor
    · intro hIn
      refine ⟨.inr hIn, ?_⟩
      rintro rfl
      exact hNot hIn
    · rintro ⟨hEq | hIn, hNe⟩
      · exact absurd hEq hNe
      · exact hIn

end

end Avl
