import DemoCode.Lib.Avl

/-! Insertion into a height-balanced tree where a node may tie with what is inserted.  The way goes on
to the right of a node that ties, but the new leaf is hung on its left, and a rotation is chosen as if the
way had not gone to the right of it. -/

namespace Avl

open Trees

variable {α : Type*}

def bare : BinaryTree α → Bool
  | .nil => true
  | .node _ _ _ => false

@[simp] theorem bare_eq_true {t : BinaryTree α} : bare t = true ↔ t = .nil := by
  cases t <;> simp [bare]

section

variable (way : α → Option Side)

/-- Where the way goes on. -/
def onward (a : α) : Option Side := some ((way a).getD .right)

/-- A leaf that ties. -/
def tiedLeaf : BinaryTree α → Bool
  | .node a .nil .nil => (way a).isNone
  | _ => false

/-- The last node of the way with the new leaf, which takes the place of the left subtree of a node that
ties. -/
def hung (new : α) (f : Frame α) : BinaryTree α :=
  match way f.parent with
  | some _ => branch f.side f.parent (.node new .nil .nil) f.sibling
  | none => .node f.parent (.node new .nil .nil) .nil

def insertTied (new : α) : BinaryTree α → BinaryTree α
  | .nil => .node new .nil .nil
  | .node a l r =>
    match way a with
    | some .left => mend .left (heads way .left) (.node a (insertTied new l) r)
    | some .right => mend .right (heads way .right) (.node a l (insertTied new r))
    | none =>
      if bare r then .node a (.node new .nil .nil) .nil
      else mend .right (heads way .right) (.node a l (insertTied new r))

/-- The nodes whose place the new leaf takes. -/
def lost : BinaryTree α → List α
  | .nil => []
  | .node a l r =>
    match way a with
    | some .left => lost l
    | some .right => lost r
    | none => if bare r then inorder l else lost r

/-- The way ends at a leaf that ties and is the only child of its parent, on the left: the double rotation
at the parent misses a node. -/
def stranded : BinaryTree α → Bool
  | .nil => false
  | .node a l r =>
    match way a with
    | some .left => stranded l || (bare r && tiedLeaf way l)
    | _ => stranded r

/-- The subtrees of every node on the way are of one height. -/
def level : BinaryTree α → Bool
  | .nil => true
  | .node a l r => l.height == r.height && match way a with
    | some .left => level l
    | _ => level r

/-- The way goes on from the root, which ties. -/
def tiesOn : BinaryTree α → Bool
  | .nil => false
  | .node a _ r => (way a).isNone && !bare r

/-- The way goes to the right of a node that becomes too high there, and on from its right child, which
ties: the rotation is the wrong one. -/
def misturned : BinaryTree α → Bool
  | .nil => false
  | .node a l r =>
    match way a with
    | some .left => misturned l
    | _ => misturned r || (decide (l.height < r.height) && level way r && tiesOn way r)

end

variable {way : α → Option Side} {new a : α} {side : Side} {x y l t t' : BinaryTree α}
  {path : List (Frame α)}

theorem onward_cases (h : onward way a = some side) :
    way a = some side ∨ way a = none ∧ side = .right := by
  rw [onward, Option.some.injEq] at h
  cases hWay : way a with
  | none =>
    rw [hWay] at h
    exact .inr ⟨rfl, h.symm⟩
  | some side' =>
    rw [hWay] at h
    exact .inl (congrArg some h)

theorem insertTied_branch (h : onward way a = some side) (hx : x ≠ .nil ∨ way a = some side) :
    insertTied way new (branch side a x y) =
      mend side (heads way side) (branch side a (insertTied way new x) y) := by
  rcases onward_cases h with hWay | ⟨hWay, rfl⟩
  · cases side <;> rw [branch, insertTied, hWay] <;> rfl
  · have hMore : ¬bare x = true := by
      rw [bare_eq_true]
      exact hx.resolve_right (by simp [hWay])
    rw [branch, insertTied, hWay]
    exact if_neg hMore

theorem insertTied_tied (h : way a = none) :
    insertTied way new (.node a l .nil) = .node a (.node new .nil .nil) .nil := by
  rw [insertTied, h]
  rfl

theorem insertTied_last (h : onward way a = some side) (hBalanced : Balanced (branch side a .nil y)) :
    insertTied way new (branch side a .nil y) = hung way new ⟨side, a, y⟩ := by
  rcases onward_cases h with hWay | ⟨hWay, rfl⟩
  · have hLow := (balanced_branch.mp hBalanced).2.1
    rw [insertTied_branch h (.inr hWay), hung, hWay]
    exact mend_of_le (by simp [insertTied])
  · rw [hung, hWay]
    exact insertTied_tied hWay

theorem lost_branch (h : onward way a = some side) (hx : x ≠ .nil ∨ way a = some side) :
    lost way (branch side a x y) = lost way x := by
  rcases onward_cases h with hWay | ⟨hWay, rfl⟩
  · cases side <;> rw [branch, lost, hWay]
  · have hMore : ¬bare x = true := by
      rw [bare_eq_true]
      exact hx.resolve_right (by simp [hWay])
    rw [branch, lost, hWay]
    exact if_neg hMore

theorem stranded_branch (h : onward way a = some side) : stranded way (branch side a x y) = true ↔
    stranded way x = true ∨ side = .left ∧ y = .nil ∧ tiedLeaf way x = true := by
  rcases onward_cases h with hWay | ⟨hWay, rfl⟩
  · cases side <;> simp [branch, stranded, hWay]
  · simp [branch, stranded, hWay]

theorem level_branch (h : onward way a = some side) : level way (branch side a x y) = true ↔
    x.height = y.height ∧ level way x = true := by
  rcases onward_cases h with hWay | ⟨hWay, rfl⟩
  · cases side with
    | left => simp [branch, level, hWay]
    | right =>
      simp only [branch, level, hWay, Bool.and_eq_true, beq_iff_eq]
      exact and_congr_left' eq_comm
  · simp only [branch, level, hWay, Bool.and_eq_true, beq_iff_eq]
    exact and_congr_left' eq_comm

theorem misturned_branch (h : onward way a = some side) : misturned way (branch side a x y) = true ↔
    misturned way x = true ∨
      side = .right ∧ y.height < x.height ∧ level way x = true ∧ tiesOn way x = true := by
  rcases onward_cases h with hWay | ⟨hWay, rfl⟩
  · cases side <;> simp [branch, misturned, hWay, and_assoc]
  · simp [branch, misturned, hWay, and_assoc]

/-- **What an insertion adds and takes away.** -/
theorem perm_insertTied (way : α → Option Side) (new : α) (t : BinaryTree α) :
    (new :: inorder t).Perm (lost way t ++ inorder (insertTied way new t)) := by
  induction t using way_induction (onward way) with
  | nil => exact List.Perm.refl _
  | stop a l r hStop => cases hStop
  | go side a x y hSide ih =>
    by_cases hGo : x ≠ .nil ∨ way a = some side
    · rw [lost_branch hSide hGo, insertTied_branch hSide hGo, inorder_mend]
      have hOld := inorder_branch_perm side a x y
      have hNew := inorder_branch_perm side a (insertTied way new x) y
      refine ((hOld.cons new).trans (List.Perm.swap a new _)).trans ?_
      refine (((ih.append_right (inorder y)).cons a).trans ?_).trans (hNew.symm.append_left _)
      rw [List.append_assoc]
      exact List.perm_middle.symm
    · obtain ⟨hNil, hWay⟩ := not_or.mp hGo
      obtain rfl := not_not.mp hNil
      obtain ⟨hTie, rfl⟩ := (onward_cases hSide).resolve_left hWay
      rw [branch, insertTied_tied hTie, lost, hTie]
      exact List.perm_middle.symm

theorem mem_insertTied (way : α → Option Side) (new : α) (t : BinaryTree α) :
    new ∈ inorder (insertTied way new t) := by
  induction t using way_induction (onward way) with
  | nil => exact List.mem_singleton_self new
  | stop a l r hStop => cases hStop
  | go side a x y hSide ih =>
    by_cases hGo : x ≠ .nil ∨ way a = some side
    · rw [insertTied_branch hSide hGo, inorder_mend]
      exact mem_branch.mpr (.inr (.inl ih))
    · obtain ⟨hNil, hWay⟩ := not_or.mp hGo
      obtain rfl := not_not.mp hNil
      obtain ⟨hTie, rfl⟩ := (onward_cases hSide).resolve_left hWay
      rw [branch, insertTied_tied hTie]
      simp

theorem mem_lost {b : α} (h : b ∈ lost way t) : b ∈ inorder t := by
  induction t using way_induction (onward way) with
  | nil => cases h
  | stop a l r hStop => cases hStop
  | go side a x y hSide ih =>
    by_cases hGo : x ≠ .nil ∨ way a = some side
    · rw [lost_branch hSide hGo] at h
      exact mem_branch.mpr (.inr (.inl (ih h)))
    · obtain ⟨hNil, hWay⟩ := not_or.mp hGo
      obtain rfl := not_not.mp hNil
      obtain ⟨hTie, rfl⟩ := (onward_cases hSide).resolve_left hWay
      rw [branch, lost, hTie] at h
      exact mem_branch.mpr (.inr (.inr h))

/-- In a balanced tree it is one node at most. -/
theorem length_lost (h : Balanced t) : (lost way t).length ≤ 1 := by
  induction t using way_induction (onward way) with
  | nil => exact Nat.zero_le 1
  | stop a l r hStop => cases hStop
  | go side a x y hSide ih =>
    obtain ⟨-, hyx, hx, -⟩ := balanced_branch.mp h
    by_cases hGo : x ≠ .nil ∨ way a = some side
    · rw [lost_branch hSide hGo]
      exact ih hx
    · obtain ⟨hNil, hWay⟩ := not_or.mp hGo
      obtain rfl := not_not.mp hNil
      obtain ⟨hTie, rfl⟩ := (onward_cases hSide).resolve_left hWay
      rw [branch, lost, hTie]
      change (inorder y).length ≤ 1
      cases y with
      | nil => exact Nat.zero_le 1
      | node b u v =>
        simp only [BinaryTree.height] at hyx
        obtain rfl : u = .nil := height_eq_zero.mp (by omega)
        obtain rfl : v = .nil := height_eq_zero.mp (by omega)
        exact Nat.le_refl 1

/-! ### The way matters at the nodes only -/

section

variable {way' : α → Option Side}

theorem tiedLeaf_congr (h : ∀ a ∈ inorder t, way' a = way a) : tiedLeaf way' t = tiedLeaf way t := by
  unfold tiedLeaf
  split
  next a => rw [h a (by simp)]
  next => rfl

theorem level_congr (h : ∀ a ∈ inorder t, way' a = way a) : level way' t = level way t := by
  induction t with
  | nil => rfl
  | node a l r ihl ihr =>
    rw [level, level, h a (by simp), ihl fun b hb => h b (by simp [hb]), ihr fun b hb => h b (by simp [hb])]

theorem lost_congr (h : ∀ a ∈ inorder t, way' a = way a) : lost way' t = lost way t := by
  induction t with
  | nil => rfl
  | node a l r ihl ihr =>
    rw [lost, lost, h a (by simp), ihl fun b hb => h b (by simp [hb]), ihr fun b hb => h b (by simp [hb])]

theorem stranded_congr (h : ∀ a ∈ inorder t, way' a = way a) : stranded way' t = stranded way t := by
  induction t with
  | nil => rfl
  | node a l r ihl ihr =>
    have hl : ∀ b ∈ inorder l, way' b = way b := fun b hb => h b (by simp [hb])
    rw [stranded, stranded, h a (by simp), ihl hl, ihr fun b hb => h b (by simp [hb]), tiedLeaf_congr hl]

theorem misturned_congr (h : ∀ a ∈ inorder t, way' a = way a) : misturned way' t = misturned way t := by
  induction t with
  | nil => rfl
  | node a l r ihl ihr =>
    have hr : ∀ b ∈ inorder r, way' b = way b := fun b hb => h b (by simp [hb])
    have hTies : tiesOn way' r = tiesOn way r := by
      cases r with
      | nil => rfl
      | node b x y => rw [tiesOn, tiesOn, hr b (by simp)]
    rw [misturned, misturned, h a (by simp), ihl fun b hb => h b (by simp [hb]), ihr hr, level_congr hr,
      hTies]

end

/-! ### Without ties -/

theorem way_eq_of_onward (h : onward way a = some side) (hWay : way a ≠ none) : way a = some side :=
  (onward_cases h).resolve_right fun hTie => hWay hTie.1

theorem insertTied_eq_insert (hWay : ∀ a ∈ inorder t, way a ≠ none) :
    insertTied way new t = insert way new t := by
  induction t using way_induction (onward way) with
  | nil => rfl
  | stop a l r hStop => cases hStop
  | go side a x y hSide ih =>
    have hSome := way_eq_of_onward hSide (hWay a (mem_branch.mpr (.inl rfl)))
    rw [insertTied_branch hSide (.inr hSome), insert_branch hSome,
      ih fun b hb => hWay b (mem_branch.mpr (.inr (.inl hb)))]

theorem not_stranded (hWay : ∀ a ∈ inorder t, way a ≠ none) : stranded way t = false := by
  induction t using way_induction (onward way) with
  | nil => rfl
  | stop a l r hStop => cases hStop
  | go side a x y hSide ih =>
    have hx : ∀ b ∈ inorder x, way b ≠ none := fun b hb => hWay b (mem_branch.mpr (.inr (.inl hb)))
    rw [← Bool.not_eq_true, stranded_branch hSide, ih hx]
    rintro (hBelow | ⟨-, -, hTied⟩)
    · cases hBelow
    · unfold tiedLeaf at hTied
      split at hTied
      next q => exact hx q (by simp) (Option.isNone_iff_eq_none.mp hTied)
      next => cases hTied

/-! ### The climb finds the nodes that it moves -/

/-- A subtree that has become higher has two children at its root, or it was a leaf. -/
structure Firm (way : α → Option Side) (new : α) (t t' : BinaryTree α) : Prop where
  height : t.height ≤ t'.height
  grown : t.height < t'.height → (∀ side, part side t' ≠ .nil) ∨
    ∃ q, t = .node q .nil .nil ∧ t' = branch ((way q).getD .left) q (.node new .nil .nil) .nil

theorem parts_branch (hx : x ≠ .nil) (hy : y ≠ .nil) (side' : Side) :
    part side' (branch side a x y) ≠ .nil := by
  by_cases hSame : side' = side
  · rwa [hSame, part_branch]
  · rwa [Side.eq_other hSame, part_other_branch]

/-- Two children: a rotation of either kind finds its nodes and leaves two children again. -/
theorem firm_turn (hParts : ∀ side, part side t' ≠ .nil) (hx : x.height ≤ y.height + 1)
    (hHigh : y.height + 1 < t'.height) : Ready side (heads way side) (branch side a t' y) ∧
      Firm way new (branch side a x y) (turn side (heads way side) (branch side a t' y)) := by
  obtain ⟨q, o, i, rfl⟩ := exists_branch_of_ne side (ne_nil_of_lt hHigh)
  have ho := hParts side
  have hi := hParts side.other
  rw [part_branch] at ho
  rw [part_other_branch] at hi
  obtain ⟨n, d, e, rfl⟩ := exists_branch_of_ne side.other hi
  refine ⟨fun _ _ => ?_, ?_⟩
  · rw [part_branch, part_other_branch]
    exact hi
  · rw [turn, part_branch]
    rw [height_branch, height_branch] at hHigh
    by_cases hSingle : heads way side (branch side q o (branch side.other n d e)) = true
    · rw [if_pos hSingle, rotate_branch]
      refine ⟨?_, fun _ => .inl (parts_branch ho branch_ne_nil)⟩
      simp only [height_branch]
      omega
    · rw [if_neg hSingle, rotate2_branch]
      refine ⟨?_, fun _ => .inl (parts_branch branch_ne_nil branch_ne_nil)⟩
      simp only [height_branch]
      omega

/-- The new leaf is an only grandchild. -/
theorem firm_leaf {q : α} (hSafe : side = .left → (way q).isNone = false) :
    Ready side (heads way side)
        (branch side a (branch ((way q).getD .left) q (.node new .nil .nil) .nil) .nil) ∧
      Firm way new (branch side a (.node q .nil .nil) .nil) (turn side (heads way side)
        (branch side a (branch ((way q).getD .left) q (.node new .nil .nil) .nil) .nil)) := by
  have hLeaf : BinaryTree.node new .nil .nil = branch side.other new .nil .nil := by
    cases side <;> rfl
  rw [turn, part_branch]
  by_cases hSingle : heads way side (branch ((way q).getD .left) q (.node new .nil .nil) .nil) = true
  · have hWay : way q = some side := heads_branch.mp hSingle
    rw [if_pos hSingle, hWay, Option.getD_some, rotate_branch]
    refine ⟨fun _ hNot => ?_, by simp, fun hGrown => ?_⟩
    · rw [hWay, Option.getD_some] at hSingle
      rw [part_branch, hSingle] at hNot
      cases hNot
    · simp at hGrown
  · have hOther : (way q).getD .left = side.other := by
      rw [heads_branch] at hSingle
      cases hWay : way q with
      | none =>
        cases side with
        | left => exact absurd (hSafe rfl) (by simp [hWay])
        | right => rfl
      | some side' =>
        refine Side.eq_other fun hSame => hSingle ?_
        rw [hWay, Option.getD_some] at *
        rw [hSame]
    rw [if_neg hSingle, hOther, branch_other, hLeaf, rotate2_branch]
    refine ⟨fun _ _ => ?_, by simp, fun hGrown => ?_⟩
    · rw [part_branch, part_other_branch]
      exact branch_ne_nil
    · simp at hGrown

theorem Firm.mend (hBalanced : Balanced (branch side a x y)) (hNe : x ≠ .nil) (h : Firm way new x t')
    (hSafe : ¬(side = .left ∧ y = .nil ∧ tiedLeaf way x = true)) :
    Ready side (heads way side) (branch side a t' y) ∧
      Firm way new (branch side a x y) (Avl.mend side (heads way side) (branch side a t' y)) := by
  obtain ⟨hxy, hyx, -, -⟩ := balanced_branch.mp hBalanced
  have hHeight := h.height
  by_cases hHigh : y.height + 1 < t'.height
  · rw [mend_of_lt (by rwa [part_branch, part_other_branch])]
    rcases h.grown (by omega) with hParts | ⟨q, rfl, rfl⟩
    · exact firm_turn hParts hxy hHigh
    · obtain rfl : y = .nil := by
        rw [height_branch] at hHigh
        simp only [BinaryTree.height] at hHigh
        exact height_eq_zero.mp (by omega)
      refine firm_leaf fun hLeft => ?_
      rw [← Bool.not_eq_true]
      exact fun hTie => hSafe ⟨hLeft, rfl, hTie⟩
  · refine ⟨fun hLess => absurd hLess ?_, ?_⟩
    · rwa [part_branch, part_other_branch]
    · rw [mend_of_le (by rw [part_branch, part_other_branch]; omega)]
      refine ⟨by rw [height_branch, height_branch]; omega, fun hGrown => .inl ?_⟩
      have hx : 0 < x.height := Nat.pos_of_ne_zero fun hZero => hNe (height_eq_zero.mp hZero)
      rw [height_branch, height_branch] at hGrown
      exact parts_branch (ne_nil_of_lt (n := 0) (by omega)) (ne_nil_of_lt (n := 0) (by omega))

theorem firm_hung (h : onward way a = some side) (hBalanced : Balanced (branch side a .nil y)) :
    Firm way new (branch side a .nil y) (hung way new ⟨side, a, y⟩) := by
  have hLow := (balanced_branch.mp hBalanced).2.1
  rw [BinaryTree.height] at hLow
  rcases onward_cases h with hWay | ⟨hWay, rfl⟩
  · have hHung : hung way new ⟨side, a, y⟩ = branch side a (.node new .nil .nil) y := by
      rw [hung, hWay]
    rw [hHung]
    refine ⟨by simp only [height_branch, BinaryTree.height]; omega, fun hGrown => .inr ?_⟩
    simp only [height_branch, BinaryTree.height] at hGrown
    obtain rfl : y = .nil := height_eq_zero.mp (by omega)
    refine ⟨a, by cases side <;> rfl, ?_⟩
    rw [hWay, Option.getD_some]
  · have hHung : hung way new ⟨.right, a, y⟩ = branch .left a (.node new .nil .nil) .nil := by
      rw [hung, hWay]
      rfl
    rw [hHung]
    refine ⟨by simp; omega, fun hGrown => .inr ?_⟩
    simp only [height_branch, BinaryTree.height] at hGrown
    obtain rfl : y = .nil := height_eq_zero.mp (by omega)
    refine ⟨a, rfl, ?_⟩
    rw [hWay, Option.getD_none]

theorem firm_insertTied (h : Balanced t) (hNe : t ≠ .nil) (hSafe : stranded way t = false) :
    Firm way new t (insertTied way new t) := by
  induction t using way_induction (onward way) with
  | nil => exact absurd rfl hNe
  | stop a l r hStop => cases hStop
  | go side a x y hSide ih =>
    rw [← Bool.not_eq_true, stranded_branch hSide, not_or, Bool.not_eq_true] at hSafe
    by_cases hNil : x = .nil
    · subst hNil
      rw [insertTied_last hSide h]
      exact firm_hung hSide h
    · rw [insertTied_branch hSide (.inl hNil)]
      exact (Firm.mend h hNil (ih (balanced_branch.mp h).2.2.1 hNil hSafe.1) hSafe.2).2

/-- The climb from the new leaf mends the tree as the insertion does. -/
theorem Climbs.insertTied (h : Balanced t) (hNe : t ≠ .nil) (hSafe : stranded way t = false)
    (hClimbs : Climbs (heads way) path (Avl.insertTied way new t) t') :
    ∃ f path', trail (onward way) path t = (f :: path', .nil) ∧ onward way f.parent = some f.side ∧
      Climbs (heads way) path' (hung way new f) t' := by
  induction t using way_induction (onward way) generalizing path with
  | nil => exact absurd rfl hNe
  | stop a l r hStop => cases hStop
  | go side a x y hSide ih =>
    obtain ⟨hxy, hyx, hx, hy⟩ := balanced_branch.mp h
    rw [← Bool.not_eq_true, stranded_branch hSide, not_or, Bool.not_eq_true] at hSafe
    rw [trail_branch hSide]
    by_cases hNil : x = .nil
    · subst hNil
      rw [insertTied_last hSide h] at hClimbs
      exact ⟨⟨side, a, y⟩, path, rfl, hSide, hClimbs⟩
    · have hFirm : Firm way new x (Avl.insertTied way new x) := firm_insertTied hx hNil hSafe.1
      have hLow : y.height ≤ (Avl.insertTied way new x).height + 1 := by
        have hHeight := hFirm.height
        omega
      refine ih hx hNil hSafe.1 (.cons (fun side' => ?_) ?_)
      · by_cases hSame : side' = side
        · subst hSame
          exact (hFirm.mend h hNil hSafe.2).1
        · obtain rfl := Side.eq_other hSame
          refine fun hHigh => absurd hHigh ?_
          rw [part_other_branch, Side.other_other, part_branch]
          exact Nat.not_lt.mpr hLow
      · rw [settle_branch hLow, ← insertTied_branch hSide (.inl hNil)]
        exact hClimbs

theorem trail_stranded (h : stranded way t = true) (path : List (Frame α)) : ∃ q p path',
    trail (onward way) path t = (⟨.right, q, .nil⟩ :: ⟨.left, p, .nil⟩ :: path', .nil) ∧ way q = none := by
  induction t using way_induction (onward way) generalizing path with
  | nil => cases h
  | stop a l r hStop => cases hStop
  | go side a x y hSide ih =>
    rw [trail_branch hSide]
    rcases (stranded_branch hSide).mp h with hBelow | ⟨rfl, rfl, hTied⟩
    · exact ih hBelow _
    · obtain ⟨q, rfl, hWay⟩ : ∃ q, x = .node q .nil .nil ∧ way q = none := by
        unfold tiedLeaf at hTied
        split at hTied
        next q => exact ⟨q, rfl, Option.isNone_iff_eq_none.mp hTied⟩
        next => cases hTied
      have hOn : onward way q = some .right := by rw [onward, hWay, Option.getD_none]
      refine ⟨q, a, path, ?_, hWay⟩
      change trail (onward way) _ (branch .right q .nil .nil) = _
      rw [trail_branch hOn]
      rfl

/-! ### Balance -/

/-- What a subtree becomes where every rotation is the right one. -/
structure Outgrown (way : α → Option Side) (t t' : BinaryTree α) : Prop where
  balanced : Balanced t'
  height : level way t = true ∧ t'.height = t.height + 1 ∨ level way t = false ∧ t'.height = t.height
  leans : level way t = true → t ≠ .nil → ∃ side a x y, t' = branch side a x y ∧
    x.height = y.height + 1 ∧ root? t = some a ∧
    (way a = some side ∨ way a = none ∧ side = if bare (part .right t) then .left else .right)

/-- The rotation is the single one exactly where the subtree leans to the outside. -/
theorem single_iff {side' : Side} {q : α} {p o : BinaryTree α} (hNe : x ≠ .nil) (hRoot : root? x = some q)
    (hLeans : way q = some side' ∨ way q = none ∧ side' = if bare (part .right x) then .left else .right)
    (hLevel : level way x = true) (hSafe : ¬(side = .left ∧ x.height = 1 ∧ tiedLeaf way x = true))
    (hTurn : ¬(side = .right ∧ tiesOn way x = true)) :
    heads way side (branch side' q p o) = true ↔ side' = side := by
  rw [heads_branch]
  rcases hLeans with hWay | ⟨hWay, hEq⟩
  · rw [hWay, Option.some.injEq]
  · rw [hWay]
    refine iff_of_false nofun fun hSame => ?_
    cases x with
    | nil => exact hNe rfl
    | node q' l r =>
      obtain rfl : q' = q := Option.some.inj hRoot
      by_cases hBare : bare r = true
      · obtain rfl := bare_eq_true.mp hBare
        rw [level, Bool.and_eq_true, beq_iff_eq] at hLevel
        obtain rfl : l = .nil := height_eq_zero.mp hLevel.1
        refine hSafe ⟨hSame ▸ hEq, rfl, ?_⟩
        rw [tiedLeaf, hWay]
        rfl
      · have hRight : side' = .right := hEq.trans (if_neg hBare)
        refine hTurn ⟨hSame ▸ hRight, ?_⟩
        rw [tiesOn, hWay]
        simp [hBare]

theorem Outgrown.mend (hBalanced : Balanced (branch side a x y)) (hSide : onward way a = some side)
    (hGo : x ≠ .nil ∨ way a = some side) (h : Outgrown way x t')
    (hSafe : ¬(side = .left ∧ y = .nil ∧ tiedLeaf way x = true))
    (hTurn : ¬(side = .right ∧ y.height < x.height ∧ level way x = true ∧ tiesOn way x = true)) :
    Outgrown way (branch side a x y) (Avl.mend side (heads way side) (branch side a t' y)) := by
  obtain ⟨hxy, hyx, hx, hy⟩ := balanced_branch.mp hBalanced
  by_cases hHigh : y.height + 1 < t'.height
  · obtain ⟨hLevel, hGrown⟩ : level way x = true ∧ t'.height = x.height + 1 := by
      rcases h.height with hUp | ⟨-, hSame⟩
      · exact hUp
      · omega
    have hNe : x ≠ .nil := by
      rintro rfl
      rw [BinaryTree.height] at hGrown
      omega
    obtain ⟨side', q, p, o, rfl, hp, hRoot, hLeans⟩ := h.leans hLevel hNe
    have hSingle : heads way side (branch side' q p o) = true ↔ side' = side := by
      refine single_iff hNe hRoot hLeans hLevel (fun hBoth => hSafe ⟨hBoth.1, ?_, hBoth.2.2⟩)
        fun hBoth => hTurn ⟨hBoth.1, by omega, hLevel, hBoth.2⟩
      have hOne := hBoth.2.1
      exact height_eq_zero.mp (by omega)
    obtain ⟨-, hTurned, hHeight⟩ := turn_leaning a hy h.balanced hp (by omega) hSingle
    have hUneven : level way (branch side a x y) = false := by
      rw [← Bool.not_eq_true, level_branch hSide]
      omega
    rw [mend_of_lt (by rwa [part_branch, part_other_branch])]
    refine ⟨hTurned, .inr ⟨hUneven, ?_⟩, fun hLevel' => ?_⟩
    · rw [hHeight, height_branch]
      omega
    · rw [hUneven] at hLevel'
      cases hLevel'
  · rw [mend_of_le (by rw [part_branch, part_other_branch]; omega)]
    have hHeight := h.height
    refine ⟨balanced_branch.mpr ⟨by omega, by omega, h.balanced, hy⟩, ?_, fun hLevel _ => ?_⟩
    · rw [height_branch, height_branch]
      by_cases hLevel : level way (branch side a x y) = true
      · obtain ⟨hEven, hx'⟩ := (level_branch hSide).mp hLevel
        refine .inl ⟨hLevel, ?_⟩
        rw [hx'] at hHeight
        simp only [true_and, Bool.true_eq_false, false_and, or_false] at hHeight
        omega
      · refine .inr ⟨Bool.eq_false_iff.mpr hLevel, ?_⟩
        rw [level_branch hSide] at hLevel
        rcases hHeight with ⟨hx', hUp⟩ | ⟨-, hSame⟩
        · have hUneven : x.height ≠ y.height := fun hEven => hLevel ⟨hEven, hx'⟩
          omega
        · omega
    · obtain ⟨hEven, hx'⟩ := (level_branch hSide).mp hLevel
      rw [hx'] at hHeight
      simp only [true_and, Bool.true_eq_false, false_and, or_false] at hHeight
      refine ⟨side, a, t', y, rfl, by omega, root?_branch side a x y, ?_⟩
      rcases onward_cases hSide with hWay | ⟨hWay, rfl⟩
      · exact .inl hWay
      · have hMore : ¬bare x = true := by
          rw [bare_eq_true]
          exact hGo.resolve_right (by simp [hWay])
        rw [part_branch]
        exact .inr ⟨hWay, (if_neg hMore).symm⟩

theorem outgrown_tied (h : Balanced (.node a l .nil)) (hWay : way a = none) :
    Outgrown way (.node a l .nil) (.node a (.node new .nil .nil) .nil) := by
  have hLow := h.1
  rw [BinaryTree.height] at hLow
  have hOn : onward way a = some .right := by rw [onward, hWay, Option.getD_none]
  have hLevel : level way (.node a l .nil) = true ↔ (0 = l.height ∧ level way .nil = true) :=
    level_branch (x := .nil) hOn
  refine ⟨⟨by simp, by simp, ⟨by simp, by simp, trivial, trivial⟩, trivial⟩, ?_, fun hEven _ => ?_⟩
  · simp only [BinaryTree.height]
    by_cases hEven : level way (.node a l .nil) = true
    · have hZero := (hLevel.mp hEven).1
      exact .inl ⟨hEven, by omega⟩
    · refine .inr ⟨Bool.eq_false_iff.mpr hEven, ?_⟩
      have hSome : 0 ≠ l.height := fun hZero => hEven (hLevel.mpr ⟨hZero, rfl⟩)
      omega
  · exact ⟨.left, a, .node new .nil .nil, .nil, rfl, by simp, rfl, .inr ⟨hWay, rfl⟩⟩

theorem outgrown_insertTied (h : Balanced t) (hSafe : stranded way t = false)
    (hTurn : misturned way t = false) : Outgrown way t (insertTied way new t) := by
  induction t using way_induction (onward way) with
  | nil =>
    exact ⟨⟨by simp, by simp, trivial, trivial⟩, .inl ⟨rfl, rfl⟩, fun _ hNe => absurd rfl hNe⟩
  | stop a l r hStop => cases hStop
  | go side a x y hSide ih =>
    rw [← Bool.not_eq_true, stranded_branch hSide, not_or, Bool.not_eq_true] at hSafe
    rw [← Bool.not_eq_true, misturned_branch hSide, not_or, Bool.not_eq_true] at hTurn
    by_cases hGo : x ≠ .nil ∨ way a = some side
    · rw [insertTied_branch hSide hGo]
      exact Outgrown.mend h hSide hGo (ih (balanced_branch.mp h).2.2.1 hSafe.1 hTurn.1) hSafe.2 hTurn.2
    · obtain ⟨hNil, hWay⟩ := not_or.mp hGo
      obtain rfl := not_not.mp hNil
      obtain ⟨hTie, rfl⟩ := (onward_cases hSide).resolve_left hWay
      rw [branch, insertTied_tied hTie]
      exact outgrown_tied h hTie

end Avl
