import DemoCode.RBTree.AddFixUp

/-! The loop of `DelFixUp` on the tree that memory holds: what each of its branches makes of the tree,
and where it ends, stops at a null pointer or goes round for ever. -/

namespace DemoCode.RBTree

open Trees RedBlack

variable {s : RbTree} {side : Side} {n p b w : Node} {sub i o x y t : BinaryTree Node}
  {path : List (Frame Node)} {replace : Option Addr}

/-! ### The branches -/

/-- The tree above `sub` and its brother, seen from the other side. -/
theorem branch_brother (side : Side) (p b : Node) (sub i o : BinaryTree Node) :
    branch side.other p (branch side.other b o i) sub = branch side p sub (branch side b i o) := by
  rw [branch_other, branch_other]

theorem cells_turn (side : Side) (p b : Node) (sub i o : BinaryTree Node) :
    cells (branch side p sub (branch side b i o)) = cells (branch side b (branch side p sub i) o) := by
  rw [← branch_brother, cells_rotate, branch_other, branch_other]

theorem cells_turn2 (side : Side) (p b n : Node) (sub x y o : BinaryTree Node) :
    cells (branch side p sub (branch side b (branch side n x y) o)) =
      cells (branch side n (branch side p sub x) (branch side b y o)) := by
  rw [← branch_brother, ← branch_other side n y x, cells_rotate2]
  simp only [branch_other]

/-- The far nephew after the colour of `parent` has gone to `brother->l`. -/
def tint : Side → Color → BinaryTree Node → BinaryTree Node
  | .left, _, o => o
  | .right, c, o => paint c o

/-- What a black brother with a nephew makes of the tree: `i` is the nephew next to `sub`, `o` the
other one. -/
def mend (side : Side) (p b : Node) (sub i o : BinaryTree Node) : BinaryTree Node :=
  match root? i with
  | none => branch side (b.paint p.color) (branch side (p.paint .black) sub .nil) (paint .black o)
  | some n =>
    branch side (n.paint .black) (branch side (p.paint .black) sub (part side i))
      (branch side b (part side.other i) (tint side p.color o))

@[simp] theorem mend_outer : mend side p b sub .nil o =
    branch side (b.paint p.color) (branch side (p.paint .black) sub .nil) (paint .black o) := rfl

@[simp] theorem mend_inner : mend side p b sub (branch side n x y) o =
    branch side (n.paint .black) (branch side (p.paint .black) sub x)
      (branch side b y (tint side p.color o)) := by
  simp only [mend, root?_branch, part_branch, part_other_branch]

theorem cells_tint (side : Side) (c : Color) (o : BinaryTree Node) :
    cells (tint side c o) = cells o := by
  cases side
  · rfl
  · exact cells_paint c o

theorem cells_mend (side : Side) (p b : Node) (sub i o : BinaryTree Node) :
    cells (mend side p b sub i o) = cells (branch side p sub (branch side b i o)) := by
  cases i with
  | nil =>
    rw [mend_outer, cells_turn]
    exact cells_branch_congr rfl (cells_branch_congr rfl rfl rfl) (cells_paint _ _)
  | node n l r =>
    obtain ⟨x, y, hNode⟩ := exists_branch side n l r
    rw [hNode, mend_inner, cells_turn2]
    exact cells_branch_congr rfl (cells_branch_congr rfl rfl rfl)
      (cells_branch_congr rfl rfl (cells_tint _ _ _))

/-- The brother is at the other side of the node above. -/
theorem Rep.brother (h : Rep s (plug path (branch side p sub t))) :
    Rep s (plug (⟨side.other, p, sub⟩ :: path) t) := by
  rw [plug, branch_other]
  exact h

theorem Rep.of_brother (h : Rep s (plug (⟨side.other, p, sub⟩ :: path) t)) :
    Rep s (plug path (branch side p sub t)) := by
  rw [plug, branch_other] at h
  exact h

/-- The test for a brother without children. -/
theorem Rep.leaf_iff (h : Rep s (plug path (branch side b i o))) :
    s.child .left b.addr = none ∧ s.child .right b.addr = none ↔ i = .nil ∧ o = .nil := by
  obtain ⟨-, hi, ho, -⟩ := h.reads side
  cases side with
  | left => simp [hi, show s.child .right b.addr = _ from ho, root?_eq_none]
  | right => simp [hi, show s.child .left b.addr = _ from ho, root?_eq_none, and_comm]

/-- One half of the loop with its rotations. -/
abbrev half (side : Side) (s : RbTree) (replace : Option Addr) (parent : Addr) :
    Option (Loop.Pass RbTree.DelState Empty (Option RbTree)) :=
  RbTree.delFixUpHalf side (RbTree.rotate side.other) (RbTree.rotate2 side.other) s replace parent

theorem Rep.half_leaf_red (h : Rep s (plug path (branch side p sub (.node b .nil .nil))))
    (hp : p.color = .red) : ∃ s', half side s replace p.addr = some (.leave [] (some s')) ∧
      Rep s' (plug path (branch side (p.paint .black) sub (.node (b.paint .red) .nil .nil))) := by
  have h' : Rep s (plug path (branch side p sub (branch side b .nil .nil))) := by
    cases side <;> exact h
  obtain ⟨-, -, hBrother, -, hpColor⟩ := h'.reads side
  rw [root?_branch, Option.map_some] at hBrother
  have hLeaf := h'.brother.leaf_iff.mpr ⟨rfl, rfl⟩
  have hColored : Rep (s.setColor p.addr .black)
      (plug path (branch side (p.paint .black) sub (branch side b .nil .nil))) := h'.setColor .black
  refine ⟨(s.setColor p.addr .black).setColor b.addr .red, ?_, ?_⟩
  · simp only [half, RbTree.delFixUpHalf, hBrother, Option.bind_eq_bind, Option.bind_some, hLeaf,
      and_self, if_true, hpColor, hp]
  · have := (hColored.brother.setColor .red).of_brother
    cases side <;> exact this

theorem Rep.half_leaf_black (h : Rep s (plug path (branch side p sub (.node b .nil .nil))))
    (hp : p.color = .black) : ∃ s', half side s replace p.addr =
      some (.again [] (s', some p.addr, (above? path).map Node.addr)) ∧
      Rep s' (plug path (branch side p sub (.node (b.paint .red) .nil .nil))) := by
  have h' : Rep s (plug path (branch side p sub (branch side b .nil .nil))) := by
    cases side <;> exact h
  obtain ⟨hUp, -, hBrother, -, hpColor⟩ := h'.reads side
  rw [root?_branch, Option.map_some] at hBrother
  have hLeaf := h'.brother.leaf_iff.mpr ⟨rfl, rfl⟩
  refine ⟨s.setColor b.addr .red, ?_, ?_⟩
  · simp only [half, RbTree.delFixUpHalf, hBrother, Option.bind_eq_bind, Option.bind_some, hLeaf,
      and_self, if_true, hpColor, hp, reduceCtorEq, if_false, RbTree.setColor_p, hUp]
  · have := (h'.brother.setColor .red).of_brother
    cases side <;> exact this

theorem Rep.half_red (h : Rep s (plug path (branch side p sub (branch side b i o))))
    (hSorted : Sorted (plug path (branch side p sub (branch side b i o))))
    (hNephew : ¬(i = .nil ∧ o = .nil)) (hb : b.color = .red) :
    ∃ s', half side s replace p.addr = some (.again [] (s', replace, some b.addr)) ∧
      Rep s' (plug path
        (branch side (b.paint .black) (branch side (p.paint .red) sub i) o)) := by
  obtain ⟨-, -, hBrother, -, -⟩ := h.reads side
  rw [root?_branch, Option.map_some] at hBrother
  have hLeaf := mt h.brother.leaf_iff.mp hNephew
  have hbColor := (h.brother.reads side).2.2.2.2
  have hColored : Rep ((s.setColor b.addr .black).setColor p.addr .red)
      (plug path (branch side (p.paint .red) sub (branch side (b.paint .black) i o))) :=
    (h.brother.setColor .black).of_brother.setColor .red
  rw [← branch_brother] at hColored
  obtain ⟨s', hRotate, hRep⟩ := hColored.rotate (hSorted.congr (cells_plug_congr path (by
    rw [branch_brother]
    exact cells_branch_congr rfl rfl (cells_branch_congr rfl rfl rfl))))
  simp only [Node.paint_addr] at hRotate hRep
  rw [branch_other, branch_other] at hRep
  refine ⟨_, ?_, hRep⟩
  simp only [half, RbTree.delFixUpHalf, hBrother, Option.bind_eq_bind, Option.bind_some, hLeaf,
    if_false, hbColor, hb, if_true, hRotate]

/-- The nephew's colours before the rotation of a black brother: `brother->l` gets the colour of
`parent`, and in the left half that of the near nephew is set again. -/
theorem Rep.setColor_left
    (h : Rep s (plug path (branch side p sub (branch side b (branch side n x y) o))))
    (ho : side = .right → o ≠ .nil) : ∃ l n', s.child .left b.addr = some l ∧ n'.addr = n.addr ∧
      n'.paint .black = n.paint .black ∧ Rep (s.setColor l p.color)
        (plug path (branch side p sub (branch side b (branch side n' x y) (tint side p.color o)))) := by
  have hb := h.brother
  obtain ⟨-, hi, hFar, -⟩ := hb.reads side
  rw [root?_branch, Option.map_some] at hi
  cases side with
  | left =>
    have hn : Rep s (plug (⟨.left, b, o⟩ :: ⟨.right, p, sub⟩ :: path) (branch .left n x y)) := hb
    exact ⟨n.addr, n.paint p.color, hi, rfl, rfl, hn.setColor p.color⟩
  | right =>
    cases o with
    | nil => exact absurd rfl (ho rfl)
    | node w l r =>
      have hw : Rep s (plug (⟨.left, b, branch .right n x y⟩ :: ⟨.left, p, sub⟩ :: path)
        (branch .left w l r)) := hb
      exact ⟨w.addr, n, hFar, rfl, rfl, hw.setColor p.color⟩

theorem Rep.half_inner
    (h : Rep s (plug path (branch side p sub (branch side b (branch side n x y) o))))
    (hSorted : Sorted (plug path (branch side p sub (branch side b (branch side n x y) o))))
    (hb : b.color = .black) (ho : side = .right → o ≠ .nil) :
    ∃ s', half side s replace p.addr = some (.leave [] (some s')) ∧
      Rep s' (plug path (mend side p b sub (branch side n x y) o)) := by
  obtain ⟨-, -, hBrother, -, hpColor⟩ := h.reads side
  rw [root?_branch, Option.map_some] at hBrother
  obtain ⟨-, hNear, -, -, hbColor⟩ := h.brother.reads side
  rw [root?_branch, Option.map_some] at hNear
  obtain ⟨l, n', hLeft, hAddr, hPaint, hColored⟩ := h.setColor_left ho
  have hp : Rep ((s.setColor l p.color).setColor p.addr .black) (plug path (branch side
      (p.paint .black) sub (branch side b (branch side n' x y) (tint side p.color o)))) :=
    hColored.setColor .black
  have hn : Rep ((s.setColor l p.color).setColor p.addr .black)
      (plug (⟨side, b, tint side p.color o⟩ :: ⟨side.other, p.paint .black, sub⟩ :: path)
        (branch side n' x y)) := hp.brother
  have hAll := hn.setColor .black
  rw [hAddr, hPaint, plug, plug, branch_other, ← branch_brother, ← branch_other side _ y x] at hAll
  obtain ⟨s', hRotate, hRep⟩ := hAll.rotate2 (hSorted.congr (cells_plug_congr path (by
    rw [branch_brother, branch_other]
    exact cells_branch_congr rfl rfl (cells_branch_congr rfl (cells_branch_congr rfl rfl rfl)
      (cells_tint _ _ _).symm))))
  simp only [Node.paint_addr] at hRotate hRep
  simp only [branch_other] at hRep
  refine ⟨_, ?_, by rw [mend_inner]; exact hRep⟩
  simp only [half, RbTree.delFixUpHalf, hBrother, Option.bind_eq_bind, Option.bind_some, hLeft,
    reduceCtorEq, false_and, if_false, hbColor, hb, hNear, ne_eq, not_false_eq_true, if_true, hpColor,
    RbTree.setColor_child, hRotate]

theorem Rep.half_outer (h : Rep s (plug path (branch side p sub (branch side b .nil o))))
    (hSorted : Sorted (plug path (branch side p sub (branch side b .nil o))))
    (hb : b.color = .black) (ho : root? o = some w) :
    ∃ s', half side s replace p.addr = some (.leave [] (some s')) ∧
      Rep s' (plug path (mend side p b sub .nil o)) := by
  obtain ⟨-, -, hBrother, -, hpColor⟩ := h.reads side
  rw [root?_branch, Option.map_some] at hBrother
  obtain ⟨-, hNear, hFar, -, hbColor⟩ := h.brother.reads side
  rw [root?_nil, Option.map_none] at hNear
  rw [ho, Option.map_some] at hFar
  have hLeaf : ¬(s.child .left b.addr = none ∧ s.child .right b.addr = none) := fun hNone => by
    rw [(h.brother.leaf_iff.mp hNone).2] at ho
    cases ho
  have hbRep : Rep (s.setColor b.addr p.color)
      (plug path (branch side p sub (branch side (b.paint p.color) .nil o))) :=
    (h.brother.setColor p.color).of_brother
  have hpRep : Rep ((s.setColor b.addr p.color).setColor p.addr .black)
      (plug path (branch side (p.paint .black) sub (branch side (b.paint p.color) .nil o))) :=
    hbRep.setColor .black
  have hAll : Rep (((s.setColor b.addr p.color).setColor p.addr .black).setColor w.addr .black)
      (plug path (branch side (p.paint .black) sub
        (branch side (b.paint p.color) .nil (paint .black o)))) := by
    cases o with
    | nil => cases ho
    | node w' l r =>
      obtain rfl := Option.some.inj ho
      have hw : Rep ((s.setColor b.addr p.color).setColor p.addr .black)
          (plug (⟨side.other, b.paint p.color, .nil⟩ :: ⟨side.other, p.paint .black, sub⟩ :: path)
            (branch .left w' l r)) := hpRep.brother.brother
      have hw' := hw.setColor .black
      exact hw'.of_brother.of_brother
  rw [← branch_brother] at hAll
  obtain ⟨s', hRotate, hRep⟩ := hAll.rotate (hSorted.congr (cells_plug_congr path (by
    rw [branch_brother]
    exact cells_branch_congr rfl rfl (cells_branch_congr rfl rfl (cells_paint _ _).symm))))
  simp only [Node.paint_addr] at hRotate hRep
  rw [branch_other, branch_other] at hRep
  refine ⟨_, ?_, hRep⟩
  simp only [half, RbTree.delFixUpHalf, hBrother, Option.bind_eq_bind, Option.bind_some, hLeaf,
    if_false, hbColor, hb, reduceCtorEq, hNear, ne_eq, not_true_eq_false, hFar, hpColor,
    RbTree.setColor_child, hRotate]

/-- The right half goes wrong where the black brother has a right child only. -/
theorem Rep.half_null (h : Rep s (plug path (branch .right p sub (branch .right b i .nil))))
    (hb : b.color = .black) (hi : root? i = some n) : half .right s replace p.addr = none := by
  obtain ⟨-, -, hBrother, -⟩ := h.reads .right
  rw [root?_branch, Option.map_some] at hBrother
  obtain ⟨-, hNear, hFar, -, hbColor⟩ := h.brother.reads .right
  rw [hi, Option.map_some] at hNear
  have hLeft : s.child .left b.addr = none := hFar
  simp only [half, RbTree.delFixUpHalf, hBrother, Option.bind_eq_bind, Option.bind_some, hLeft,
    hNear, reduceCtorEq, and_false, if_false, hbColor, hb, ne_eq, not_false_eq_true, if_true,
    Option.bind_none]

/-! ### The loop -/

/-- What a half of the loop makes of `sub` and its brother; `next` is the rest of the loop. The inner
`none` stands for a null pointer, the outer one for a loop without end. -/
def repairHalf (next : BinaryTree Node → Option (Option (BinaryTree Node))) (side : Side)
    (path : List (Frame Node)) (p : Node) (sub : BinaryTree Node) :
    BinaryTree Node → Option (Option (BinaryTree Node))
  | .nil => some none
  | .node b .nil .nil =>
    if p.color = .red then
      some (some (plug path (branch side (p.paint .black) sub (.node (b.paint .red) .nil .nil))))
    else next (branch side p sub (.node (b.paint .red) .nil .nil))
  | .node b l r =>
    if side = .right ∧ l = .nil then some none
    else some (some (plug path
      (mend side p b sub (part side (.node b l r)) (part side.other (.node b l r)))))

/-- What `DelFixUp` makes of a tree with one black node too few in the hole: below a red brother on
the right its rotations undo each other for ever, one on the left is turned and its near child is the
next brother. -/
def repair : List (Frame Node) → BinaryTree Node → Option (Option (BinaryTree Node))
  | [], sub => some (some sub)
  | ⟨side, p, sib⟩ :: path, sub =>
    match isRed Node.color sib, side, sib with
    | true, .right, .node b l r =>
      repairHalf (fun t => repair path t) .right path (b.paint .black)
        (branch .right (p.paint .red) sub r) l
    | true, _, _ => none
    | false, _, _ => repairHalf (fun t => repair path t) side path p sub sib

theorem repairHalf_branch {next : BinaryTree Node → Option (Option (BinaryTree Node))}
    (h : ¬(i = .nil ∧ o = .nil)) : repairHalf next side path p sub (branch side b i o) =
      if side = .right ∧ o = .nil then some none
      else some (some (plug path (mend side p b sub i o))) := by
  cases side with
  | left =>
    cases i with
    | nil =>
      cases o with
      | nil => exact absurd ⟨rfl, rfl⟩ h
      | node v l r => simp only [branch, repairHalf, part, Side.other, reduceCtorEq, false_and, if_false]
    | node v l r => simp only [branch, repairHalf, part, Side.other, reduceCtorEq, false_and, if_false]
  | right =>
    cases o with
    | nil =>
      cases i with
      | nil => exact absurd ⟨rfl, rfl⟩ h
      | node v l r => simp only [branch, repairHalf, true_and, if_true]
    | node v l r => simp only [branch, repairHalf, part, Side.other, true_and, reduceCtorEq, if_false]

/-- What a computation in memory comes to, and the tree that it leaves. -/
def Outcome (f : ℕ → Option (Option RbTree)) : Option (Option (BinaryTree Node)) → Prop
  | none => ∀ r, ¬Loop.Returns f r
  | some none => Loop.Returns f none
  | some (some t) => ∃ s', Rep s' t ∧ Loop.Returns f (some s')

/-- The loop of `DelFixUp` from a state. -/
abbrev delLoop (st : RbTree.DelState) (fuel : ℕ) : Option (Option RbTree) :=
  (Loop.run RbTree.delFixUpPass fuel st).map (·.2)

theorem Outcome.again {st st' : RbTree.DelState} {res : Option (Option (BinaryTree Node))}
    (hPass : RbTree.delFixUpPass st = .again [] st') (h : Outcome (delLoop st') res) :
    Outcome (delLoop st) res := by
  match res, h with
  | none, h => exact fun r hEnds => h r ((Loop.ends_again hPass).mp hEnds)
  | some none, h => exact (Loop.ends_again hPass).mpr h
  | some (some t), ⟨s', hRep, hEnds⟩ => exact ⟨s', hRep, (Loop.ends_again hPass).mpr hEnds⟩

theorem pass_eq_half {parent : Addr} (hNe : replace ≠ s.root)
    (hTest : s.child .left parent = replace ↔ side = .left) :
    RbTree.delFixUpPass (s, replace, some parent) =
      (half side s replace parent).getD (.leave [] none) := by
  cases side with
  | left => simp only [RbTree.delFixUpPass, hNe, if_false, Option.bind_some, hTest, if_true]; rfl
  | right => simp only [RbTree.delFixUpPass, hNe, if_false, Option.bind_some, hTest, reduceCtorEq]; rfl

/-- Below a node the loop is not at the root. -/
theorem Rep.replace_ne_root {f : Frame Node} (h : Rep s (plug (f :: path) sub)) :
    (root? sub).map Node.addr ≠ s.root := by
  obtain ⟨-, -, hNot⟩ := h.nodup_plug
  rw [h.root, root?_plug_cons f path sub .nil]
  intro hEq
  cases hRoot : root? (plug (f :: path) .nil) with
  | none =>
    have hIn : f.parent ∈ inorder (plug (f :: path) .nil) :=
      mem_plug.mpr (.inr (mem_rim_cons.mpr (.inl rfl)))
    rw [root?_eq_none.mp hRoot] at hIn
    cases hIn
  | some r =>
    rw [hRoot, Option.map_some] at hEq
    have hr := (mem_plug.mp (mem_root? hRoot)).resolve_left List.not_mem_nil
    exact hNot r hr (root_mem_addrs hEq)

/-- A pointer into one subtree is not the other child. -/
theorem Rep.child_ne {side' : Side} (h : Rep s (plug path (branch side p t x)))
    (hSide : side' ≠ side) (hx : x ≠ .nil) (hIn : ∀ a, replace = some a → a ∈ addrs t) :
    s.child side' p.addr ≠ replace := by
  obtain rfl := Side.eq_other hSide
  obtain ⟨-, -, hOther, -⟩ := h.reads side
  intro hEq
  cases hRoot : root? x with
  | none => exact hx (root?_eq_none.mp hRoot)
  | some m =>
    rw [hOther, hRoot, Option.map_some] at hEq
    exact (nodup_branch.mp h.nodup_plug.1).2.2.2 _ (hIn _ hEq.symm)
      (mem_addrs_of_mem (mem_root? hRoot))

theorem Rep.test_left (h : Rep s (plug path (branch side p sub x))) (hx : x ≠ .nil) :
    s.child .left p.addr = (root? sub).map Node.addr ↔ side = .left := by
  constructor
  · intro hEq
    by_contra hSide
    exact h.child_ne (Ne.symm hSide) hx (fun a ha => root_mem_addrs ha) hEq
  · rintro rfl
    exact (h.reads .left).2.1

/-- A brother with a nephew that is not red. -/
theorem Rep.outcome_mend {next : BinaryTree Node → Option (Option (BinaryTree Node))}
    {l r : BinaryTree Node} (h : Rep s (plug path (branch side p sub (.node b l r))))
    (hSorted : Sorted (plug path (branch side p sub (.node b l r))))
    (hPass : RbTree.delFixUpPass (s, replace, some p.addr) =
      (half side s replace p.addr).getD (.leave [] none))
    (hRed : isRed Node.color (.node b l r) = false) (hNephew : ¬(l = .nil ∧ r = .nil)) :
    Outcome (delLoop (s, replace, some p.addr)) (repairHalf next side path p sub (.node b l r)) := by
  obtain ⟨i, o, hNode⟩ := exists_branch side b l r
  have hNephew' : ¬(i = .nil ∧ o = .nil) := by
    rintro ⟨rfl, rfl⟩
    cases side <;> cases hNode <;> exact hNephew ⟨rfl, rfl⟩
  rw [hNode] at h hSorted hRed ⊢
  rw [isRed_branch, decide_eq_false_iff_not] at hRed
  have hb := Color.ne_red.mp hRed
  rw [repairHalf_branch hNephew']
  split
  · next hNull =>
    obtain ⟨rfl, rfl⟩ := hNull
    cases i with
    | nil => exact absurd ⟨rfl, rfl⟩ hNephew'
    | node n x y =>
      rw [h.half_null hb rfl] at hPass
      exact (Loop.ends_leave hPass).mpr rfl
  · next hNull =>
    cases i with
    | nil =>
      cases o with
      | nil => exact absurd ⟨rfl, rfl⟩ hNephew'
      | node w x y =>
        obtain ⟨s', hHalf, hRep⟩ := h.half_outer hSorted hb rfl
        rw [hHalf] at hPass
        exact ⟨s', hRep, (Loop.ends_leave hPass).mpr rfl⟩
    | node n x y =>
      obtain ⟨x', y', hNear⟩ := exists_branch side n x y
      rw [hNear] at h hSorted ⊢
      obtain ⟨s', hHalf, hRep⟩ := h.half_inner hSorted hb fun hSide hNil => hNull ⟨hSide, hNil⟩
      rw [hHalf] at hPass
      exact ⟨s', hRep, (Loop.ends_leave hPass).mpr rfl⟩

/-- A brother that is not red. -/
theorem Rep.outcome_half {next : BinaryTree Node → Option (Option (BinaryTree Node))}
    (h : Rep s (plug path (branch side p sub t))) (hSorted : Sorted (plug path (branch side p sub t)))
    (hPass : RbTree.delFixUpPass (s, replace, some p.addr) =
      (half side s replace p.addr).getD (.leave [] none))
    (ht : t ≠ .nil) (hRed : isRed Node.color t = false)
    (hNext : p.color = .black → ∀ s' t', Rep s' (plug path t') → root? t' = some p →
      cells t' = cells (branch side p sub t) →
      Outcome (delLoop (s', some p.addr, (above? path).map Node.addr)) (next t')) :
    Outcome (delLoop (s, replace, some p.addr)) (repairHalf next side path p sub t) := by
  match t, ht with
  | .node b .nil .nil, _ =>
    cases hp : p.color with
    | red =>
      obtain ⟨s', hHalf, hRep⟩ := h.half_leaf_red hp
      rw [hHalf] at hPass
      rw [repairHalf, if_pos hp]
      exact ⟨s', hRep, (Loop.ends_leave hPass).mpr rfl⟩
    | black =>
      obtain ⟨s', hHalf, hRep⟩ := h.half_leaf_black hp
      rw [hHalf] at hPass
      rw [repairHalf, if_neg (by rw [hp]; decide)]
      exact (hNext hp s' _ hRep (root?_branch ..) (cells_branch_congr rfl rfl rfl)).again hPass
  | .node b (.node v l r) x, _ => exact h.outcome_mend hSorted hPass hRed (by simp)
  | .node b .nil (.node v l r), _ => exact h.outcome_mend hSorted hPass hRed (by simp)

/-- The loop below a red brother on the right, which it turns up and then, in its other half, down
again. -/
inductive Turning (low : BinaryTree Node) : RbTree.DelState → Prop
  | down (s : RbTree) (path : List (Frame Node)) (p b : Node) (i o : BinaryTree Node) :
      Rep s (plug path (branch .left p low (branch .left b i o))) →
      Sorted (plug path (branch .left p low (branch .left b i o))) → b.color = .red → i ≠ .nil →
      Turning low (s, (root? low).map Node.addr, some p.addr)
  | up (s : RbTree) (path : List (Frame Node)) (p b : Node) (i o : BinaryTree Node) :
      Rep s (plug path (branch .left b (branch .left p low i) o)) →
      Sorted (plug path (branch .left b (branch .left p low i) o)) → p.color = .red → i ≠ .nil →
      Turning low (s, (root? low).map Node.addr, some b.addr)

theorem Turning.step {st : RbTree.DelState} (h : Turning sub st) :
    ∃ out st', RbTree.delFixUpPass st = .again out st' ∧ Turning sub st' := by
  cases h with
  | down s path p b i o hRep hSorted hb hi =>
    have hAt : Rep s (plug (⟨.left, p, branch .left b i o⟩ :: path) sub) := hRep
    obtain ⟨s', hHalf, hRep'⟩ := hRep.half_red hSorted (fun h => hi h.1) hb
    have hPass := pass_eq_half hAt.replace_ne_root (hRep.test_left (by simp [branch]))
    rw [hHalf] at hPass
    refine ⟨[], _, hPass, .up s' path (p.paint .red) (b.paint .black) i o hRep'
      (hSorted.congr (cells_plug_congr path ?_)) rfl hi⟩
    rw [cells_turn]
    exact cells_branch_congr rfl (cells_branch_congr rfl rfl rfl) rfl
  | up s path p b i o hRep hSorted hp hi =>
    have hAt : Rep s (plug (⟨.left, p, i⟩ :: ⟨.left, b, o⟩ :: path) sub) := hRep
    have hTest : s.child .left b.addr ≠ (root? sub).map Node.addr := by
      have hp' : Rep s (plug (⟨.left, b, o⟩ :: path) (branch .left p sub i)) := hRep
      rw [(hRep.reads .left).2.1, root?_branch, Option.map_some]
      intro hEq
      exact (nodup_branch.mp hp'.nodup_plug.1).1.1 (root_mem_addrs hEq.symm)
    -- the other half sees the tree from the other side
    have hRight : Rep s (plug path (branch .right b o (branch .right p i sub))) := hRep
    obtain ⟨s', hHalf, hRep'⟩ := hRight.half_red hSorted (fun h => hi h.1) hp
    have hPass := pass_eq_half hAt.replace_ne_root
      (iff_of_false hTest (show (Side.right) ≠ .left by decide))
    rw [hHalf] at hPass
    refine ⟨[], _, hPass, .down s' path (p.paint .black) (b.paint .red) i o hRep'
      (hSorted.congr (cells_plug_congr path ?_)) rfl hi⟩
    refine (cells_turn .right b p o i sub).trans ?_
    exact cells_branch_congr rfl (cells_branch_congr rfl rfl rfl) rfl

/-- **The loop of `DelFixUp`**: where the tree asks for a black node more than is in the hole, the loop
does to memory what `repair` does to the tree. -/
theorem Rep.repair {red : Bool} {m : ℕ} (h : Rep s (plug path sub)) (hSorted : Sorted (plug path sub))
    (hFits : Fits Node.color path red (m + 1)) :
    Outcome (delLoop (s, (root? sub).map Node.addr, (above? path).map Node.addr))
      (RBTree.repair path sub) := by
  induction path generalizing s sub red m with
  | nil =>
    have hPass : RbTree.delFixUpPass (s, (root? sub).map Node.addr, none) = .leave [] (some s) := by
      simp only [RbTree.delFixUpPass, h.root, plug, if_true]
    exact ⟨s, h, (Loop.ends_leave hPass).mpr rfl⟩
  | cons f path ih =>
    obtain ⟨side, p, t⟩ := f
    have ht : t ≠ .nil := by
      rintro rfl
      cases balanced_nil.mp hFits.sibling
    have hTree : Rep s (plug path (branch side p sub t)) := h
    have hPass := pass_eq_half h.replace_ne_root (hTree.test_left ht)
    -- the rest of the loop, one level up
    have hNext : p.color = .black → ∀ (a : Addr) s' t', Rep s' (plug path t') →
        (root? t').map Node.addr = some a → Sorted (plug path t') →
        Outcome (delLoop (s', some a, (above? path).map Node.addr)) (RBTree.repair path t') := by
      intro hp a s' t' hRep' hRoot hSorted'
      have hOutcome := ih hRep' hSorted' ((fits_black hp).mp hFits).2
      rwa [hRoot] at hOutcome
    cases hRed : isRed Node.color t with
    | false =>
      rw [RBTree.repair.eq_def]
      simp only [hRed]
      refine hTree.outcome_half hSorted hPass ht hRed fun hp s' t' hRep' hRoot hCells => ?_
      exact hNext hp _ s' t' hRep' (by rw [hRoot, Option.map_some])
        (hSorted.congr (cells_plug_congr path hCells.symm))
    | true =>
      cases t with
      | nil => cases hRed
      | node b l r =>
        have hb : b.color = .red := by simpa [isRed_node] using hRed
        have hChildren : Balanced Node.color l (m + 1) ∧ Balanced Node.color r (m + 1) ∧
            isRed Node.color l = false := by
          have hSibling : Balanced Node.color (branch .left b l r) (m + 1) := hFits.sibling
          obtain ⟨hl, -, hBl, hBr⟩ := (balanced_red hb).mp hSibling
          exact ⟨hBl, hBr, hl⟩
        have hl : l ≠ .nil := fun hNil => by cases balanced_nil.mp (hNil ▸ hChildren.1)
        cases side with
        | left =>
          rw [RBTree.repair.eq_def]
          simp only [hRed]
          exact fun res => Loop.not_ends Turning.step
            (Turning.down s path p b l r hTree hSorted hb hl)
        | right =>
          have hp : p.color = .black := by
            cases hColor : p.color with
            | red => cases hRed.symm.trans ((fits_red hColor).mp hFits).2.2.1
            | black => rfl
          have hRight : Rep s (plug path (branch .right p sub (branch .right b r l))) := hTree
          obtain ⟨s₁, hHalf, hRep₁⟩ := hRight.half_red hSorted (fun h => hl h.2) hb
          rw [hHalf] at hPass
          have hAt : Rep s₁ (plug (⟨.right, p.paint .red, r⟩ :: ⟨.right, b.paint .black, l⟩ :: path)
              sub) := hRep₁
          have hTest : s₁.child .left b.addr ≠ (root? sub).map Node.addr :=
            hRep₁.child_ne (by decide) hl fun a ha =>
              mem_addrs_branch.mpr (.inr (.inl (root_mem_addrs ha)))
          have hPass₁ := pass_eq_half hAt.replace_ne_root
            (iff_of_false hTest (show (Side.right) ≠ .left by decide))
          have hCells : cells (branch .right p sub (.node b l r)) =
              cells (branch .right (b.paint .black) (branch .right (p.paint .red) sub r) l) :=
            (cells_turn .right p b sub r l).trans
              (cells_branch_congr rfl (cells_branch_congr rfl rfl rfl) rfl)
          have hSorted₁ := hSorted.congr (cells_plug_congr path hCells)
          rw [RBTree.repair.eq_def]
          simp only [hRed]
          refine Outcome.again hPass (hRep₁.outcome_half hSorted₁ hPass₁ hl hChildren.2.2 ?_)
          intro _ s' t' hRep' hRoot hCells'
          exact hNext hp _ s' t' hRep' (by rw [hRoot]; rfl)
            (hSorted₁.congr (cells_plug_congr path hCells'.symm))

theorem cells_repairHalf {next : BinaryTree Node → Option (Option (BinaryTree Node))}
    {t' : BinaryTree Node} (hNext : ∀ t₁ t₂, next t₁ = some (some t₂) → cells t₂ = cells (plug path t₁))
    (h : repairHalf next side path p sub t = some (some t')) :
    cells t' = cells (plug path (branch side p sub t)) := by
  by_cases hLeaf : ∃ b, t = .node b .nil .nil
  · obtain ⟨b, rfl⟩ := hLeaf
    rw [repairHalf] at h
    split at h
    · cases h
      exact cells_plug_congr path (cells_branch_congr rfl rfl rfl)
    · exact (hNext _ _ h).trans (cells_plug_congr path (cells_branch_congr rfl rfl rfl))
  · cases t with
    | nil => cases h
    | node b l r =>
      obtain ⟨i, o, hNode⟩ := exists_branch side b l r
      have hNephew : ¬(i = .nil ∧ o = .nil) := by
        rintro ⟨rfl, rfl⟩
        exact hLeaf ⟨b, by rw [hNode]; cases side <;> rfl⟩
      rw [hNode, repairHalf_branch hNephew] at h
      split at h
      · cases h
      · cases h
        rw [hNode]
        exact cells_plug_congr path (cells_mend side p b sub i o)

theorem cells_repair {t' : BinaryTree Node} (h : repair path sub = some (some t')) :
    cells t' = cells (plug path sub) := by
  induction path generalizing sub t' with
  | nil =>
    cases h
    rfl
  | cons f path ih =>
    obtain ⟨side, p, t⟩ := f
    rw [repair.eq_def] at h
    simp only [plug]
    split at h
    · next heq => cases heq
    · next heq =>
      cases heq
      split at h
      · refine (cells_repairHalf (fun _ _ h => ih h) h).trans (cells_plug_congr path ?_)
        refine Eq.trans ?_ (cells_turn .right _ _ _ _ _).symm
        exact cells_branch_congr rfl (cells_branch_congr rfl rfl rfl) rfl
      · cases h
      · exact cells_repairHalf (fun _ _ h => ih h) h

end DemoCode.RBTree
