import Mathlib.Data.List.Induction
import DemoCode.RBTree.Seek

/-! The loop of `AddFixUp` on the tree that memory holds: it terminates and keeps the values in their
order, whatever the colours. -/

namespace DemoCode.RBTree

open Trees RedBlack

/-- The root of a tree gets another colour. -/
def paint (c : Color) : BinaryTree Node → BinaryTree Node
  | .nil => .nil
  | .node n l r => .node (n.paint c) l r

/-- What `AddFixUp` makes of a tree, where `t` with the node to fix at its root is in the hole. -/
def addFix : List (Frame Node) → BinaryTree Node → BinaryTree Node
  | f :: f' :: path, t =>
    match f.parent.color, root? t with
    | .red, some n =>
      if isRed Node.color f'.sibling then
        addFix path (branch f'.side (f'.parent.paint .red)
          (branch f.side (f.parent.paint .black) t f.sibling) (paint .black f'.sibling))
      else if f.side = f'.side then
        plug path (branch f'.side (f.parent.paint .black) t
          (branch f'.side (f'.parent.paint .red) f.sibling f'.sibling))
      else
        addFix path (branch f'.side (n.paint .black)
          (branch f'.side f.parent f.sibling (part f'.side t))
          (branch f'.side (f'.parent.paint .red) (part f'.side.other t) f'.sibling))
    | _, _ => plug (f :: f' :: path) t
  | path, t => plug path t

variable {s : RbTree} {side : Side} {n p g : Node} {b u x y t t' : BinaryTree Node}
  {path : List (Frame Node)} {f : Frame Node} {val : Int} {a : Addr}

theorem addFix_black (h : f.parent.color = .black) : addFix (f :: path) t = plug (f :: path) t := by
  cases path with
  | nil => rfl
  | cons f' path => simp [addFix, h]

theorem addFix_recolour {side' : Side} (hp : p.color = .red) (hu : isRed Node.color u = true)
    (ht : root? t = some n) : addFix (⟨side', p, b⟩ :: ⟨side, g, u⟩ :: path) t =
      addFix path (branch side (g.paint .red) (branch side' (p.paint .black) t b) (paint .black u)) := by
  simp [addFix, hp, ht, hu]

theorem addFix_outer (hp : p.color = .red) (hu : isRed Node.color u = false)
    (ht : root? t = some n) : addFix (⟨side, p, b⟩ :: ⟨side, g, u⟩ :: path) t =
      plug path (branch side (p.paint .black) t (branch side (g.paint .red) b u)) := by
  simp [addFix, hp, ht, hu]

theorem addFix_inner (hp : p.color = .red) (hu : isRed Node.color u = false) :
    addFix (⟨side.other, p, b⟩ :: ⟨side, g, u⟩ :: path) (branch side n x y) =
      addFix path (branch side (n.paint .black) (branch side p b x)
        (branch side (g.paint .red) y u)) := by
  simp [addFix, hp, hu]

/-! ### Painted trees -/

theorem isRed_paint_black (t : BinaryTree Node) : isRed Node.color (paint .black t) = false := by
  cases t <;> rfl

theorem balanced_paint_black {m : ℕ} (h : Balanced Node.color t m)
    (hRed : isRed Node.color t = true) : Balanced Node.color (paint .black t) (m + 1) := by
  cases t with
  | nil => cases hRed
  | node n l r =>
    cases h with
    | red _ _ _ hl hr => exact .black rfl hl hr
    | black hBlack => simp [isRed_node, hBlack] at hRed

theorem valid_paint_black {m : ℕ} (h : Balanced Node.color t m) :
    Valid Node.color (paint .black t) := by
  cases t with
  | nil => exact valid_nil
  | node n l r => exact h.valid rfl

/-! ### The values -/

@[simp] theorem cells_paint (c : Color) (t : BinaryTree Node) : cells (paint c t) = cells t := by
  cases t <;> simp [paint, cells]

theorem cells_plug_congr (path : List (Frame Node)) (h : cells t = cells t') :
    cells (plug path t) = cells (plug path t') := by
  simp only [cells, inorder_plug, List.map_append] at h ⊢
  rw [h]

theorem cells_branch_congr {n' : Node} {x' y' : BinaryTree Node}
    (hn : (n.addr, n.val) = (n'.addr, n'.val)) (hx : cells x = cells x') (hy : cells y = cells y') :
    cells (branch side n x y) = cells (branch side n' x' y') := by
  simp only [cells] at hx hy ⊢
  cases side <;> simp [branch, hn, hx, hy]

theorem cells_rotate (side : Side) (g q : Node) (a b c : BinaryTree Node) :
    cells (branch side g (branch side q a b) c) = cells (branch side q a (branch side g b c)) :=
  congrArg (List.map _) (inorder_rotate side g q a b c)

theorem cells_rotate2 (side : Side) (g q n : Node) (a x y u : BinaryTree Node) :
    cells (branch side g (branch side q a (branch side n x y)) u) =
      cells (branch side n (branch side q a x) (branch side g y u)) :=
  congrArg (List.map _) (inorder_rotate2 side g q n a x y u)

/-- The fix-up changes no value and no address. -/
theorem cells_addFix (path : List (Frame Node)) (t : BinaryTree Node) :
    cells (addFix path t) = cells (plug path t) := by
  induction path using List.twoStepInduction generalizing t with
  | nil => rfl
  | singleton f => rfl
  | cons_cons f f' path ih =>
    obtain ⟨side', p, b⟩ := f
    obtain ⟨side, g, u⟩ := f'
    cases hp : p.color with
    | black => rw [addFix_black hp]
    | red =>
      cases t with
      | nil => simp [addFix]
      | node n l r =>
        simp only [plug]
        cases hu : isRed Node.color u with
        | true =>
          rw [addFix_recolour hp hu rfl, ih]
          exact cells_plug_congr path (cells_branch_congr rfl (cells_branch_congr rfl rfl rfl)
            (cells_paint _ _))
        | false =>
          by_cases hSide : side' = side
          · subst hSide
            rw [addFix_outer hp hu rfl]
            apply cells_plug_congr path
            rw [← cells_rotate]
            exact cells_branch_congr rfl (cells_branch_congr rfl rfl rfl) rfl
          · obtain rfl := Side.eq_other hSide
            obtain ⟨x, y, hNode⟩ := exists_branch side n l r
            rw [hNode, addFix_inner hp hu, ih]
            apply cells_plug_congr path
            rw [← cells_rotate2, branch_other]
            exact cells_branch_congr rfl (cells_branch_congr rfl rfl (cells_branch_congr rfl rfl rfl)) rfl

/-! ### The loop of `AddFixUp` -/

theorem isRed_plug_cons (f : Frame Node) (path : List (Frame Node)) (t t' : BinaryTree Node) :
    isRed Node.color (plug (f :: path) t) = isRed Node.color (plug (f :: path) t') := by
  have hRed : ∀ t : BinaryTree Node, isRed Node.color t =
      (root? t).any fun n => n.color = .red := by
    intro t
    cases t <;> rfl
  rw [hRed, hRed, root?_plug_cons f path t t']

/-- The loop stops below a black node. -/
theorem Rep.pass_stop (h : Rep s (plug path t)) (ht : root? t = some n)
    (hBlack : ∀ f ∈ path.head?, f.parent.color = .black) :
    Loop.Ends RbTree.addFixUpPass (s, n.addr) (s.root.map fun root => s.setColor root .black) := by
  have hUp : (s.p n.addr).filter (fun p => s.color p = .red) = none := by
    cases t with
    | nil => cases ht
    | node m l r =>
      obtain rfl := Option.some.inj ht
      rw [(h.reads .left).1]
      cases path with
      | nil => rfl
      | cons f path =>
        have hPlug : Rep s (plug path (branch f.side f.parent (.node m l r) f.sibling)) := h
        have hColor := (hPlug.reads f.side).2.2.2.2
        simp [Option.filter, hColor, hBlack f rfl]
  have hPass : RbTree.addFixUpPass (s, n.addr) =
      .leave [] (s.root.map fun root => s.setColor root .black) := by
    simp only [RbTree.addFixUpPass, hUp]
  exact (Loop.ends_leave hPass).mpr rfl

theorem addFixUp_halves {c : Prop} [Decidable c] {newNode p gp : Addr} (h : c ↔ side = .left) :
    (if c then RbTree.addFixUpHalf .left RbTree.ll RbTree.lr s newNode p gp
      else RbTree.addFixUpHalf .right RbTree.rr RbTree.rl s newNode p gp) =
      RbTree.addFixUpHalf side (RbTree.rotate side) (RbTree.rotate2 side) s newNode p gp := by
  cases side with
  | left => exact if_pos (h.mpr rfl)
  | right => exact if_neg fun hc => by cases h.mp hc

/-- Below a red node the loop takes one of its halves. -/
theorem Rep.pass_half {side' : Side}
    (h : Rep s (plug (⟨side', p, b⟩ :: ⟨side, g, u⟩ :: path) t)) (ht : root? t = some n)
    (hp : p.color = .red) {next : RbTree × Addr}
    (hHalf : RbTree.addFixUpHalf side (RbTree.rotate side) (RbTree.rotate2 side) s n.addr p.addr
      g.addr = some next) : RbTree.addFixUpPass (s, n.addr) = .again [] next := by
  have hg : Rep s (plug path (branch side g (branch side' p t b) u)) := h
  have hp' : Rep s (plug (⟨side, g, u⟩ :: path) (branch side' p t b)) := h
  obtain ⟨hpUp, -, -, -, hpColor⟩ := hp'.reads side'
  have hUp : s.p n.addr = some p.addr := by
    cases t with
    | nil => cases ht
    | node m l r =>
      obtain rfl := Option.some.inj ht
      exact (h.reads .left).1
  have hFilter : (s.p n.addr).filter (fun p => s.color p = .red) = some p.addr := by
    simp [hUp, Option.filter, hpColor, hp]
  have hSide : some p.addr = s.child .left g.addr ↔ side = .left := by
    rw [eq_comm, hg.child_eq (root?_branch side' p t b), eq_comm]
  simp only [RbTree.addFixUpPass, hFilter, hpUp, above?_cons, Option.map_some, Option.bind_some,
    addFixUp_halves hSide, hHalf]

/-- The uncle as the loop reads it. -/
theorem Rep.pass_uncle {x : BinaryTree Node} (h : Rep s (plug path (branch side g x u))) :
    (s.child side.other g.addr).filter (fun u => s.color u = .red) =
      if isRed Node.color u then (root? u).map Node.addr else none := by
  have hu : Rep s (plug (⟨side.other, g, x⟩ :: path) u) := by
    rw [plug, branch_other]
    exact h
  rw [(h.reads side).2.2.1, hu.filter_red]

theorem Rep.pass_recolour {side' : Side} {v : Node} {l r : BinaryTree Node}
    (h : Rep s (plug (⟨side', p, b⟩ :: ⟨side, g, .node v l r⟩ :: path) t)) (ht : root? t = some n)
    (hp : p.color = .red) (hv : v.color = .red) :
    ∃ s', RbTree.addFixUpPass (s, n.addr) = .again [] (s', g.addr) ∧
      Rep s' (plug path (branch side (g.paint .red) (branch side' (p.paint .black) t b)
        (.node (v.paint .black) l r))) := by
  have hg : Rep s (plug path (branch side g (branch side' p t b) (.node v l r))) := h
  have hRed : isRed Node.color (.node v l r) = true := by simp [isRed_node, hv]
  have hUncle := hg.pass_uncle
  rw [hRed, if_pos rfl, root?_node, Option.map_some] at hUncle
  refine ⟨((s.setColor p.addr .black).setColor v.addr .black).setColor g.addr .red,
    h.pass_half ht hp ?_, ?_⟩
  · simp only [RbTree.addFixUpHalf, hUncle]
  · have hp₁ : Rep s (plug (⟨side, g, .node v l r⟩ :: path) (branch side' p t b)) := h
    have hv₁ : Rep (s.setColor p.addr .black)
        (plug (⟨side.other, g, branch side' (p.paint .black) t b⟩ :: path) (branch .left v l r)) := by
      rw [plug, branch_other]
      exact hp₁.setColor .black
    have hg₁ : Rep ((s.setColor p.addr .black).setColor v.addr .black)
        (plug path (branch side g (branch side' (p.paint .black) t b)
          (.node (v.paint .black) l r))) := by
      have := hv₁.setColor .black
      rw [plug, branch_other] at this
      exact this
    exact hg₁.setColor .red

theorem Rep.pass_outer (h : Rep s (plug (⟨side, p, b⟩ :: ⟨side, g, u⟩ :: path) t))
    (hSorted : Sorted (plug (⟨side, p, b⟩ :: ⟨side, g, u⟩ :: path) t)) (ht : root? t = some n)
    (hp : p.color = .red) (hu : isRed Node.color u = false) :
    ∃ s', RbTree.addFixUpPass (s, n.addr) = .again [] (s', n.addr) ∧
      Rep s' (plug path (branch side (p.paint .black) t (branch side (g.paint .red) b u))) := by
  have hg : Rep s (plug path (branch side g (branch side p t b) u)) := h
  have hUncle := hg.pass_uncle
  rw [hu, if_neg Bool.false_ne_true] at hUncle
  have hg₁ : Rep (s.setColor g.addr .red)
      (plug (⟨side, g.paint .red, u⟩ :: path) (branch side p t b)) := hg.setColor .red
  have hp₁ : Rep ((s.setColor g.addr .red).setColor p.addr .black)
      (plug path (branch side (g.paint .red) (branch side (p.paint .black) t b) u)) :=
    hg₁.setColor .black
  have hSon : some n.addr = s.child side p.addr := by
    have hp' : Rep s (plug (⟨side, g, u⟩ :: path) (branch side p t b)) := h
    exact ((hp'.child_eq ht side).mpr rfl).symm
  obtain ⟨s', hRotate, hRep⟩ := hp₁.rotate (hSorted.congr (cells_plug_congr path
    (cells_branch_congr rfl (cells_branch_congr rfl rfl rfl) rfl)))
  refine ⟨_, h.pass_half ht hp ?_, hRep⟩
  simp only [Node.paint_addr] at hRotate
  simp only [RbTree.addFixUpHalf, hUncle, RbTree.setColor_child, ← hSon, if_true, hRotate,
    Option.bind_eq_bind, Option.bind_some, Node.paint_addr]

theorem Rep.pass_inner
    (h : Rep s (plug (⟨side.other, p, b⟩ :: ⟨side, g, u⟩ :: path) (branch side n x y)))
    (hSorted : Sorted (plug (⟨side.other, p, b⟩ :: ⟨side, g, u⟩ :: path) (branch side n x y)))
    (hp : p.color = .red) (hu : isRed Node.color u = false) :
    ∃ s', RbTree.addFixUpPass (s, n.addr) = .again [] (s', n.addr) ∧
      Rep s' (plug path (branch side (n.paint .black) (branch side p b x)
        (branch side (g.paint .red) y u))) := by
  have hg : Rep s (plug path (branch side g (branch side.other p (branch side n x y) b) u)) := h
  have hUncle := hg.pass_uncle
  rw [hu, if_neg Bool.false_ne_true] at hUncle
  have hn₁ : Rep (s.setColor g.addr .red)
      (plug (⟨side.other, p, b⟩ :: ⟨side, g.paint .red, u⟩ :: path) (branch side n x y)) :=
    hg.setColor .red
  have hg₁ : Rep ((s.setColor g.addr .red).setColor n.addr .black) (plug path
      (branch side (g.paint .red) (branch side p b (branch side (n.paint .black) x y)) u)) := by
    have := hn₁.setColor .black
    rw [plug, plug, branch_other] at this
    exact this
  have hSon : some n.addr ≠ s.child side p.addr := by
    have hp' : Rep s (plug (⟨side, g, u⟩ :: path) (branch side.other p (branch side n x y) b)) := h
    intro hEq
    exact side.ne_other ((hp'.child_eq (root?_branch side n x y) side).mp hEq.symm)
  obtain ⟨s', hRotate, hRep⟩ := hg₁.rotate2 (hSorted.congr (cells_plug_congr path (by
    simp only [branch_other]
    exact cells_branch_congr rfl (cells_branch_congr rfl rfl (cells_branch_congr rfl rfl rfl)) rfl)))
  refine ⟨_, h.pass_half (root?_branch side n x y) hp ?_, hRep⟩
  simp only [Node.paint_addr] at hRotate
  simp only [RbTree.addFixUpHalf, hUncle, RbTree.setColor_child, hSon, if_false, hRotate,
    Option.bind_eq_bind, Option.bind_some, Node.paint_addr]

/-- The loop of `AddFixUp` runs to its end and makes of the tree what `addFix` does; a red node is
never its root, so that it has a parent. -/
theorem Rep.addFix (h : Rep s (plug path t)) (hSorted : Sorted (plug path t)) (ht : root? t = some n)
    (hBlack : path ≠ [] → isRed Node.color (plug path t) = false) :
    ∃ s', Rep s' (RBTree.addFix path t) ∧ Loop.Ends RbTree.addFixUpPass (s, n.addr)
      (s'.root.map fun root => s'.setColor root .black) := by
  induction path using List.twoStepInduction generalizing s t n with
  | nil => exact ⟨s, h, h.pass_stop ht (by simp)⟩
  | singleton f =>
    refine ⟨s, h, h.pass_stop ht fun f' hf => ?_⟩
    obtain rfl := Option.some.inj hf
    have hNot := hBlack (List.cons_ne_nil f [])
    rw [plug, plug, isRed_branch, decide_eq_false_iff_not] at hNot
    exact Color.ne_red.mp hNot
  | cons_cons f f' path ih =>
    obtain ⟨side', p, b⟩ := f
    obtain ⟨side, g, u⟩ := f'
    -- whatever the pass does below the hole of `path`, the root stays black
    have hBlack' : ∀ t' : BinaryTree Node, path ≠ [] → isRed Node.color (plug path t') = false := by
      intro t' hPath
      obtain ⟨f₀, path', rfl⟩ := List.exists_cons_of_ne_nil hPath
      rw [isRed_plug_cons f₀ path' t' (branch side g (branch side' p t b) u)]
      exact hBlack (List.cons_ne_nil _ _)
    cases hp : p.color with
    | black =>
      rw [addFix_black hp]
      refine ⟨s, h, h.pass_stop ht fun f hf => ?_⟩
      obtain rfl := Option.some.inj hf
      exact hp
    | red =>
      have hCells := cells_addFix (⟨side', p, b⟩ :: ⟨side, g, u⟩ :: path) t
      cases hu : isRed Node.color u with
      | true =>
        rw [addFix_recolour hp hu ht] at hCells ⊢
        cases u with
        | nil => cases hu
        | node v l r =>
          obtain ⟨s₁, hPass, hRep⟩ := h.pass_recolour ht hp (by simpa [isRed_node] using hu)
          rw [cells_addFix] at hCells
          obtain ⟨s', hRep', hEnds⟩ :=
            ih hRep (hSorted.congr hCells.symm) (root?_branch ..) (hBlack' _)
          exact ⟨s', hRep', (Loop.ends_again hPass).mpr hEnds⟩
      | false =>
        by_cases hSide : side' = side
        · subst hSide
          rw [addFix_outer hp hu ht]
          obtain ⟨s', hPass, hRep⟩ := h.pass_outer hSorted ht hp hu
          have hStop : Rep s' (plug
              (⟨side', p.paint .black, branch side' (g.paint .red) b u⟩ :: path) t) := hRep
          refine ⟨s', hRep, (Loop.ends_again hPass).mpr (hStop.pass_stop ht fun f hf => ?_)⟩
          obtain rfl := Option.some.inj hf
          rfl
        · obtain rfl := Side.eq_other hSide
          cases t with
          | nil => cases ht
          | node m l r =>
            obtain rfl := Option.some.inj ht
            obtain ⟨x, y, hNode⟩ := exists_branch side m l r
            rw [hNode] at h hSorted hCells ⊢
            rw [addFix_inner hp hu] at hCells ⊢
            obtain ⟨s₁, hPass, hRep⟩ := h.pass_inner hSorted hp hu
            rw [cells_addFix] at hCells
            obtain ⟨s', hRep', hEnds⟩ :=
              ih hRep (hSorted.congr hCells.symm) (root?_branch ..) (hBlack' _)
            exact ⟨s', hRep', (Loop.ends_again hPass).mpr hEnds⟩

/-- `AddFixUp` ends with the root painted black. -/
theorem Rep.addFixUp (h : Rep s (plug path t)) (hSorted : Sorted (plug path t))
    (ht : root? t = some n) (hBlack : path ≠ [] → isRed Node.color (plug path t) = false) :
    ∃ s', Rep s' (paint .black (RBTree.addFix path t)) ∧
      Loop.Returns (fun fuel => s.addFixUp fuel n.addr) (some s') := by
  obtain ⟨s', hRep, hEnds⟩ := h.addFix hSorted ht hBlack
  have hRoot := hRep.root
  cases hTree : RBTree.addFix path t with
  | nil =>
    have hCells := cells_addFix path t
    have hIn : n ∈ inorder (plug path t) := mem_plug.mpr (.inl (mem_root? ht))
    rw [hTree, cells, cells, inorder_nil, List.map_nil, eq_comm, List.map_eq_nil_iff] at hCells
    rw [hCells] at hIn
    cases hIn
  | node r l' r' =>
    rw [hTree] at hRep hRoot
    have hRep' : Rep s' (plug [] (branch .left r l' r')) := hRep
    refine ⟨s'.setColor r.addr .black, hRep'.setColor .black, ?_⟩
    rw [hRoot] at hEnds
    exact hEnds

end DemoCode.RBTree
