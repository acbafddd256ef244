import DemoCode.AVLTree.AddNode
import DemoCode.Lib.AvlErase

/-! `DelNode` and `DelNode_re` against the deletion from a tree, and when they keep it balanced. -/

namespace DemoCode.AVLTree

open Trees Avl

variable {s s' : AvlTree} {side : Side} {a b : Addr} {l r x y t t' : BinaryTree Addr}
  {path : List (Frame Addr)} {val : Int}

theorem reads_del (s : AvlTree) : Reads AvlTree.delOuter wide s := by
  intro side q x y h side'
  obtain ⟨⟨hx, hy⟩, -⟩ := part_iff.mp h
  rw [AvlTree.delOuter, wide]
  by_cases hSame : side' = side
  · rw [hSame, hx, part_branch]
  · rw [Side.eq_other hSame, hy, part_other_branch]

/-! ### The node that comes in another's place -/

theorem lies_setChild {p : Option Addr} (h : Lies s.child t) (ha : a ∉ inorder t) :
    Lies (s.setChild side a p).child t :=
  h.congr fun _ hb _ => s.setChild_ne p fun hEq => ha (hEq ▸ hb)

/-- A node below which a left subtree lies is given a right one. -/
theorem lies_place {p : Option Addr} (hl : Lies s.child l) (hr : Lies s.child r) (hal : a ∉ inorder l)
    (har : a ∉ inorder r) (hLeft : s.child .left a = root? l) (hRight : p = root? r) :
    Lies (s.setChild .right a p).child (.node a l r) := by
  have hSide : (s.setChild .right a p).child .left a = s.child .left a := s.setChild_side p (by decide)
  exact ⟨hSide.trans hLeft, (s.setChild_self p).trans hRight, lies_setChild hl hal, lies_setChild hr har⟩

/-- The loop ends at the last node; where it has made a pass, the node before is linked so that it can be
taken out. -/
theorem ends_last (h : Lies s.child (.node b x y)) (hNodup : (inorder (.node b x y)).Nodup) (pre : Addr) :
    ∃ pre', Loop.Ends s.lastPass (pre, b) (pre', last b y) ∧ (y = .nil → pre' = pre) ∧
      (y ≠ .nil → pre' ∈ inorder (.node b x y) ∧
        Lies (s.setChild .right pre' (s.child .left (last b y))).child (removeLast (.node b x y))) := by
  induction y generalizing b x pre with
  | nil =>
    have hPass : s.lastPass (pre, b) = .leave [] (pre, b) := by
      simp only [AvlTree.lastPass, h.2.1, root?_nil]
    exact ⟨pre, (Loop.ends_leave hPass).mpr rfl, fun _ => rfl, fun hNe => absurd rfl hNe⟩
  | node b' x' y' _ ih =>
    obtain ⟨hLeft, hRight, hx, hy⟩ := h
    have hApart : Apart b x (.node b' x' y') := (nodup_node.mp hNodup).1
    have hNodup' := (nodup_node.mp hNodup).2.2
    have hPass : s.lastPass (pre, b) = .again [] (b, b') := by
      simp only [AvlTree.lastPass, hRight, root?_node]
    obtain ⟨pre', hEnds, hFirst, hRest⟩ := ih hy hNodup' b
    refine ⟨pre', (Loop.ends_again hPass).mpr hEnds, fun hNil => absurd hNil (by simp), fun _ => ?_⟩
    by_cases hNil : y' = .nil
    · obtain rfl := hFirst hNil
      subst hNil
      refine ⟨by simp, lies_place hx hy.2.2.1 hApart.left ?_ hLeft hy.1⟩
      exact fun hIn => hApart.right (List.mem_append_left _ hIn)
    · obtain ⟨hIn, hLies⟩ := hRest hNil
      have hNe : b ≠ pre' := fun hEq => hApart.right (hEq ▸ hIn)
      refine ⟨List.mem_append_right _ (List.mem_cons_of_mem _ hIn), ?_, ?_, lies_setChild hx ?_, hLies⟩
      · exact (s.setChild_ne _ hNe).trans hLeft
      · rw [removeLast_node hNil]
        exact (s.setChild_ne _ hNe).trans hRight
      · exact fun hIn' => hApart.disjoint pre' hIn' hIn

/-- What is left of a node's two subtrees, when it has been taken out. -/
structure Replaced (s : AvlTree) (a : Addr) (l r : BinaryTree Addr) (s' : AvlTree) : Prop where
  part : Part s' (without l r)
  relinks : Relinks (inorder (.node a l r)) (s.delete a) s'
  root : s'.root = s.root

/-- The part that all ways of taking out a node share. -/
theorem Part.replaced (h : Part s (.node a l r)) (hLies : Lies s'.child (without l r))
    (hRelinks : Relinks (inorder (.node a l r)) (s.delete a) s') (hRoot : s'.root = s.root) :
    Replaced s a l r s' := by
  have hPerm : (inorder (.node a l r)).Perm (a :: inorder (without l r)) := by
    rw [inorder_without]
    exact List.perm_middle
  obtain ⟨hNot, hNodup⟩ := List.nodup_cons.mp (hPerm.nodup_iff.mp h.nodup)
  refine ⟨⟨hLies, hNodup, fun b hb => ?_⟩, hRelinks, hRoot⟩
  rw [hRelinks.live]
  refine Finset.mem_erase.mpr ⟨?_, h.live b (hPerm.mem_iff.mpr (List.mem_cons_of_mem _ hb))⟩
  rintro rfl
  exact hNot hb

theorem Relinks.delete {as : List Addr} (h : Relinks as s s') (a : Addr) :
    Relinks as (s.delete a) (s'.delete a) :=
  ⟨h.val, congrArg (Finset.erase · a) h.live, h.child⟩

theorem Part.replace (h : Part s (.node a (.node b x y) r)) (hr : r ≠ .nil) (pre : Addr) :
    ∃ s', Loop.Settles (fun fuel => s.replace fuel a b pre) (s', last b y) ∧
      Replaced s a (.node b x y) r s' := by
  obtain ⟨hLeft, hRight, hl, hLr⟩ := h.lies
  have hApart : Apart a (.node b x y) r := (nodup_node.mp h.nodup).1
  have hNodup := (nodup_node.mp h.nodup).2.1
  have hWithout : without (.node b x y) r = .node (last b y) (removeLast (.node b x y)) r :=
    without_node (a := a) (by simp) hr
  by_cases hNil : y = .nil
  · subst hNil
    have hNot : b ∉ inorder x := (nodup_node.mp hNodup).1.left
    have hb : b ∈ inorder (.node a (.node b x .nil) r) := by simp
    refine ⟨(s.setChild .right b (s.child .right a)).delete a, ⟨0, fun _ _ => if_pos hl.2.1⟩,
      h.replaced ?_ ((relinks_setChild s .right hb _).delete a) rfl⟩
    rw [hWithout]
    exact lies_place hl.2.2.1 hLr hNot (hApart.disjoint b (by simp)) hl.1 hRight
  · obtain ⟨pre', hEnds, -, hRest⟩ := ends_last hl hNodup pre
    obtain ⟨hIn, hLies⟩ := hRest hNil
    obtain ⟨out, hLoop⟩ := hEnds.settles
    have hInorder := inorder_removeLast (a := a) (t := .node b x y) (by simp)
    have hp : last b y ∈ inorder (.node b x y) := hInorder ▸ List.mem_append_right _ (by simp [last])
    have hNot : last b y ∉ inorder (removeLast (.node b x y)) := by
      rw [← hInorder] at hNodup
      exact fun hMem => (List.nodup_append.mp hNodup).2.2 _ hMem _ (List.mem_singleton_self _) rfl
    have hNe : a ≠ pre' := fun hEq => hApart.left (hEq ▸ hIn)
    have hMem : ∀ c ∈ inorder (.node b x y), c ∈ inorder (.node a (.node b x y) r) := fun c hc => by
      rw [inorder_node]
      exact List.mem_append_left _ hc
    -- the memory behind the three assignments
    obtain ⟨s₁, hs₁⟩ : ∃ s₁, s₁ = s.setChild .right pre' (s.child .left (last b y)) := ⟨_, rfl⟩
    rw [← hs₁] at hLies
    have hChild : s₁.child .left a = some b ∧ s₁.child .right a = root? r := by
      rw [hs₁]
      exact ⟨(s.setChild_side _ (by decide)).trans hLeft, (s.setChild_ne _ hNe).trans hRight⟩
    have hRelinks : Relinks (inorder (.node a (.node b x y) r)) s s₁ :=
      hs₁ ▸ relinks_setChild s .right (hMem pre' hIn) _
    obtain ⟨s₂, hs₂⟩ : ∃ s₂, s₂ = s₁.setChild .left (last b y) (s₁.child .left a) := ⟨_, rfl⟩
    have hRelinks' : Relinks (inorder (.node a (.node b x y) r)) s s₂ :=
      hs₂ ▸ hRelinks.trans (relinks_setChild s₁ .left (hMem _ hp) _)
    refine ⟨(s₂.setChild .right (last b y) (s₂.child .right a)).delete a, ?_, h.replaced ?_
      ((hRelinks'.trans (relinks_setChild s₂ .right (hMem _ hp) _)).delete a) ?_⟩
    · have hMore : s.child .right b ≠ none := fun hNone => hNil (root?_eq_none.mp (hl.2.1.symm.trans hNone))
      subst hs₂ hs₁
      simp only [AvlTree.replace, if_neg hMore]
      exact hLoop.bind (Loop.settles_const _)
    · have hNe' : a ≠ last b y := fun hEq => hApart.left (hEq ▸ hp)
      have hLast : Lies s₂.child (removeLast (.node b x y)) := hs₂ ▸ lies_setChild hLies hNot
      have hRest : Lies s₂.child r := by
        rw [hs₂]
        refine lies_setChild ?_ (hApart.disjoint _ hp)
        rw [hs₁]
        exact lies_setChild hLr (hApart.disjoint _ hIn)
      have hTop : s₂.child .left (last b y) = root? (removeLast (.node b x y)) := by
        rw [removeLast_node hNil, root?_node, hs₂, AvlTree.setChild_self]
        exact hChild.1
      have hRight' : s₂.child .right a = root? r := by
        rw [hs₂, s₁.setChild_ne _ hNe']
        exact hChild.2
      rw [hWithout]
      exact lies_place hLast hRest hNot (hApart.disjoint _ hp) hTop hRight'
    · rw [hs₂, hs₁]
      rfl

theorem Part.delete (h : Part s (.node a l r)) (hNil : l = .nil ∨ r = .nil) :
    Replaced s a l r (s.delete a) := by
  refine h.replaced ?_ (Relinks.refl _ _) rfl
  obtain ⟨-, -, hl, hr⟩ := h.lies
  rcases hNil with rfl | rfl
  · exact hr
  · rw [without_nil]
    exact hl

/-! ### The recursive version -/

theorem delNodeRe_go (h : towards s.val val a = some side) (fuel : ℕ) :
    s.delNodeRe (fuel + 1) (some a) val =
      (s.delNodeRe fuel (s.child side a) val).bind fun x =>
        ((x.1.setChild side a x.2).adjustRe side.other (AvlTree.rotate side.other)
          (AvlTree.rotate2 side.other) AvlTree.delOuter fuel a).bind fun y => some (y.1, some y.2) := by
  rw [AvlTree.delNodeRe]
  cases side with
  | left =>
    have hLess := towards_left.mp h
    rw [if_neg hLess.not_gt, if_pos hLess]
    rfl
  | right =>
    rw [if_pos (towards_right.mp h)]
    rfl

theorem delNodeRe_stop (h : s.val a = val) (fuel : ℕ) : s.delNodeRe (fuel + 1) (some a) val =
    match s.child .left a, s.child .right a with
    | none, r => some (s.delete a, r)
    | some l, none => some (s.delete a, some l)
    | some l, some _ => (s.replace fuel a l a).map fun x => (x.1, some x.2) := by
  rw [AvlTree.delNodeRe]
  exact (if_neg (h ▸ lt_irrefl _)).trans (if_neg (h ▸ lt_irrefl _))

/-- The memory without a node that was found. -/
def AvlTree.without (s : AvlTree) : Option Addr → AvlTree
  | none => s
  | some a => s.delete a

@[simp] theorem without_val (o : Option Addr) : (s.without o).val = s.val := by
  cases o <;> rfl

@[simp] theorem without_child (o : Option Addr) : (s.without o).child = s.child := by
  cases o <;> rfl

theorem find?_mem (h : find? (towards s.val val) t = some a) : a ∈ inorder t := by
  have hPerm := inorder_erase_perm (towards s.val val) t
  rw [h] at hPerm
  exact hPerm.mem_iff.mpr (by simp)

theorem erase_subset (h : a ∈ inorder (erase (towards s.val val) t)) : a ∈ inorder t :=
  (inorder_erase_perm (towards s.val val) t).mem_iff.mpr (List.mem_append_right _ h)

theorem Relinks.without_live {as : List Addr} {o : Option Addr} (h : Relinks as (s.without o) s')
    (ha : a ∈ s.live) (hNot : o ≠ some a) : a ∈ s'.live := by
  rw [h.live]
  cases o with
  | none => exact ha
  | some b => exact Finset.mem_erase.mpr ⟨fun hEq => hNot (hEq ▸ rfl), ha⟩

/-- The node that is found is taken out. -/
theorem Part.delNodeRe_stop (h : Part s (.node a l r)) (hVal : s.val a = val) :
    ∃ s', Loop.Settles (fun fuel => s.delNodeRe fuel (some a) val) (s', root? (Avl.without l r)) ∧
      Replaced s a l r s' := by
  obtain ⟨hLeft, hRight, -⟩ := h.lies
  cases l with
  | nil =>
    refine ⟨s.delete a, (Loop.settles_const _).succ fun fuel => ?_, h.delete (.inl rfl)⟩
    rw [AVLTree.delNodeRe_stop hVal, hLeft, hRight]
    rfl
  | node b x y =>
    cases r with
    | nil =>
      refine ⟨s.delete a, (Loop.settles_const _).succ fun fuel => ?_, h.delete (.inr rfl)⟩
      rw [AVLTree.delNodeRe_stop hVal, hLeft, hRight]
      rfl
    | node c z w =>
      obtain ⟨s', hReplace, hReplaced⟩ := h.replace (by simp) a
      refine ⟨s', (hReplace.map fun x => (x.1, some x.2)).succ fun fuel => ?_, hReplaced⟩
      rw [AVLTree.delNodeRe_stop hVal, hLeft, hRight]
      rfl

theorem Part.delNodeRe (h : Part s t) (val : Int) :
    ∃ s', Loop.Settles (fun fuel => s.delNodeRe fuel (root? t) val)
        (s', root? (erase (towards s.val val) t)) ∧
      Part s' (erase (towards s.val val) t) ∧
      Relinks (inorder t) (s.without (find? (towards s.val val) t)) s' ∧ s'.root = s.root := by
  induction t using way_induction (towards s.val val) with
  | nil => exact ⟨s, (Loop.settles_const _).succ fun fuel => rfl, h, Relinks.refl _ _, rfl⟩
  | stop a l r hStop =>
    obtain ⟨s', hCall, hReplaced⟩ := h.delNodeRe_stop (towards_none.mp hStop)
    rw [erase, find?, hStop]
    exact ⟨s', hCall, hReplaced.part, hReplaced.relinks, hReplaced.root⟩
  | go side a x y hSide ih =>
    obtain ⟨⟨hChild, -⟩, -, hApart, hx, -⟩ := part_iff.mp h
    obtain ⟨s₁, hCall, hPart, hRelinks, hRoot⟩ := ih hx
    have ha : a ∈ inorder (branch side a x y) := mem_branch.mpr (.inl rfl)
    have hIn : ∀ b ∈ inorder x, b ∈ inorder (branch side a x y) := fun b hb =>
      mem_branch.mpr (.inr (.inl hb))
    have hApart' : Apart a (erase (towards s.val val) x) y := hApart.mono fun b => erase_subset
    have hKeep : ∀ b ∈ inorder (branch side a x y), b ∉ inorder x →
        ∀ side', s₁.child side' b = s.child side' b := fun b _ hNot side' => by
      rw [hRelinks.child b hNot, without_child]
    have hIn' : ∀ b ∈ inorder (branch side a (erase (towards s.val val) x) y),
        b ∈ inorder (branch side a x y) :=
      branch_subset ha (fun b hb => hIn b (erase_subset hb)) fun b hb => mem_branch.mpr (.inr (.inr hb))
    obtain ⟨s', b, hAdjust, hTop, hPart', hRelinks', hRoot'⟩ := h.back hPart hApart' hKeep
      (fun b hb hNot => hRelinks.without_live (h.live b hb) fun hFound => hNot (find?_mem hFound))
      (fun s' _ => reads_del s') (ready_wide side.other _) (hRelinks.mono hIn) hIn'
    rw [erase_branch hSide, find?_branch hSide, branch_other]
    refine ⟨s', ?_, hPart', hRelinks', hRoot'.trans hRoot⟩
    rw [root?_branch, hTop]
    rw [← hChild] at hCall
    exact Loop.Settles.succ (hCall.bind (hAdjust.bind (Loop.settles_const _))) (delNodeRe_go hSide)

theorem Rep.delRe (h : Rep s t) (val : Int) : ∃ s', Loop.Settles (fun fuel => s.delRe fuel val) s' ∧
    Rep s' (erase (towards s.val val) t) ∧ s'.val = s.val := by
  obtain ⟨s', hCall, hPart, hRelinks, -⟩ := h.toPart.delNodeRe val
  rw [← h.root] at hCall
  exact ⟨s'.setRoot (root? (erase (towards s.val val) t)), hCall.map fun x => x.1.setRoot x.2,
    ⟨⟨hPart.lies, hPart.nodup, hPart.live⟩, rfl⟩, hRelinks.val.trans (without_val _)⟩

/-! ### The iterative version -/

/-- What the first loop leaves on the stack, and the link to the node that it has found. -/
def landing : List (Frame Addr) × BinaryTree Addr → List Link × Option Link
  | (path, .nil) => (links path, none)
  | (path, .node _ _ _) => (link path :: links path, some (link path))

theorem Rep.seek (h : Rep s (plug path t)) (val : Int) : Loop.Ends (s.seekPass val) (links path, link path)
    (landing (trail (towards s.val val) path t)) := by
  induction t using way_induction (towards s.val val) generalizing path with
  | nil =>
    have hLoad : s.load (link path) = none := h.load
    have hPass : s.seekPass val (links path, link path) = .leave [] (links path, none) := by
      simp only [AvlTree.seekPass, hLoad]
    exact (Loop.ends_leave hPass).mpr rfl
  | stop a l r hStop =>
    have hLoad : s.load (link path) = some a := h.load
    have hVal : s.val a = val := towards_none.mp hStop
    have hPass : s.seekPass val (links path, link path) =
        .leave [] (link path :: links path, some (link path)) := by
      simp only [AvlTree.seekPass, hLoad, hVal, gt_iff_lt, lt_irrefl, if_false]
    rw [trail, hStop]
    exact (Loop.ends_leave hPass).mpr rfl
  | go side a x y hSide ih =>
    have hLoad : s.load (link path) = some a := h.load.trans (root?_branch side a x y)
    have hPass : s.seekPass val (links path, link path) =
        .again [] (link path :: links path, .field side a) := by
      simp only [AvlTree.seekPass, hLoad]
      cases side with
      | left => rw [if_pos (towards_left.mp hSide)]
      | right =>
        have hLess := towards_right.mp hSide
        rw [if_neg hLess.not_gt, if_pos hLess]
    rw [trail_branch hSide]
    have hRep : Rep s (plug (⟨side, a, y⟩ :: path) x) := h
    exact (Loop.ends_again hPass).mpr (ih hRep)

theorem Rep.of_replaced (h : Rep s (plug path (.node a l r))) (hReplaced : Replaced s a l r s') :
    Rep (s'.store (link path) (root? (Avl.without l r))) (plug path (Avl.without l r)) := by
  have hNodup := (inorder_plug_perm path (.node a l r)).nodup_iff.mp h.nodup
  obtain ⟨-, -, hApart⟩ := List.nodup_append.mp hNodup
  have hOff : ∀ b ∈ rim path, b ∉ inorder (.node a l r) := fun b hb hIn => hApart b hIn b hb rfl
  have hRelinks := hReplaced.relinks
  refine h.store hReplaced.part (fun b hb hIn => hOff b hIn ?_) (fun b hb => hRelinks.child b (hOff b hb))
    (fun b hb => ?_) hReplaced.root
  · rw [inorder_without] at hb
    exact List.perm_middle.mem_iff.mpr (List.mem_cons_of_mem a hb)
  · rw [hRelinks.live]
    refine Finset.mem_erase.mpr ⟨?_, h.live b (mem_plug.mpr (.inr hb))⟩
    rintro rfl
    exact hOff _ hb (by simp)

theorem Replaced.store_val (h : Replaced s a l r s') (pos : Link) (p : Option Addr) :
    (s'.store pos p).val = s.val := by
  have hVal : s'.val = s.val := h.relinks.val
  cases pos with
  | main => exact hVal
  | field _ _ => exact hVal

theorem store_delete (s : AvlTree) (pos : Link) (p : Option Addr) (a : Addr) :
    (s.store pos p).delete a = (s.delete a).store pos p := by
  cases pos <;> rfl

/-- The node behind a link is taken out; the link stays on the stack where there were two subtrees. -/
theorem Rep.unlink (h : Rep s (plug path (.node a l r))) : ∃ s' pathNode,
    Loop.Settles (fun fuel => s.unlink fuel (link path :: links path) (link path)) (s', pathNode) ∧
      Rep s' (plug path (Avl.without l r)) ∧ s'.val = s.val ∧ (pathNode = links path ∨
        pathNode = link path :: links path ∧ Avl.without l r ≠ .nil) := by
  have hLoad := Loop.settles_of_eq h.load
  have hPart : Part s (.node a l r) := h.part
  obtain ⟨hLeft, hRight, -⟩ := hPart.lies
  cases l with
  | nil =>
    have hReplaced := hPart.delete (.inl rfl)
    refine ⟨_, links path, hLoad.bind ?_, h.of_replaced hReplaced, hReplaced.store_val _ _, .inl rfl⟩
    rw [hLeft, hRight, ← store_delete]
    exact Loop.settles_const _
  | node b x y =>
    cases r with
    | nil =>
      have hReplaced := hPart.delete (.inr rfl)
      refine ⟨_, links path, hLoad.bind ?_, h.of_replaced hReplaced, hReplaced.store_val _ _, .inl rfl⟩
      rw [hLeft, hRight, ← store_delete]
      exact Loop.settles_const _
    | node c z w =>
      obtain ⟨s', hReplace, hReplaced⟩ := hPart.replace (by simp) b
      refine ⟨_, link path :: links path, hLoad.bind ?_, h.of_replaced hReplaced, hReplaced.store_val _ _,
        .inr ⟨rfl, ?_⟩⟩
      · rw [hLeft, hRight]
        exact hReplace.map _
      · simp [Avl.without]

theorem Rep.delNode_nil (h : Rep s .nil) (val : Int) : Loop.Settles (fun fuel => s.delNode fuel val) s :=
  ⟨0, fun _ _ => if_pos h.root⟩

theorem Rep.root_ne_none (h : Rep s t) (hNe : t ≠ .nil) : s.root ≠ none :=
  fun hNone => hNe (root?_eq_none.mp (h.root.symm.trans hNone))

/-- Nothing is done where no node is found. -/
theorem Rep.delNode_missing (h : Rep s t) (hNe : t ≠ .nil)
    (hTrail : trail (towards s.val val) [] t = (path, .nil)) :
    Loop.Settles (fun fuel => s.delNode fuel val) s := by
  have hRep : Rep s (plug [] t) := h
  obtain ⟨out, hSeek⟩ := (hRep.seek val).settles
  rw [hTrail] at hSeek
  simp only [AvlTree.delNode, if_neg (h.root_ne_none hNe)]
  exact hSeek.bind (Loop.settles_const s)

/-- The node that is found is taken out, and the nodes above it are turned; so is what has come in its
place where there were two subtrees. -/
theorem Rep.delNode_found (h : Rep s t) (hTrail : trail (towards s.val val) [] t = (path, .node a l r)) :
    ∃ s' u t', Loop.Settles (fun fuel => s.delNode fuel val) s' ∧ Rep s' t' ∧ s'.val = s.val ∧
      (u = Avl.without l r ∨ u = settle wide (Avl.without l r)) ∧ Climbs wide path u t' := by
  have hNe : t ≠ .nil := by
    rintro rfl
    cases hTrail
  have hRep : Rep s (plug [] t) := h
  obtain ⟨out, hSeek⟩ := (hRep.seek val).settles
  have hPlug := plug_trail (towards s.val val) [] t
  rw [hTrail] at hSeek hPlug
  have hFound : Rep s (plug path (.node a l r)) := hPlug.symm ▸ h
  obtain ⟨s₁, pathNode, hUnlink, hRep₁, hVal, hRest⟩ := hFound.unlink
  simp only [AvlTree.delNode, if_neg (h.root_ne_none hNe)]
  rcases hRest with rfl | ⟨rfl, hNotNil⟩
  · obtain ⟨t', hClimbs⟩ := exists_climbs ready_wide path (Avl.without l r)
    obtain ⟨s', hLoop, hRep', hRelinks⟩ := hRep₁.climb hClimbs fun s' _ => reads_del s'
    exact ⟨s', _, t', hSeek.bind (hUnlink.bind hLoop), hRep', hRelinks.val.trans hVal, .inl rfl, hClimbs⟩
  · obtain ⟨t', hClimbs⟩ := exists_climbs ready_wide path (settle wide (Avl.without l r))
    obtain ⟨s₂, hFirst, hRep₂, hRelinks₂⟩ := hRep₁.adjust hNotNil (reads_del s₁) fun _ => ready_wide _ _
    obtain ⟨s', hLoop, hRep', hRelinks⟩ := hRep₂.climb hClimbs fun s' _ => reads_del s'
    exact ⟨s', _, t', hSeek.bind (hUnlink.bind (hFirst.bind hLoop)), hRep',
      hRelinks.val.trans (hRelinks₂.val.trans hVal), .inr rfl, hClimbs⟩

/-- A deletion that keeps the balance leaves the tree that the recursive version leaves. -/
theorem Rep.delNode (h : Rep s t) (hBalanced : Balanced t) (hSafe : Safe (towards s.val val) t) :
    ∃ s', Loop.Settles (fun fuel => s.delNode fuel val) s' ∧ Rep s' (erase (towards s.val val) t) := by
  obtain ⟨⟨path, u⟩, hTrail⟩ : ∃ x, trail (towards s.val val) [] t = x := ⟨_, rfl⟩
  cases u with
  | nil =>
    rw [erase_of_trail hBalanced (congrArg Prod.snd hTrail)]
    refine ⟨s, ?_, h⟩
    by_cases hNil : t = .nil
    · exact (hNil ▸ h).delNode_nil val
    · exact h.delNode_missing hNil hTrail
  | node a l r =>
    obtain ⟨hBalanced', hSafe'⟩ := trail_safe [] hBalanced hSafe
    have hClimbs := Climbs.erase hBalanced hSafe .nil
    rw [hTrail] at hBalanced' hSafe' hClimbs
    have hWay := way_of_trail (congrArg Prod.snd hTrail)
    have hErase : erase (towards s.val val) (.node a l r) = Avl.without l r := by rw [erase, hWay]
    have hStays := (erased_erase hBalanced').balanced.mpr hSafe'
    rw [hErase] at hStays hClimbs
    obtain ⟨s', u, t', hCall, hRep, -, hu, hClimbs'⟩ := h.delNode_found hTrail
    obtain rfl : u = Avl.without l r := by
      rcases hu with rfl | rfl
      · rfl
      · exact settle_of_balanced hStays
    rw [← hClimbs'.unique hClimbs]
    exact ⟨s', hCall, hRep⟩

/-! ### Both versions -/

theorem Rep.unique (h : Rep s t) (h' : Rep s t') : t = t' :=
  h.lies.unique h'.lies (h.root.symm.trans h'.root)

/-- A call returns, without a null pointer dereferenced, and leaves a balanced tree. -/
def KeepsBalance (call : ℕ → Option AvlTree) : Prop :=
  ∃ s' t', Loop.Settles call s' ∧ Rep s' t' ∧ Balanced t'

theorem keepsBalance_delRe (h : Rep s t) (hBalanced : Balanced t) :
    KeepsBalance (fun fuel => s.delRe fuel val) ↔ Safe (towards s.val val) t := by
  obtain ⟨s', hCall, hRep, -⟩ := h.delRe val
  have hErased : Erased _ (Safe (towards s.val val) t) _ _ := erased_erase hBalanced
  constructor
  · rintro ⟨s'', t', hCall', hRep', hBalanced'⟩
    obtain rfl := hCall.unique hCall'
    obtain rfl := hRep.unique hRep'
    exact hErased.balanced.mp hBalanced'
  · intro hSafe
    exact ⟨s', _, hCall, hRep, hErased.balanced.mpr hSafe⟩

/-- **`DelNode` and `DelNode_re`** both keep a balanced tree balanced exactly if the deletion is safe. -/
theorem deletes_balanced_iff (h : Rep s t) (hBalanced : Balanced t) (val : Int) :
    KeepsBalance (fun fuel => s.delNode fuel val) ∧ KeepsBalance (fun fuel => s.delRe fuel val) ↔
      Safe (towards s.val val) t := by
  rw [keepsBalance_delRe h hBalanced, and_iff_right_iff_imp]
  intro hSafe
  obtain ⟨s', hCall, hRep⟩ := h.delNode hBalanced hSafe
  exact ⟨s', _, hCall, hRep, (erased_erase hBalanced).balanced.mpr hSafe⟩

/-- The 30 has an outer child only. -/
theorem deletes_balanced_fifty :
    KeepsBalance (fun fuel => leaning.delNode fuel 50) ∧ KeepsBalance (fun fuel => leaning.delRe fuel 50) :=
  (deletes_balanced_iff rep_leaning (by decide) 50).mpr (by decide)

/-- Without the 5 the left subtree of the 20 is too low, and the inner subtree of the 40, below the 30, is
higher than the outer one: the single rotation that `DelNode` and `DelNode_re` take leaves the 40 with a
left subtree of height 3 and a right one of height 1. -/
theorem deletes_unbalance : ¬∀ (s : AvlTree) (t : BinaryTree Addr) (val : Int), Rep s t →
    Sorted s.val t → Balanced t → KeepsBalance (fun fuel => s.delNode fuel val) ∧
      KeepsBalance (fun fuel => s.delRe fuel val) := by
  intro hKeeps
  have hBalanced : Balanced leaningTree := by decide
  have hSafe := (keepsBalance_delRe rep_leaning hBalanced).mp
    (hKeeps leaning leaningTree 5 rep_leaning (by decide) hBalanced).2
  exact absurd hSafe (by decide)

end DemoCode.AVLTree
