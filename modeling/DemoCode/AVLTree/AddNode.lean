import Mathlib.Data.Finset.Lattice.Fold
import Mathlib.Order.Lattice.Nat
import DemoCode.AVLTree.Adjust
import DemoCode.Lib.AvlTies

/-! `AddNode` and `AddNode_re` against the insertion into a tree, which keeps it balanced. -/

namespace DemoCode.AVLTree

open Trees Avl

variable {s s' : AvlTree} {side : Side} {a : Addr} {as : List Addr} {x y t t' : BinaryTree Addr}
  {path : List (Frame Addr)} {val : Int}

/-- The node that an insertion makes, and the memory then. -/
def AvlTree.fresh (s : AvlTree) (alloc : Allocator) (val : Int) : AvlTree := s.new (alloc.pick s) val

/-- The tree after an insertion. -/
def inserted (alloc : Allocator) (s : AvlTree) (val : Int) (t : BinaryTree Addr) : BinaryTree Addr :=
  insert (towards (s.fresh alloc val).val val) (alloc.pick s) t

theorem reads_add (hVal : s'.val = s.val) :
    Reads (AvlTree.addOuter val) (heads (towards s.val val)) s' := by
  intro side q x y _ side'
  rw [Bool.eq_iff_iff, heads_branch]
  cases side' with
  | left => rw [AvlTree.addOuter, decide_eq_true_iff, towards_left, hVal]
  | right => rw [AvlTree.addOuter, decide_eq_true_iff, towards_right, hVal]

theorem towards_ne_none (h : val ∉ vals s t) (ha : a ∈ inorder t) : towards s.val val a ≠ none := by
  intro hNone
  exact h (List.mem_map.mpr ⟨a, ha, towards_none.mp hNone⟩)

theorem Part.new (h : Part s t) (ha : a ∉ s.live) : Part (s.new a val) t := by
  refine h.congr (fun b hb side => if_neg ?_) fun b hb => Finset.mem_insert_of_mem (h.live b hb)
  rintro rfl
  exact ha (h.live b hb)

theorem part_leaf (s : AvlTree) (a : Addr) (val : Int) : Part (s.new a val) (.node a .nil .nil) :=
  ⟨⟨if_pos rfl, if_pos rfl, trivial, trivial⟩, List.nodup_singleton a, by simp⟩

/-! ### The iterative version -/

/-- The first loop puts the links of the way on the stack. -/
theorem Rep.descend (h : Rep s (plug path t)) (val : Int) :
    Loop.Ends (s.descendPass val) (links path, link path)
      (links (trail (onward (towards s.val val)) path t).1) := by
  induction t using way_induction (onward (towards s.val val)) generalizing path with
  | nil =>
    have hLoad : s.load (link path) = none := h.load
    have hPass : s.descendPass val (links path, link path) = .leave [] (links path) := by
      simp only [AvlTree.descendPass, hLoad]
    exact (Loop.ends_leave hPass).mpr rfl
  | stop a l r hStop => cases hStop
  | go side a x y hSide ih =>
    have hLoad : s.load (link path) = some a := h.load.trans (root?_branch side a x y)
    have hPass : s.descendPass val (links path, link path) =
        .again [] (link path :: links path, .field side a) := by
      simp only [AvlTree.descendPass, hLoad]
      rcases onward_cases hSide with hWay | ⟨hTie, rfl⟩
      · cases side with
        | left => rw [if_pos (towards_left.mp hWay)]
        | right => rw [if_neg (towards_right.mp hWay).not_gt]
      · rw [if_neg (towards_none.mp hTie).not_gt]
    rw [trail_branch hSide]
    have hRep : Rep s (plug (⟨side, a, y⟩ :: path) x) := h
    exact (Loop.ends_again hPass).mpr (ih hRep)

/-- The new leaf is hung below the last node of the way, maybe in the place of something. -/
theorem Rep.linkNode {f : Frame Addr} (h : Rep s (plug (f :: path) .nil))
    (hOn : onward (towards s.val val) f.parent = some f.side) (new : Addr) :
    ∃ f' l, plug (f :: path) .nil = plug (f' :: path) l ∧
      s.linkNode new val (link path) = some (s.store (link (f' :: path)) (some new)) ∧
      hung (towards s.val val) new f = branch f'.side f'.parent (.node new .nil .nil) f'.sibling := by
  have hLoad : s.load (link path) = some f.parent := by
    have hPlug : Rep s (plug path (branch f.side f.parent .nil f.sibling)) := h
    exact hPlug.load.trans (root?_branch _ _ _ _)
  obtain ⟨side, parent, sibling⟩ := f
  rw [AvlTree.linkNode, hLoad]
  rcases onward_cases hOn with hWay | ⟨hTie, hRight⟩
  · refine ⟨⟨side, parent, sibling⟩, .nil, rfl, ?_, ?_⟩
    · cases side with
      | left => exact if_neg (towards_left.mp hWay).not_gt
      | right => exact if_pos (towards_right.mp hWay)
    · simp only [hung, hWay]
  · obtain rfl : side = .right := hRight
    exact ⟨⟨.left, parent, .nil⟩, sibling, rfl, if_neg (towards_none.mp hTie).not_lt,
      by simp only [hung, hTie]; rfl⟩

theorem not_mem_fresh {alloc : Allocator} (h : Part s t) : alloc.pick s ∉ inorder t :=
  fun hIn => alloc.pick_free s (h.live _ hIn)

/-- What is left to do when the new node is linked. -/
theorem Rep.attach {alloc : Allocator} {f : Frame Addr} (h : Rep s t)
    (hTrail : trail (onward (towards (s.fresh alloc val).val val)) [] t = (f :: path, .nil))
    (hOn : onward (towards (s.fresh alloc val).val val) f.parent = some f.side) :
    ∃ s₁, Loop.Ultimately (fun fuel => s.addNode alloc fuel val)
        (fun fuel => (links path).foldlM (AvlTree.adjust (AvlTree.addOuter val) fuel) s₁) ∧
      Rep s₁ (plug path (hung (towards (s.fresh alloc val).val val) (alloc.pick s) f)) ∧
      Relinks (inorder t) (s.fresh alloc val) s₁ := by
  have hFresh : alloc.pick s ∉ inorder t := not_mem_fresh h.toPart
  have hLeaf := part_leaf s (alloc.pick s) val
  have hNil : t ≠ .nil := by
    rintro rfl
    cases hTrail
  have hRoot : (s.new (alloc.pick s) val).root ≠ none := fun hNone =>
    hNil (root?_eq_none.mp (h.root.symm.trans hNone))
  have hRep : Rep (s.fresh alloc val) (plug [] t) := ⟨h.toPart.new (alloc.pick_free s), h.root⟩
  have hPlug := plug_trail (onward (towards (s.fresh alloc val).val val)) [] t
  -- the links of the way, and the new node below the last one
  obtain ⟨out, hDescend⟩ := (hRep.descend val).settles
  rw [hTrail] at hPlug hDescend
  have hHole : Rep (s.fresh alloc val) (plug (f :: path) .nil) := hPlug.symm ▸ hRep
  obtain ⟨f', l, hSame, hLink, hHung⟩ := hHole.linkNode hOn (alloc.pick s)
  have hPlug' : plug (f' :: path) l = t := hSame.symm.trans hPlug
  have hHole' : Rep (s.fresh alloc val) (plug (f' :: path) l) := hPlug'.symm ▸ hRep
  have hRim : ∀ a ∈ rim (f' :: path), a ∈ inorder t := fun a ha =>
    hPlug' ▸ mem_plug.mpr (.inr ha)
  have hLinked := hHole'.store hLeaf (fun a ha ha' => hFresh (List.mem_singleton.mp ha ▸ hRim a ha'))
    (fun _ _ _ => rfl) (fun a ha => hHole'.live a (hPlug'.symm ▸ hRim a ha)) rfl
  have hTop : (links (f :: path)).head? = some (link path) := rfl
  refine ⟨(s.fresh alloc val).store (link (f' :: path)) (some (alloc.pick s)), ?_, ?_,
    (relinks_store (s.fresh alloc val) (f' :: path) (some (alloc.pick s))).mono hRim⟩
  · simp only [AvlTree.addNode, if_neg hRoot]
    refine (hDescend.ultimately _).trans (((Loop.settles_of_eq hTop).ultimately _).trans ?_)
    exact (Loop.settles_of_eq hLink).ultimately _
  · rw [hHung]
    exact hLinked

/-- With ties on the way, but no rotation that misses a node. -/
theorem Rep.addNode_tied {alloc : Allocator} (h : Rep s t) (hBalanced : Balanced t)
    (hSafe : stranded (towards (s.fresh alloc val).val val) t = false) :
    ∃ s', Loop.Settles (fun fuel => s.addNode alloc fuel val) s' ∧
      Rep s' (insertTied (towards (s.fresh alloc val).val val) (alloc.pick s) t) ∧
      Relinks (alloc.pick s :: inorder t) (s.fresh alloc val) s' := by
  have hLeaf := part_leaf s (alloc.pick s) val
  by_cases hNil : t = .nil
  · subst hNil
    have hRoot : s.root = none := h.root
    refine ⟨(s.fresh alloc val).setRoot (some (alloc.pick s)), ⟨0, fun _ _ => if_pos hRoot⟩,
      ⟨⟨hLeaf.lies, hLeaf.nodup, hLeaf.live⟩, rfl⟩, rfl, rfl, fun _ _ _ => rfl⟩
  · obtain ⟨f, path, hTrail, hOn, hClimbs⟩ := Climbs.insertTied hBalanced hNil hSafe
      (Climbs.nil (t := insertTied (towards (s.fresh alloc val).val val) (alloc.pick s) t))
    obtain ⟨s₁, hCall, hRep, hRelinks⟩ := h.attach hTrail hOn
    obtain ⟨s', hLoop, hRep', hRelinks'⟩ := hRep.climb hClimbs fun s' hVal =>
      reads_add (hVal.trans hRelinks.val)
    refine ⟨s', hCall.settles hLoop, hRep', ?_⟩
    refine (hRelinks.mono fun a ha => List.mem_cons_of_mem _ ha).trans (hRelinks'.mono fun a ha => ?_)
    rw [← hClimbs.inorder_eq] at ha
    have hPerm := perm_insertTied (towards (s.fresh alloc val).val val) (alloc.pick s) t
    exact hPerm.mem_iff.mpr (List.mem_append_right _ ha)

theorem Rep.addNode {alloc : Allocator} (h : Rep s t) (hBalanced : Balanced t)
    (hNew : val ∉ vals (s.fresh alloc val) t) :
    ∃ s', Loop.Settles (fun fuel => s.addNode alloc fuel val) s' ∧ Rep s' (inserted alloc s val t) ∧
      Relinks (alloc.pick s :: inorder t) (s.fresh alloc val) s' := by
  have hWay := fun a (ha : a ∈ inorder t) => towards_ne_none hNew ha
  rw [inserted, ← insertTied_eq_insert hWay]
  exact h.addNode_tied hBalanced (not_stranded hWay)

/-! ### The recursive version -/

theorem addNodeRe_go {alloc : Allocator} (h : towards s.val val a = some side) (fuel : ℕ) :
    s.addNodeRe alloc (fuel + 1) (some a) val =
      (s.addNodeRe alloc fuel (s.child side a) val).bind fun x =>
        ((x.1.setChild side a x.2).adjustRe side (AvlTree.rotate side) (AvlTree.rotate2 side)
          (AvlTree.addOuter val) fuel a).bind fun y => some (y.1, some y.2) := by
  rw [AvlTree.addNodeRe]
  cases side with
  | left =>
    have hLess := towards_left.mp h
    rw [if_neg hLess.not_gt, if_pos hLess]
    rfl
  | right =>
    rw [if_pos (towards_right.mp h)]
    rfl

theorem mem_inserted {alloc : Allocator} (hNew : val ∉ vals (s.fresh alloc val) t) :
    a ∈ inorder (inserted alloc s val t) ↔ a = alloc.pick s ∨ a ∈ inorder t := by
  have hPerm := inorder_insert_perm (alloc.pick s) fun b hb => towards_ne_none hNew hb
  rw [inserted, hPerm.mem_iff, List.mem_cons]

theorem Part.addNodeRe {alloc : Allocator} (h : Part s t) (hBalanced : Balanced t)
    (hNew : val ∉ vals (s.fresh alloc val) t) :
    ∃ s', Loop.Settles (fun fuel => s.addNodeRe alloc fuel (root? t) val)
        (s', root? (inserted alloc s val t)) ∧
      Part s' (inserted alloc s val t) ∧ Relinks (alloc.pick s :: inorder t) (s.fresh alloc val) s' ∧
      s'.root = s.root := by
  induction t using way_induction (towards (s.fresh alloc val).val val) with
  | nil =>
    refine ⟨s.fresh alloc val, (Loop.settles_const _).succ fun fuel => rfl, part_leaf s _ val,
      Relinks.refl _ _, rfl⟩
  | stop a l r hStop => exact absurd hStop (towards_ne_none hNew (by simp))
  | go side a x y hSide ih =>
    obtain ⟨⟨hChild, -⟩, -, hApart, hx, -⟩ := part_iff.mp h
    have hIn : ∀ b ∈ inorder x, b ∈ inorder (branch side a x y) := fun b hb =>
      mem_branch.mpr (.inr (.inl hb))
    have hNew' : val ∉ vals (s.fresh alloc val) x := by
      intro hVal
      obtain ⟨b, hb, hEq⟩ := List.mem_map.mp hVal
      exact hNew (List.mem_map.mpr ⟨b, hIn b hb, hEq⟩)
    have hFresh : alloc.pick s ∉ inorder (branch side a x y) := not_mem_fresh h
    have hOff : ∀ b ∈ inorder (branch side a x y), b ≠ alloc.pick s := fun b hb hEq =>
      hFresh (hEq ▸ hb)
    have ha : a ∈ inorder (branch side a x y) := mem_branch.mpr (.inl rfl)
    obtain ⟨s₁, hCall, hPart, hRelinks, hRoot⟩ := ih hx (balanced_branch.mp hBalanced).2.2.1 hNew'
    have hApart' : Apart a (inserted alloc s val x) y := by
      refine ⟨fun hMem => ?_, hApart.right, fun b hb hMem => ?_⟩
      · exact ((mem_inserted hNew').mp hMem).elim (hOff a ha) hApart.left
      · rcases (mem_inserted hNew').mp hb with rfl | hb
        · exact hFresh (mem_branch.mpr (.inr (.inr hMem)))
        · exact hApart.disjoint b hb hMem
    have hKeep : ∀ b ∈ inorder (branch side a x y), b ∉ inorder x →
        ∀ side', s₁.child side' b = s.child side' b := by
      intro b hb hNot side'
      have hNot' : b ∉ alloc.pick s :: inorder x := by simp [hOff b hb, hNot]
      exact (hRelinks.child b hNot' side').trans (if_neg (hOff b hb))
    have hLive : ∀ b ∈ inorder (branch side a x y), b ∈ s₁.live := by
      intro b hb
      rw [hRelinks.live]
      exact Finset.mem_insert_of_mem (h.live b hb)
    have hGrows := grows_insert (alloc.pick s) (balanced_branch.mp hBalanced).2.2.1
      fun b hb => towards_ne_none hNew' hb
    have hIn' : ∀ b ∈ inorder (branch side a (inserted alloc s val x) y),
        b ∈ alloc.pick s :: inorder (branch side a x y) :=
      branch_subset (List.mem_cons_of_mem _ ha)
        (fun b hb => List.mem_cons.mpr (((mem_inserted hNew').mp hb).imp_right (hIn b)))
        fun b hb => List.mem_cons_of_mem _ (mem_branch.mpr (.inr (.inr hb)))
    have hMono := hRelinks.mono fun b hb =>
      List.mem_cons.mpr ((List.mem_cons.mp hb).imp_right (hIn b))
    obtain ⟨s', b, hAdjust, hTop, hPart', hRelinks', hRoot'⟩ := h.back hPart hApart' hKeep
      (fun b hb _ => hLive b hb) (fun s' hVal => reads_add (hVal.trans hRelinks.val))
      (hGrows.mend hSide hBalanced).1 hMono hIn'
    have hInserted : inserted alloc s val (branch side a x y) =
        mend side (heads (towards (s.fresh alloc val).val val) side)
          (branch side a (inserted alloc s val x) y) := insert_branch hSide
    have hWay : towards s.val val a = some side := by
      rw [← hSide]
      exact towards_congr (if_neg (hOff a ha)).symm
    rw [hInserted]
    refine ⟨s', ?_, hPart', hRelinks', hRoot'.trans hRoot⟩
    rw [root?_branch, hTop]
    rw [← hChild] at hCall
    exact Loop.Settles.succ (hCall.bind (hAdjust.bind (Loop.settles_const _))) (addNodeRe_go hWay)

/-! ### Both versions -/

theorem Rep.addRe {alloc : Allocator} (h : Rep s t) (hBalanced : Balanced t)
    (hNew : val ∉ vals (s.fresh alloc val) t) :
    ∃ s', Loop.Settles (fun fuel => s.addRe alloc fuel val) s' ∧ Rep s' (inserted alloc s val t) ∧
      Relinks (alloc.pick s :: inorder t) (s.fresh alloc val) s' := by
  obtain ⟨s', hCall, hPart, hRelinks, -⟩ := h.toPart.addNodeRe hBalanced hNew
  rw [← h.root] at hCall
  exact ⟨s'.setRoot (root? (inserted alloc s val t)), hCall.map fun x => x.1.setRoot x.2,
    ⟨⟨hPart.lies, hPart.nodup, hPart.live⟩, rfl⟩, hRelinks.val, hRelinks.live, hRelinks.child⟩

/-- One tree, and the same memory around it: the two states are one. -/
theorem Rep.eq_of_relinks {s₀ : AvlTree} (h : Rep s t) (h' : Rep s' t) (hRelinks : Relinks as s₀ s)
    (hRelinks' : Relinks as s₀ s') (hIn : ∀ a ∈ as, a ∈ inorder t) : s = s' := by
  have hVal : s.val = s'.val := hRelinks.val.trans hRelinks'.val.symm
  have hLive : s.live = s'.live := hRelinks.live.trans hRelinks'.live.symm
  have hRoot : s.root = s'.root := h.root.trans h'.root.symm
  have hChild : s.child = s'.child := by
    funext side a
    by_cases ha : a ∈ as
    · exact h'.lies.child_eq h.lies (hIn a ha) side
    · exact (hRelinks.child a ha side).trans (hRelinks'.child a ha side).symm
  cases s
  cases s'
  simp_all

/-- **`AddNode` and `AddNode_re`** return, dereference no null pointer and leave the same memory: a
balanced search tree of the old values and the new one. -/
theorem adds_agree (alloc : Allocator) (h : Rep s t) (hSorted : Sorted s.val t) (hBalanced : Balanced t)
    (hNew : val ∉ vals s t) :
    ∃ s' t', Loop.Settles (fun fuel => s.addNode alloc fuel val) s' ∧
      Loop.Settles (fun fuel => s.addRe alloc fuel val) s' ∧ Rep s' t' ∧ Sorted s'.val t' ∧
      (vals s' t').Perm (val :: vals s t) ∧ Balanced t' := by
  have hFresh : alloc.pick s ∉ inorder t := not_mem_fresh h.toPart
  have hVals : ∀ a ∈ inorder t, (s.fresh alloc val).val a = s.val a := fun a ha =>
    if_neg fun hEq : a = alloc.pick s => hFresh (hEq ▸ ha)
  have hMap : (inorder t).map (s.fresh alloc val).val = (inorder t).map s.val := List.map_congr_left hVals
  have hNew' : val ∉ vals (s.fresh alloc val) t := by
    rw [vals, hMap]
    exact hNew
  obtain ⟨s', hAdd, hRep, hRelinks⟩ := h.addNode hBalanced hNew'
  obtain ⟨s'', hAddRe, hRep', hRelinks'⟩ := h.addRe hBalanced hNew'
  obtain rfl : s' = s'' := hRep.eq_of_relinks hRep' hRelinks hRelinks' fun a ha =>
    (mem_inserted hNew').mpr (List.mem_cons.mp ha)
  have hValNew : (s.fresh alloc val).val (alloc.pick s) = val := if_pos rfl
  have hPerm := inorder_insert_perm (alloc.pick s) fun a ha => towards_ne_none hNew' ha
  refine ⟨s', inserted alloc s val t, hAdd, hAddRe, hRep, ?_, ?_,
    (grows_insert (alloc.pick s) hBalanced fun a ha => towards_ne_none hNew' ha).balanced⟩
  · have hSorted' : Sorted (s.fresh alloc val).val t := by
      rw [Sorted, hMap]
      exact hSorted
    have hInsert := hSorted'.insert (alloc.pick s) fun a ha hEq =>
      hNew' (List.mem_map.mpr ⟨a, ha, hEq.trans hValNew⟩)
    rw [hValNew] at hInsert
    rw [hRelinks.val]
    exact hInsert
  · have hMapped := hPerm.map (s.fresh alloc val).val
    rw [List.map_cons, hValNew, hMap] at hMapped
    rw [vals, hRelinks.val]
    exact hMapped

/-- An allocator that never uses memory again. -/
def nextFree : Allocator where
  pick s := s.live.sup id + 1
  pick_free s h := absurd (Finset.le_sup h : id (s.live.sup id + 1) ≤ s.live.sup id)
    (Nat.not_succ_le_self _)

/-- The nodes of `leaning` at their addresses. -/
def leaningTree : BinaryTree Addr :=
  .node 0 (.node 1 (.node 3 .nil .nil) .nil)
    (.node 2 (.node 4 (.node 6 .nil .nil) .nil) (.node 5 .nil .nil))

/-- The values 20; 10 and 40; 5, 30 and 50; 25, level by level. -/
def leaning : AvlTree where
  val a := [20, 10, 40, 5, 30, 50, 25].getD a 0
  child
    | .left, 0 => some 1
    | .right, 0 => some 2
    | .left, 1 => some 3
    | .left, 2 => some 4
    | .right, 2 => some 5
    | .left, 4 => some 6
    | _, _ => none
  live := Finset.range 7
  root := some 0

theorem rep_leaning : Rep leaning leaningTree :=
  ⟨⟨by simp [Lies, leaningTree, leaning], by decide, by decide⟩, rfl⟩

/-- A double rotation at the 30. -/
theorem adds_agree_twentySeven :
    ∃ s' t', Loop.Settles (fun fuel => leaning.addNode nextFree fuel 27) s' ∧
      Loop.Settles (fun fuel => leaning.addRe nextFree fuel 27) s' ∧ Rep s' t' ∧ Sorted s'.val t' ∧
      (vals s' t').Perm (27 :: vals leaning leaningTree) ∧ Balanced t' :=
  adds_agree nextFree rep_leaning (by decide) (by decide) (by decide)

end DemoCode.AVLTree
