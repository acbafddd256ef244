import DemoCode.AVLTree.Shape

/-! The links on a stack, and the loop that pops them. -/

namespace DemoCode.AVLTree

open Trees Avl

variable {s s' : AvlTree} {side : Side} {a b : Addr} {x y t t' : BinaryTree Addr}
  {path : List (Frame Addr)} {outer : AvlTree.Outer} {single : Side → BinaryTree Addr → Bool}

theorem Part.adjustRe (h : Part s (branch side a x y)) (hReads : Reads outer single s)
    (hReady : Ready side (single side) (branch side a x y)) :
    ∃ s' b, Loop.Settles (fun fuel =>
        s.adjustRe side (AvlTree.rotate side) (AvlTree.rotate2 side) outer fuel a) (s', b) ∧
      Turned s (branch side a x y) (mend side (single side) (branch side a x y)) s' b := by
  obtain ⟨⟨hx, hy⟩, -, -, hPx, hPy⟩ := part_iff.mp h
  have hHeight := settles_getHeight hPx.lies
  have hHeight' := settles_getHeight hPy.lies
  rw [← hx] at hHeight
  rw [← hy] at hHeight'
  rw [Ready, part_branch, part_other_branch] at hReady
  by_cases hHigh : y.height + 1 < x.height
  · obtain ⟨s', b, hLower, hTurned⟩ := h.lower hReads (ne_nil_of_lt hHigh) (hReady hHigh)
    rw [mend_of_lt (by rwa [part_branch, part_other_branch])]
    refine ⟨s', b, hHeight.bind (hHeight'.bind (Loop.settles_of_eq ?_)), hTurned⟩
    exact (if_pos (by omega)).trans hLower
  · rw [mend_of_le (by rw [part_branch, part_other_branch]; omega)]
    refine ⟨s, a, hHeight.bind (hHeight'.bind (Loop.settles_of_eq ?_)), h, root?_branch side a x y,
      Relinks.refl _ s, rfl⟩
    exact if_neg (by omega)

/-- Behind a call, whose result `x'` is hung below `a`: the node is mended on either side. -/
theorem Part.back {s₀ s₁ : AvlTree} {side' : Side} {x' : BinaryTree Addr} {as : List Addr}
    (h : Part s (branch side a x y)) (hPart : Part s₁ x') (hApart : Apart a x' y)
    (hChild : ∀ b ∈ inorder (branch side a x y), b ∉ inorder x → ∀ side, s₁.child side b = s.child side b)
    (hLive : ∀ b ∈ inorder (branch side a x y), b ∉ inorder x → b ∈ s₁.live)
    (hReads : ∀ s', s'.val = s₁.val → Reads outer single s')
    (hReady : Ready side' (single side') (branch side a x' y)) (hRelinks : Relinks as s₀ s₁)
    (hAs : ∀ b ∈ inorder (branch side a x' y), b ∈ as) :
    ∃ s' b, Loop.Settles (fun fuel => (s₁.setChild side a (root? x')).adjustRe side'
        (AvlTree.rotate side') (AvlTree.rotate2 side') outer fuel a) (s', b) ∧
      root? (mend side' (single side') (branch side a x' y)) = some b ∧
      Part s' (mend side' (single side') (branch side a x' y)) ∧ Relinks as s₀ s' ∧
      s'.root = s₁.root := by
  have hGraft := h.graft hPart hApart hChild hLive
  have hSet := relinks_setChild s₁ side (hAs a (mem_branch.mpr (.inl rfl))) (root? x')
  obtain ⟨u, v, hEq⟩ : ∃ u v, branch side a x' y = branch side' a u v := by
    by_cases hSame : side' = side
    · exact ⟨x', y, by rw [hSame]⟩
    · exact ⟨y, x', by rw [Side.eq_other hSame, branch_other]⟩
  rw [hEq] at hGraft hReady hAs ⊢
  obtain ⟨s', b, hAdjust, hTurned⟩ := hGraft.adjustRe (hReads _ rfl) hReady
  exact ⟨s', b, hAdjust, hTurned.top, hTurned.part,
    (hRelinks.trans hSet).trans (hTurned.relinks.mono hAs), hTurned.root⟩

/-! ### Links -/

/-- The link into the hole of `path`. -/
def link : List (Frame Addr) → Link
  | [] => .main
  | f :: _ => .field f.side f.parent

/-- The links above the hole of `path`, the last one first. -/
def links : List (Frame Addr) → List Link
  | [] => []
  | _ :: path => link path :: links path

theorem Rep.part (h : Rep s (plug path t)) : Part s t := by
  have hPerm := inorder_plug_perm path t
  refine ⟨(lies_plug.mp h.lies).2, ?_, fun a ha => h.live a (mem_plug.mpr (.inl ha))⟩
  exact (List.nodup_append.mp (hPerm.nodup_iff.mp h.nodup)).1

theorem Rep.load (h : Rep s (plug path t)) : s.load (link path) = root? t := by
  cases path with
  | nil => exact h.root
  | cons f path => exact (lies_plug.mp h.lies).1.1

theorem relinks_store (s : AvlTree) (path : List (Frame Addr)) (p : Option Addr) :
    Relinks (rim path) s (s.store (link path) p) := by
  cases path with
  | nil => exact ⟨rfl, rfl, fun _ _ _ => rfl⟩
  | cons f path => exact relinks_setChild s f.side (mem_rim_cons.mpr (.inl rfl)) p

/-- Another tree is put in the hole. -/
theorem Rep.store (h : Rep s (plug path t)) (hPart : Part s' t')
    (hApart : ∀ a ∈ inorder t', a ∉ rim path)
    (hChild : ∀ a ∈ rim path, ∀ side, s'.child side a = s.child side a)
    (hLive : ∀ a ∈ rim path, a ∈ s'.live) (hRoot : s'.root = s.root) :
    Rep (s'.store (link path) (root? t')) (plug path t') := by
  have hRelinks := relinks_store s' path (root? t')
  have hPart' := hPart.relink hRelinks hApart
  have hNodup := (inorder_plug_perm path t).nodup_iff.mp h.nodup
  obtain ⟨-, hRim, -⟩ := List.nodup_append.mp hNodup
  have hAround := (lies_plug.mp h.lies).1
  refine ⟨⟨lies_plug.mpr ⟨?_, hPart'.lies⟩, ?_, fun a ha => ?_⟩, ?_⟩
  · cases path with
    | nil => trivial
    | cons f path =>
      refine hAround.fill hRim (if_pos ⟨rfl, rfl⟩) fun a ha side hSide => ?_
      refine (if_neg ?_).trans (hChild a ha side)
      rintro ⟨hSame, hEq⟩
      exact hSide hEq hSame
  · refine (inorder_plug_perm path t').nodup_iff.mpr (List.nodup_append.mpr ⟨hPart.nodup, hRim, ?_⟩)
    rintro a ha b hb rfl
    exact hApart a ha hb
  · rcases mem_plug.mp ha with hIn | hIn
    · exact hPart'.live a hIn
    · rw [hRelinks.live]
      exact hLive a hIn
  · cases path with
    | nil => rfl
    | cons f path =>
      have hOld := h.root
      rw [plug] at hOld ⊢
      exact (hRoot.trans hOld).trans (root?_plug path (by rw [root?_branch, root?_branch]))

theorem Rep.of_turned (h : Rep s (plug path t)) (hTurned : Turned s t t' s' b)
    (hSame : inorder t' = inorder t) : Rep (s'.store (link path) (some b)) (plug path t') ∧
      Relinks (inorder (plug path t)) s (s'.store (link path) (some b)) := by
  have hNodup := (inorder_plug_perm path t).nodup_iff.mp h.nodup
  obtain ⟨-, -, hApart⟩ := List.nodup_append.mp hNodup
  have hRelinks := hTurned.relinks
  have hOff : ∀ a ∈ rim path, a ∉ inorder t := fun a ha hIn => hApart a hIn a ha rfl
  rw [← hTurned.top]
  refine ⟨h.store hTurned.part (fun a ha hIn => ?_) (fun a ha => hRelinks.child a (hOff a ha))
    (fun a ha => ?_) hTurned.root, ?_⟩
  · exact hOff a hIn (hSame ▸ ha)
  · rw [hRelinks.live]
    exact h.live a (mem_plug.mpr (.inr ha))
  · exact (hRelinks.mono fun a ha => mem_plug.mpr (.inl ha)).trans
      ((relinks_store s' path _).mono fun a ha => mem_plug.mpr (.inr ha))

/-! ### Adjusting -/

theorem Rep.adjust (h : Rep s (plug path t)) (hNe : t ≠ .nil) (hReads : Reads outer single s)
    (hReady : ∀ side, Ready side (single side) t) :
    ∃ s', Loop.Settles (fun fuel => s.adjust outer fuel (link path)) s' ∧
      Rep s' (plug path (settle single t)) ∧ Relinks (inorder (plug path t)) s s' := by
  cases t with
  | nil => exact absurd rfl hNe
  | node a l r =>
    have hLoad : s.load (link path) = some a := h.load
    have hPart : Part s (branch .left a l r) := h.part
    have hPart' : Part s (branch .right a r l) := h.part
    obtain ⟨⟨hl, hr⟩, -, -, hPl, hPr⟩ := part_iff.mp hPart
    have hHeight := settles_getHeight hPl.lies
    have hHeight' := settles_getHeight hPr.lies
    rw [← hl] at hHeight
    rw [← hr] at hHeight'
    have hFound := Loop.settles_of_eq hLoad
    by_cases hLeft : r.height + 1 < l.height
    · obtain ⟨s', b, hLower, hTurned⟩ := hPart.lower hReads (ne_nil_of_lt hLeft) (hReady .left hLeft)
      have hSettle : settle single (.node a l r) = turn .left (single .left) (.node a l r) := if_pos hLeft
      obtain ⟨hRep, hRelinks⟩ := h.of_turned hTurned inorder_turn
      rw [hSettle]
      refine ⟨_, hFound.bind (hHeight.bind (hHeight'.bind (Loop.settles_of_eq ?_))), hRep, hRelinks⟩
      exact (if_pos (by omega)).trans (congrArg _ hLower)
    · have hSettle : settle single (.node a l r) = mend .right (single .right) (.node a l r) :=
        if_neg hLeft
      rw [hSettle]
      by_cases hRight : l.height + 1 < r.height
      · obtain ⟨s', b, hLower, hTurned⟩ :=
          hPart'.lower hReads (ne_nil_of_lt hRight) (hReady .right hRight)
        obtain ⟨hRep, hRelinks⟩ := h.of_turned hTurned inorder_turn
        have hMend : mend .right (single .right) (.node a l r) =
            turn .right (single .right) (.node a l r) := mend_of_lt hRight
        rw [hMend]
        refine ⟨_, hFound.bind (hHeight.bind (hHeight'.bind (Loop.settles_of_eq ?_))), hRep, hRelinks⟩
        exact (if_neg (by omega)).trans ((if_pos (by omega)).trans (congrArg _ hLower))
      · have hMend : mend .right (single .right) (.node a l r) = .node a l r :=
          mend_of_le (Nat.not_lt.mp hRight)
        rw [hMend]
        refine ⟨s, hFound.bind (hHeight.bind (hHeight'.bind (Loop.settles_of_eq ?_))), h,
          Relinks.refl _ s⟩
        exact (if_neg (by omega)).trans (if_neg (by omega))

/-- The loop that pops the links above the hole. -/
theorem Rep.climb (h : Rep s (plug path t)) (hClimbs : Climbs single path t t')
    (hReads : ∀ s', s'.val = s.val → Reads outer single s') :
    ∃ s', Loop.Settles (fun fuel => (links path).foldlM (AvlTree.adjust outer fuel) s) s' ∧
      Rep s' t' ∧ Relinks (inorder (plug path t)) s s' := by
  induction hClimbs generalizing s with
  | nil => exact ⟨s, Loop.settles_const s, h, Relinks.refl _ s⟩
  | @cons f path t t' hReady _ ih =>
    have hPlug : Rep s (plug path (branch f.side f.parent t f.sibling)) := h
    obtain ⟨s₁, hFirst, hRep, hRelinks⟩ := hPlug.adjust branch_ne_nil (hReads s rfl) hReady
    obtain ⟨s', hRest, hRep', hRelinks'⟩ := ih hRep fun s' hVal => hReads s' (hVal.trans hRelinks.val)
    refine ⟨s', hFirst.bind hRest, hRep', hRelinks.trans (hRelinks'.mono fun a ha => ?_)⟩
    rw [inorder_plug_congr path inorder_settle] at ha
    exact ha

end DemoCode.AVLTree
