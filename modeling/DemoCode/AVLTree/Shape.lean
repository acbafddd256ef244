import DemoCode.AVLTree.AvlTree
import DemoCode.Lib.Avl

/-! The trees that a state of the memory holds, and what the rotations make of them. -/

namespace DemoCode.AVLTree

open Trees Avl

/-- The nodes of `t` lie in memory, linked as in `t`. -/
structure Part (s : AvlTree) (t : BinaryTree Addr) : Prop where
  lies : Lies s.child t
  nodup : (inorder t).Nodup
  live : ∀ a ∈ inorder t, a ∈ s.live

/-- `t` is the tree at `root`. -/
structure Rep (s : AvlTree) (t : BinaryTree Addr) : Prop extends Part s t where
  root : s.root = root? t

def vals (s : AvlTree) (t : BinaryTree Addr) : List Int := (inorder t).map s.val

/-- `s'` is `s` with other links at some of the nodes `as`, and maybe another root. -/
structure Relinks (as : List Addr) (s s' : AvlTree) : Prop where
  val : s'.val = s.val
  live : s'.live = s.live
  child : ∀ a ∉ as, ∀ side, s'.child side a = s.child side a

variable {s s' s'' : AvlTree} {side : Side} {a b g n q : Addr} {x x' y t t' : BinaryTree Addr}
  {as as' : List Addr} {path : List (Frame Addr)}

theorem Relinks.refl (as : List Addr) (s : AvlTree) : Relinks as s s := ⟨rfl, rfl, fun _ _ _ => rfl⟩

theorem Relinks.trans (h : Relinks as s s') (h' : Relinks as s' s'') : Relinks as s s'' :=
  ⟨h'.val.trans h.val, h'.live.trans h.live, fun a ha side =>
    (h'.child a ha side).trans (h.child a ha side)⟩

theorem Relinks.mono (h : Relinks as s s') (hSub : ∀ a ∈ as, a ∈ as') : Relinks as' s s' :=
  ⟨h.val, h.live, fun a ha => h.child a fun hIn => ha (hSub a hIn)⟩

theorem relinks_setChild (s : AvlTree) (side : Side) (ha : a ∈ as) (p : Option Addr) :
    Relinks as s (s.setChild side a p) := by
  refine ⟨rfl, rfl, fun b hb side' => if_neg ?_⟩
  rintro ⟨-, rfl⟩
  exact hb ha

/-- What lies elsewhere goes on to lie there. -/
theorem Part.congr (h : Part s t) (hChild : ∀ a ∈ inorder t, ∀ side, s'.child side a = s.child side a)
    (hLive : ∀ a ∈ inorder t, a ∈ s'.live) : Part s' t :=
  ⟨h.lies.congr hChild, h.nodup, hLive⟩

theorem Part.relink (h : Part s t) (hRelinks : Relinks as s s') (hApart : ∀ a ∈ inorder t, a ∉ as) :
    Part s' t := by
  refine h.congr (fun a ha => hRelinks.child a (hApart a ha)) fun a ha => ?_
  rw [hRelinks.live]
  exact h.live a ha

/-- The root of a tree is a node of its own. -/
structure Apart (a : Addr) (x y : BinaryTree Addr) : Prop where
  left : a ∉ inorder x
  right : a ∉ inorder y
  disjoint : ∀ b ∈ inorder x, b ∉ inorder y

theorem Apart.mono {x' : BinaryTree Addr} (h : Apart a x y) (hIn : ∀ b ∈ inorder x', b ∈ inorder x) :
    Apart a x' y :=
  ⟨fun ha => h.left (hIn a ha), h.right, fun b hb => h.disjoint b (hIn b hb)⟩

theorem nodup_branch : (inorder (branch side a x y)).Nodup ↔
    Apart a x y ∧ (inorder x).Nodup ∧ (inorder y).Nodup := by
  rw [(inorder_branch_perm side a x y).nodup_iff, List.nodup_cons, List.nodup_append, List.mem_append,
    not_or]
  constructor
  · rintro ⟨⟨hx, hy⟩, hNx, hNy, hDisjoint⟩
    exact ⟨⟨hx, hy, fun b hb hb' => hDisjoint b hb b hb' rfl⟩, hNx, hNy⟩
  · rintro ⟨⟨hx, hy, hDisjoint⟩, hNx, hNy⟩
    exact ⟨⟨hx, hy⟩, hNx, hNy, fun b hb c hc hEq => hDisjoint b hb (hEq ▸ hc)⟩

theorem nodup_node {l r : BinaryTree Addr} : (inorder (.node a l r)).Nodup ↔
    Apart a l r ∧ (inorder l).Nodup ∧ (inorder r).Nodup := by
  change (inorder (branch .left a l r)).Nodup ↔ _
  exact nodup_branch

theorem part_iff : Part s (branch side a x y) ↔
    (s.child side a = root? x ∧ s.child side.other a = root? y) ∧ a ∈ s.live ∧ Apart a x y ∧
      Part s x ∧ Part s y := by
  constructor
  · rintro ⟨hLies, hNodup, hLive⟩
    obtain ⟨hx, hy, hLx, hLy⟩ := lies_branch.mp hLies
    obtain ⟨hApart, hNx, hNy⟩ := nodup_branch.mp hNodup
    refine ⟨⟨hx, hy⟩, hLive a (mem_branch.mpr (.inl rfl)), hApart, ⟨hLx, hNx, fun b hb => ?_⟩,
      ⟨hLy, hNy, fun b hb => ?_⟩⟩
    · exact hLive b (mem_branch.mpr (.inr (.inl hb)))
    · exact hLive b (mem_branch.mpr (.inr (.inr hb)))
  · rintro ⟨⟨hx, hy⟩, ha, hApart, ⟨hLx, hNx, hLive⟩, ⟨hLy, hNy, hLive'⟩⟩
    refine ⟨lies_branch.mpr ⟨hx, hy, hLx, hLy⟩, nodup_branch.mpr ⟨hApart, hNx, hNy⟩, fun b hb => ?_⟩
    rcases mem_branch.mp hb with rfl | hb | hb
    · exact ha
    · exact hLive b hb
    · exact hLive' b hb

/-- Another tree is hung below a node on `side`. -/
theorem Part.graft (h : Part s (branch side a x y)) (hx' : Part s' x') (hApart : Apart a x' y)
    (hChild : ∀ b ∈ inorder (branch side a x y), b ∉ inorder x → ∀ side, s'.child side b = s.child side b)
    (hLive : ∀ b ∈ inorder (branch side a x y), b ∉ inorder x → b ∈ s'.live) :
    Part (s'.setChild side a (root? x')) (branch side a x' y) := by
  obtain ⟨⟨-, hOther⟩, -, hOld, -, hy⟩ := part_iff.mp h
  have ha : a ∈ inorder (branch side a x y) := mem_branch.mpr (.inl rfl)
  have hIn : ∀ b ∈ inorder y, b ∈ inorder (branch side a x y) ∧ b ∉ inorder x := fun b hb =>
    ⟨mem_branch.mpr (.inr (.inr hb)), fun hb' => hOld.disjoint b hb' hb⟩
  have hSet := relinks_setChild s' side (List.mem_singleton_self a) (root? x')
  refine part_iff.mpr ⟨⟨if_pos ⟨rfl, rfl⟩, ?_⟩, hLive a ha hOld.left, hApart, ?_, ?_⟩
  · refine (if_neg fun hBoth => side.other_ne hBoth.1).trans ?_
    rw [hChild a ha hOld.left, hOther]
  · refine hx'.relink hSet fun b hb hEq => ?_
    obtain rfl := List.mem_singleton.mp hEq
    exact hApart.left hb
  · have hy' : Part s' y := hy.congr (fun b hb => hChild b (hIn b hb).1 (hIn b hb).2) fun b hb =>
      hLive b (hIn b hb).1 (hIn b hb).2
    refine hy'.relink hSet fun b hb hEq => ?_
    obtain rfl := List.mem_singleton.mp hEq
    exact hApart.right hb

theorem settles_getHeight (h : Lies s.child t) :
    Loop.Settles (fun fuel => s.getHeight fuel (root? t)) (t.height : Int) := by
  induction t with
  | nil => exact (Loop.settles_const 0).succ fun fuel => rfl
  | node a l r ihl ihr =>
    obtain ⟨hLeft, hRight, hl, hr⟩ := h
    have hSucc : ∀ fuel, s.getHeight (fuel + 1) (root? (.node a l r)) =
        (s.getHeight fuel (root? l)).bind fun lHeight => (s.getHeight fuel (root? r)).bind fun rHeight =>
          some (if lHeight > rHeight then lHeight + 1 else rHeight + 1) := by
      intro fuel
      rw [root?_node, AvlTree.getHeight, hLeft, hRight]
      rfl
    have hMax : ((BinaryTree.node a l r).height : Int) =
        if (l.height : Int) > r.height then (l.height : Int) + 1 else r.height + 1 := by
      rw [BinaryTree.height]
      split <;> omega
    rw [hMax]
    exact Loop.Settles.succ ((ihl hl).bind ((ihr hr).bind (Loop.settles_const _))) hSucc

/-! ### Rotations -/

/-- The memory after a turn of `t` to `t'`, whose root is `b`. -/
structure Turned (s : AvlTree) (t t' : BinaryTree Addr) (s' : AvlTree) (b : Addr) : Prop where
  part : Part s' t'
  top : root? t' = some b
  relinks : Relinks (inorder t) s s'
  root : s'.root = s.root

theorem Part.rotate {c d e : BinaryTree Addr} (h : Part s (branch side g (branch side q c d) e)) :
    ∃ s', s.rotate side g = some (s', q) ∧ Turned s (branch side g (branch side q c d) e)
      (branch side q c (branch side g d e)) s' q := by
  obtain ⟨hSon, hOther, hq, he⟩ := lies_branch.mp h.lies
  obtain ⟨hc, hd, hLc, hLd⟩ := lies_branch.mp hq
  obtain ⟨hApart, hNodup, -⟩ := nodup_branch.mp h.nodup
  obtain ⟨hApart', -⟩ := nodup_branch.mp hNodup
  have hIn : q ∈ inorder (branch side q c d) := mem_branch.mpr (.inl rfl)
  have hNe : q ≠ g := fun hEq => hApart.left (hEq ▸ hIn)
  have hRelinks : Relinks [g, q] s
      ((s.setChild side g (s.child side.other q)).setChild side.other q (some g)) :=
    (relinks_setChild s side (by simp) _).trans (relinks_setChild _ side.other (by simp) _)
  have hKeep : ∀ b, b ≠ g → b ≠ q → ∀ side',
      ((s.setChild side g (s.child side.other q)).setChild side.other q (some g)).child side' b =
        s.child side' b := fun b hg hq => hRelinks.child b (by simp [hg, hq])
  have hRotate : s.rotate side g =
      some ((s.setChild side g (s.child side.other q)).setChild side.other q (some g), q) := by
    rw [AvlTree.rotate, hSon, root?_branch]
    rfl
  refine ⟨_, hRotate, ⟨?_, ?_, ?_⟩, root?_branch side q c _, ?_, rfl⟩
  · refine lies_branch.mpr ⟨?_, ?_, hLc.congr fun b hb => ?_, lies_branch.mpr
      ⟨?_, ?_, hLd.congr fun b hb => ?_, he.congr fun b hb => ?_⟩⟩
    · simp [hNe, hc]
    · simp
    · apply hKeep b
      · rintro rfl
        exact hApart.left (mem_branch.mpr (.inr (.inl hb)))
      · rintro rfl
        exact hApart'.left hb
    · simp [hNe.symm, hd]
    · simp [hNe.symm, hOther]
    · apply hKeep b
      · rintro rfl
        exact hApart.left (mem_branch.mpr (.inr (.inr hb)))
      · rintro rfl
        exact hApart'.right hb
    · apply hKeep b
      · rintro rfl
        exact hApart.right hb
      · rintro rfl
        exact hApart.disjoint b hIn hb
  · rw [← inorder_rotate]
    exact h.nodup
  · rw [← inorder_rotate]
    exact h.live
  · refine hRelinks.mono fun b hb => ?_
    rcases List.mem_pair.mp hb with rfl | rfl
    · exact mem_branch.mpr (.inl rfl)
    · exact mem_branch.mpr (.inr (.inl hIn))

theorem mem_rotate2 {c d e u : BinaryTree Addr} :
    a ∈ inorder (branch side g (branch side n (branch side q c e) d) u) ↔
      a ∈ inorder (branch side g (branch side q c (branch side.other n d e)) u) := by
  simp only [mem_branch]
  tauto

theorem Part.rotate2 {c d e u : BinaryTree Addr}
    (h : Part s (branch side g (branch side q c (branch side.other n d e)) u)) :
    ∃ s', s.rotate2 side g = some (s', n) ∧
      Turned s (branch side g (branch side q c (branch side.other n d e)) u)
        (branch side n (branch side q c e) (branch side g d u)) s' n := by
  obtain ⟨⟨hSon, -⟩, -, hApart, hq, -⟩ := part_iff.mp h
  have hg : g ∈ inorder (branch side g (branch side q c (branch side.other n d e)) u) :=
    mem_branch.mpr (.inl rfl)
  rw [← branch_other] at hq
  obtain ⟨s₁, hFirst, hTurned⟩ := hq.rotate
  have hPart := hTurned.part
  have hRelinks := hTurned.relinks
  rw [branch_other side q] at hPart hRelinks
  rw [branch_other side n] at hPart
  have hSame : ∀ b, b ∈ inorder (branch side n (branch side q c e) d) ↔
      b ∈ inorder (branch side q c (branch side.other n d e)) := by
    intro b
    simp only [mem_branch]
    tauto
  have hGraft := h.graft hPart (hApart.mono fun b => (hSame b).mp)
    (fun b _ hb => hRelinks.child b hb) fun b hb _ => hRelinks.live ▸ h.live b hb
  rw [root?_branch] at hGraft
  obtain ⟨s₂, hSecond, hTurned'⟩ := hGraft.rotate
  refine ⟨s₂, ?_, hTurned'.part, hTurned'.top, ?_, hTurned'.root.trans hTurned.root⟩
  · rw [AvlTree.rotate2, hSon, root?_branch]
    simp only [Option.bind_eq_bind, Option.bind_some, hFirst]
    exact hSecond
  · refine ((hRelinks.mono fun b hb => ?_).trans (relinks_setChild s₁ side hg (some n))).trans
      (hTurned'.relinks.mono fun b hb => mem_rotate2.mp hb)
    exact mem_branch.mpr (.inr (.inl hb))

/-- What a test of the code says of a son is what `single` says of the subtree at it. -/
def Reads (outer : AvlTree.Outer) (single : Side → BinaryTree Addr → Bool) (s : AvlTree) : Prop :=
  ∀ side q x y, Part s (branch side q x y) → ∀ side', outer side' s q = single side' (branch side q x y)

variable {outer : AvlTree.Outer} {single : Side → BinaryTree Addr → Bool}

theorem Part.lower (h : Part s (branch side a x y)) (hReads : Reads outer single s) (hNe : x ≠ .nil)
    (hInner : single side x = false → part side.other x ≠ .nil) :
    ∃ s' b, s.lower side (AvlTree.rotate side) (AvlTree.rotate2 side) outer a = some (s', b) ∧
      Turned s (branch side a x y) (turn side (single side) (branch side a x y)) s' b := by
  obtain ⟨⟨hSon, -⟩, -, -, hx, -⟩ := part_iff.mp h
  obtain ⟨q, o, i, rfl⟩ := exists_branch_of_ne side hNe
  rw [AvlTree.lower, hSon, root?_branch, turn, part_branch]
  simp only [Option.bind_eq_bind, Option.bind_some, hReads side q o i hx side]
  by_cases hSingle : single side (branch side q o i) = true
  · rw [if_pos hSingle, if_pos hSingle, rotate_branch]
    obtain ⟨s', hRotate, hTurned⟩ := h.rotate
    exact ⟨s', q, hRotate, hTurned⟩
  · rw [if_neg hSingle, if_neg hSingle]
    have hi := hInner (Bool.eq_false_iff.mpr hSingle)
    rw [part_other_branch] at hi
    obtain ⟨n, d, e, rfl⟩ := exists_branch_of_ne side.other hi
    rw [rotate2_branch]
    obtain ⟨s', hRotate, hTurned⟩ := h.rotate2
    exact ⟨s', n, hRotate, hTurned⟩

end DemoCode.AVLTree
