import Mathlib.Data.List.Count
import DemoCode.AVLTree.AddNode

/-! `AddNode` of a value that is there already.  The descent goes to the right of an equal node, while the
new node is linked on its left and the rotations take it to be there: a node on the left is lost, a
rotation may miss a node, or be the wrong one. -/

namespace DemoCode.AVLTree

open Trees Avl

variable {s s' : AvlTree} {t t' : BinaryTree Addr} {alloc : Allocator} {val : Int}

/-- A call of `AddNode` returns, without a null pointer dereferenced, and leaves every value as many
times as before, and the new one. -/
def Keeps (alloc : Allocator) (s : AvlTree) (t : BinaryTree Addr) (val : Int) : Prop :=
  ∃ s' t', Loop.Settles (fun fuel => s.addNode alloc fuel val) s' ∧ Rep s' t' ∧
    (∀ v, (vals s t).count v ≤ (vals s' t').count v) ∧ val ∈ vals s' t'

/-- The trees that calls of `AddNode` come to, none of which takes the wrong rotation. -/
inductive Reached (alloc : Allocator) : AvlTree → BinaryTree Addr → Prop
  | empty : Reached alloc AvlTree.empty .nil
  | add {s s' : AvlTree} {t t' : BinaryTree Addr} {val : Int} (h : Reached alloc s t)
      (hTurn : misturned (towards s.val val) t = false)
      (hCall : Loop.Settles (fun fuel => s.addNode alloc fuel val) s') (hRep : Rep s' t') :
      Reached alloc s' t'

/-! ### What is lost -/

theorem fresh_val (h : Part s t) : ∀ a ∈ inorder t, (s.fresh alloc val).val a = s.val a := fun a ha =>
  if_neg fun hEq : a = alloc.pick s => not_mem_fresh h (hEq ▸ ha)

theorem fresh_way (h : Part s t) : ∀ a ∈ inorder t,
    towards (s.fresh alloc val).val val a = towards s.val val a := fun a ha =>
  towards_congr (fresh_val h a ha)

theorem fresh_pick (s : AvlTree) (alloc : Allocator) (val : Int) :
    (s.fresh alloc val).val (alloc.pick s) = val := if_pos rfl

/-- The tree behind a call. -/
def added (alloc : Allocator) (s : AvlTree) (val : Int) (t : BinaryTree Addr) : BinaryTree Addr :=
  insertTied (towards (s.fresh alloc val).val val) (alloc.pick s) t

theorem Rep.addNode_added (h : Rep s t) (hBalanced : Balanced t)
    (hSafe : stranded (towards s.val val) t = false) :
    ∃ s', Loop.Settles (fun fuel => s.addNode alloc fuel val) s' ∧ Rep s' (added alloc s val t) ∧
      s'.val = (s.fresh alloc val).val := by
  rw [← stranded_congr (fresh_way h.toPart)] at hSafe
  obtain ⟨s', hCall, hRep, hRelinks⟩ := h.addNode_tied hBalanced hSafe
  exact ⟨s', hCall, hRep, hRelinks.val⟩

/-- The values behind a call, and those that were lost. -/
theorem vals_perm (h : Part s t) (hVal : s'.val = (s.fresh alloc val).val) :
    (val :: vals s t).Perm ((lost (towards s.val val) t).map s.val ++ vals s' (added alloc s val t)) := by
  have hPerm := perm_insertTied (towards (s.fresh alloc val).val val) (alloc.pick s) t
  rw [lost_congr (fresh_way h)] at hPerm
  have hMapped := hPerm.map (s.fresh alloc val).val
  have hOld : (inorder t).map (s.fresh alloc val).val = vals s t := List.map_congr_left (fresh_val h)
  have hLost : (lost (towards s.val val) t).map (s.fresh alloc val).val =
      (lost (towards s.val val) t).map s.val :=
    List.map_congr_left fun a ha => fresh_val h a (mem_lost ha)
  rw [List.map_cons, List.map_append, fresh_pick, hOld, hLost] at hMapped
  have hNew : (inorder (added alloc s val t)).map (s.fresh alloc val).val = vals s' (added alloc s val t) := by
    rw [vals, hVal]
  exact hNew ▸ hMapped

theorem mem_vals_added (hVal : s'.val = (s.fresh alloc val).val) : val ∈ vals s' (added alloc s val t) := by
  refine List.mem_map.mpr ⟨alloc.pick s, mem_insertTied _ _ t, ?_⟩
  rw [hVal, fresh_pick]

/-- No value gets rarer exactly if the one node that is lost has the new value. -/
theorem counts_iff (h : Part s t) (hBalanced : Balanced t) (hVal : s'.val = (s.fresh alloc val).val) :
    (∀ v, (vals s t).count v ≤ (vals s' (added alloc s val t)).count v) ↔
      ∀ a ∈ lost (towards s.val val) t, s.val a = val := by
  have hPerm := vals_perm h hVal
  have hCount : ∀ v, (vals s t).count v + (if val = v then 1 else 0) =
      ((lost (towards s.val val) t).map s.val).count v + (vals s' (added alloc s val t)).count v := by
    intro v
    have hEq := hPerm.count_eq v
    rw [List.count_cons, List.count_append] at hEq
    simpa only [beq_iff_eq] using hEq
  constructor
  · intro hLe a ha
    by_contra hNe
    have hIn : 0 < ((lost (towards s.val val) t).map s.val).count (s.val a) :=
      List.count_pos_iff.mpr (List.mem_map_of_mem ha)
    have hEq := hCount (s.val a)
    rw [if_neg (Ne.symm hNe)] at hEq
    have hLess := hLe (s.val a)
    omega
  · intro hAll v
    have hEq := hCount v
    by_cases hSame : val = v
    · have hOne : ((lost (towards s.val val) t).map s.val).count v ≤ 1 := by
        refine List.count_le_length.trans ?_
        rw [List.length_map]
        exact length_lost hBalanced
      rw [if_pos hSame] at hEq
      omega
    · have hZero : ((lost (towards s.val val) t).map s.val).count v = 0 := by
        refine List.count_eq_zero.mpr fun hIn => ?_
        obtain ⟨a, ha, rfl⟩ := List.mem_map.mp hIn
        exact hSame (hAll a ha).symm
      rw [if_neg hSame] at hEq
      omega

/-! ### The rotation that misses a node -/

theorem adjust_stranded {path : List (Frame Addr)} {n p q : Addr}
    (h : Rep s (plug path (.node p (.node q (.node n .nil .nil) .nil) .nil))) (hVal : s.val q = val) :
    Loop.Ultimately (fun fuel => s.adjust (AvlTree.addOuter val) fuel (link path)) fun _ => none := by
  have hLoad : s.load (link path) = some p := h.load
  have hPart : Part s (.node p (.node q (.node n .nil .nil) .nil) .nil) := h.part
  obtain ⟨hLeft, hRight, hl, hr⟩ := hPart.lies
  obtain ⟨m, hHigh⟩ := settles_getHeight hl
  obtain ⟨m', hLow⟩ := settles_getHeight hr
  have hInner : s.child .right q = none := hl.2.1
  have hDouble : AvlTree.addOuter val .left s q = false := by
    rw [AvlTree.addOuter, hVal]
    exact decide_eq_false (lt_irrefl val)
  have hLower : s.lower .left AvlTree.ll AvlTree.lr (AvlTree.addOuter val) p = none := by
    simp only [AvlTree.lower, hLeft, root?_node, Option.bind_eq_bind, Option.bind_some, hDouble,
      Bool.false_eq_true, if_false, AvlTree.lr, AvlTree.rotate2, AvlTree.rotate, Side.other, hInner,
      Option.bind_none]
  refine ⟨max m m', fun fuel hLe => ?_⟩
  have hl' := hHigh fuel (Nat.le_trans (Nat.le_max_left m m') hLe)
  have hr' := hLow fuel (Nat.le_trans (Nat.le_max_right m m') hLe)
  rw [← hLeft] at hl'
  rw [← hRight] at hr'
  simp only [AvlTree.adjust, hLoad, Option.bind_eq_bind, Option.bind_some, hl', hr', hLower]
  rfl

theorem Rep.addNode_stranded (h : Rep s t) (hStranded : stranded (towards s.val val) t = true) :
    ¬Loop.Settles (fun fuel => s.addNode alloc fuel val) s' := by
  have hWay : ∀ a ∈ inorder t, towards (s.fresh alloc val).val val a = towards s.val val a :=
    fresh_way h.toPart
  rw [← stranded_congr hWay] at hStranded
  obtain ⟨q, p, path, hTrail, hTie⟩ := trail_stranded hStranded []
  have hOn : onward (towards (s.fresh alloc val).val val) q = some .right := by
    rw [onward, hTie, Option.getD_none]
  obtain ⟨s₁, hCall, hRep, hRelinks⟩ := h.attach hTrail hOn
  have hHung : hung (towards (s.fresh alloc val).val val) (alloc.pick s) ⟨.right, q, .nil⟩ =
      .node q (.node (alloc.pick s) .nil .nil) .nil := by
    simp only [hung, hTie]
  rw [hHung] at hRep
  have hVal : s₁.val q = val := by
    rw [hRelinks.val]
    exact towards_none.mp hTie
  have hAdjust := adjust_stranded hRep hVal
  refine (hCall.trans ?_).not_settles
  obtain ⟨n, hn⟩ := hAdjust
  refine ⟨n, fun fuel hLe => ?_⟩
  have hNone : s₁.adjust (AvlTree.addOuter val) fuel (link path) = none := hn fuel hLe
  simp only [links, List.foldlM_cons, hNone]
  rfl

/-! ### Runs -/

theorem keeps_iff (h : Rep s t) (hBalanced : Balanced t) : Keeps alloc s t val ↔
    stranded (towards s.val val) t = false ∧ ∀ a ∈ lost (towards s.val val) t, s.val a = val := by
  cases hSafe : stranded (towards s.val val) t with
  | true =>
    refine iff_of_false ?_ (by simp)
    rintro ⟨s', t', hCall, -⟩
    exact h.addNode_stranded hSafe hCall
  | false =>
    obtain ⟨s', hCall, hRep, hVal⟩ : ∃ s', Loop.Settles (fun fuel => s.addNode alloc fuel val) s' ∧ _ :=
      h.addNode_added hBalanced hSafe
    rw [← counts_iff h.toPart hBalanced hVal]
    constructor
    · rintro ⟨s'', t'', hCall', hRep', hCounts, -⟩
      obtain rfl := hCall.unique hCall'
      obtain rfl := hRep.lies.unique hRep'.lies (hRep.root.symm.trans hRep'.root)
      exact ⟨rfl, hCounts⟩
    · rintro ⟨-, hCounts⟩
      exact ⟨s', _, hCall, hRep, hCounts, mem_vals_added hVal⟩

/-- **Step lemma**: a call that does not take the wrong rotation leaves the tree balanced. -/
theorem balanced_added (h : Rep s t) (hBalanced : Balanced t)
    (hSafe : stranded (towards s.val val) t = false) (hTurn : misturned (towards s.val val) t = false) :
    Balanced (added alloc s val t) := by
  have hWay : ∀ a ∈ inorder t, towards (s.fresh alloc val).val val a = towards s.val val a :=
    fresh_way h.toPart
  rw [← stranded_congr hWay] at hSafe
  rw [← misturned_congr hWay] at hTurn
  exact (outgrown_insertTied hBalanced hSafe hTurn).balanced

/-- **Run lemma.** -/
theorem Reached.balanced (h : Reached alloc s t) : Rep s t ∧ Balanced t := by
  induction h with
  | empty => exact ⟨⟨⟨trivial, List.nodup_nil, nofun⟩, rfl⟩, trivial⟩
  | @add s s' t t' val _ hTurn hCall hRep ih =>
    obtain ⟨hOld, hBalanced⟩ := ih
    refine ⟨hRep, ?_⟩
    have hSafe : stranded (towards s.val val) t = false := by
      rw [← Bool.not_eq_true]
      exact fun hStranded => hOld.addNode_stranded hStranded hCall
    obtain ⟨s'', hCall', hRep', -⟩ : ∃ s'', Loop.Settles (fun fuel => s.addNode alloc fuel val) s'' ∧ _ :=
      hOld.addNode_added hBalanced hSafe
    obtain rfl := hCall.unique hCall'
    obtain rfl := hRep.lies.unique hRep'.lies (hRep.root.symm.trans hRep'.root)
    exact balanced_added hOld hBalanced hSafe hTurn

/-- **`AddNode`** keeps every value exactly if no rotation misses a node and the node that is lost, if any,
has the new value. -/
theorem adds_keep_iff (h : Reached alloc s t) (val : Int) : Keeps alloc s t val ↔
    stranded (towards s.val val) t = false ∧ ∀ a ∈ lost (towards s.val val) t, s.val a = val := by
  obtain ⟨hRep, hBalanced⟩ := h.balanced
  exact keeps_iff hRep hBalanced

/-- A call that finds its place. -/
theorem Reached.step (h : Reached alloc s t) (val : Int) (hSafe : stranded (towards s.val val) t = false)
    (hTurn : misturned (towards s.val val) t = false) :
    ∃ s', Reached alloc s' (added alloc s val t) ∧ s'.val = (s.fresh alloc val).val := by
  obtain ⟨hRep, hBalanced⟩ := h.balanced
  obtain ⟨s', hCall, hRep', hVal⟩ := hRep.addNode_added hBalanced hSafe
  exact ⟨s', h.add hTurn hCall hRep', hVal⟩

/-- The 1 and the 0. -/
theorem reached_oneZero : ∃ s a, Reached nextFree s (.node 1 (.node a .nil .nil) .nil) ∧
    s.val 1 = 1 ∧ s.val a = 0 := by
  have hEmpty : Reached nextFree AvlTree.empty .nil := .empty
  -- the root, and a leaf on its left
  obtain ⟨s₁, h₁, hVal₁⟩ : ∃ s₁, Reached nextFree s₁ (.node 1 .nil .nil) ∧
      s₁.val = (AvlTree.empty.fresh nextFree 1).val := hEmpty.step 1 rfl rfl
  have hRoot : s₁.val 1 = 1 := congrFun hVal₁ 1
  have hLeft : towards s₁.val 0 1 = some .left := towards_left.mpr (by rw [hRoot]; decide)
  have hFresh : (s₁.fresh nextFree 0).val 1 = 1 :=
    (fresh_val h₁.balanced.1.toPart 1 (List.mem_singleton.mpr rfl)).trans hRoot
  have hLeft' : towards (s₁.fresh nextFree 0).val 0 1 = some .left :=
    towards_left.mpr (by rw [hFresh]; decide)
  obtain ⟨s₂, h₂, hVal₂⟩ := h₁.step 0 (by simp [stranded, hLeft, tiedLeaf]) (by simp [misturned, hLeft])
  have hShape : added nextFree s₁ 0 (.node 1 .nil .nil) =
      .node 1 (.node (nextFree.pick s₁) .nil .nil) .nil := by
    rw [added, insertTied, hLeft']
    exact mend_of_le (by simp [part, insertTied])
  rw [hShape] at h₂
  refine ⟨s₂, nextFree.pick s₁, h₂, ?_, ?_⟩
  · rw [hVal₂]
    exact hFresh
  · rw [hVal₂]
    exact fresh_pick s₁ nextFree 0

/-- Behind the 1 and the 0, a 2 finds its place; the 1 again takes that of the 0. -/
theorem adds_keep_iff_oneZero : ∃ s t, Reached nextFree s t ∧ vals s t = [0, 1] ∧
    Keeps nextFree s t 2 ∧ ¬Keeps nextFree s t 1 := by
  obtain ⟨s, a, hReached, hOne, hZero⟩ := reached_oneZero
  have hRight : towards s.val 2 1 = some .right := towards_right.mpr (by rw [hOne]; decide)
  have hTie : towards s.val 1 1 = none := towards_none.mpr hOne
  refine ⟨s, _, hReached, by simp [vals, hOne, hZero], ?_, ?_⟩
  · apply (adds_keep_iff hReached 2).mpr
    simp [stranded, lost, hRight]
  · intro hKeeps
    obtain ⟨-, hLost⟩ := (adds_keep_iff hReached 1).mp hKeeps
    have hLeaf : s.val a = 1 := hLost a (by simp [lost, hTie, bare])
    omega

/-- The 1 and the 0, and the 1 again: the 0 is lost. -/
theorem not_adds_keep : ¬∀ s t, Reached nextFree s t → ∀ val, Keeps nextFree s t val := by
  intro hKeeps
  obtain ⟨s, a, hReached, hOne, hZero⟩ := reached_oneZero
  have hTie : towards s.val 1 1 = none := towards_none.mpr hOne
  obtain ⟨-, hLost⟩ :=
    (keeps_iff hReached.balanced.1 hReached.balanced.2).mp (hKeeps _ _ hReached 1)
  have hLeaf : s.val a = 1 := hLost a (by simp [lost, hTie, bare])
  omega

end DemoCode.AVLTree
