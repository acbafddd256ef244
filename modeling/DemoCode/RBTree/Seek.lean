import DemoCode.RBTree.Shape

/-! The way down to a value, which `AddNode` and `DelNode` take first. -/

namespace DemoCode.RBTree

open Trees RedBlack

variable {s : RbTree} {side : Side} {n : Node} {x y t : BinaryTree Node} {path : List (Frame Node)}
  {val : Int}

/-- What the fields of a node hold. -/
theorem Rep.reads (side : Side) (h : Rep s (plug path (branch side n x y))) :
    s.p n.addr = (above? path).map Node.addr ∧ s.child side n.addr = (root? x).map Node.addr ∧
      s.child side.other n.addr = (root? y).map Node.addr ∧ s.val n.addr = n.val ∧
      s.color n.addr = n.color := by
  obtain ⟨-, hLinked⟩ := linked_plug.mp h.linked
  obtain ⟨hUp, hChild, hOther, -⟩ := linked_branch.mp hLinked
  obtain ⟨hVal, hColor, -⟩ := h.stored n (mem_plug.mpr (.inl (mem_branch.mpr (.inl rfl))))
  exact ⟨hUp, hChild, hOther, hVal, hColor⟩

/-- The child of a node is the root of its subtree. -/
theorem Rep.child_eq (h : Rep s (plug path (branch side n x y))) {m : Node} (hx : root? x = some m)
    (side' : Side) : s.child side' n.addr = some m.addr ↔ side' = side := by
  obtain ⟨-, hChild, hOther, -⟩ := h.reads side
  rw [hx, Option.map_some] at hChild
  constructor
  · intro hEq
    by_contra hSide
    rw [Side.eq_other hSide, hOther] at hEq
    exact (nodup_branch.mp h.nodup_plug.1).2.2.2 _ (mem_addrs_of_mem (mem_root? hx))
      (root_mem_addrs hEq)
  · rintro rfl
    exact hChild

/-- The test for a red node behind a pointer. -/
theorem Rep.filter_red (h : Rep s (plug path t)) :
    ((root? t).map Node.addr).filter (fun a => s.color a = .red) =
      if isRed Node.color t then (root? t).map Node.addr else none := by
  cases t with
  | nil => rfl
  | node n l r =>
    have hColor := (h.reads .left).2.2.2.2
    simp [isRed_node, Option.filter, hColor]

/-- The place of `val`: the subtree where the way down to it ends, and what is around that. -/
def locate (val : Int) : List (Frame Node) → BinaryTree Node → List (Frame Node) × BinaryTree Node
  | path, .nil => (path, .nil)
  | path, .node n l r =>
    if val > n.val then locate val (⟨.right, n, l⟩ :: path) r
    else if val < n.val then locate val (⟨.left, n, r⟩ :: path) l
    else (path, .node n l r)

theorem plug_locate (val : Int) (path : List (Frame Node)) (t : BinaryTree Node) :
    plug (locate val path t).1 (locate val path t).2 = plug path t := by
  induction t generalizing path with
  | nil => rfl
  | node n l r ihl ihr =>
    rw [locate]
    split
    · exact ihr _
    · split
      · exact ihl _
      · rfl

/-- The way down ends at a null link or at `val`. -/
theorem locate_val {l r : BinaryTree Node} (h : (locate val path t).2 = .node n l r) : n.val = val := by
  induction t generalizing path with
  | nil => cases h
  | node m l' r' ihl ihr =>
    rw [locate] at h
    split at h
    · exact ihr h
    · split at h
      · exact ihl h
      · next hGt hLt =>
        cases h
        omega

/-- The nodes on the left of the hole are smaller than `val`, those on its right are larger. -/
structure Between (path : List (Frame Node)) (val : Int) : Prop where
  before : ∀ n ∈ before path, n.val < val
  after : ∀ n ∈ after path, val < n.val

theorem between_nil (val : Int) : Between [] val := ⟨by simp [before], by simp [after]⟩

theorem sorted_node {l r : BinaryTree Node} : Sorted (.node n l r) ↔
    Sorted l ∧ Sorted r ∧ (∀ m ∈ inorder l, m.val < n.val) ∧ ∀ m ∈ inorder r, n.val < m.val := by
  simp only [Sorted, vals, inorder_node, List.map_append, List.map_cons, List.pairwise_append,
    List.pairwise_cons, List.forall_mem_map, List.mem_cons]
  constructor
  · rintro ⟨hl, ⟨hn, hr⟩, hlr⟩
    exact ⟨hl, hr, fun m hm => hlr m hm _ (.inl rfl), hn⟩
  · rintro ⟨hl, hr, hln, hn⟩
    refine ⟨hl, ⟨hn, hr⟩, fun m hm v hv => ?_⟩
    rcases hv with rfl | hv
    · exact hln m hm
    · obtain ⟨m', hm', rfl⟩ := List.mem_map.mp hv
      exact (hln m hm).trans (hn m' hm')

theorem locate_between (hSorted : Sorted t) (h : Between path val) :
    Between (locate val path t).1 val := by
  induction t generalizing path with
  | nil => exact h
  | node n l r ihl ihr =>
    obtain ⟨hl, hr, hln, hnr⟩ := sorted_node.mp hSorted
    rw [locate]
    split
    · next hGt =>
      refine ihr hr ⟨fun m hm => ?_, h.after⟩
      simp only [before, Frame.before, List.mem_append, List.mem_singleton] at hm
      rcases hm with hm | hm | rfl
      · exact h.before m hm
      · exact (hln m hm).trans hGt
      · exact hGt
    · split
      · next hLt =>
        refine ihl hl ⟨fun m hm => h.before m (by simpa [before, Frame.before] using hm), ?_⟩
        intro m hm
        simp only [after, Frame.after, List.cons_append, List.mem_cons, List.mem_append] at hm
        rcases hm with rfl | hm | hm
        · exact hLt
        · exact hLt.trans (hnr m hm)
        · exact h.after m hm
      · exact h

/-- A tree is sorted when the parts around the hole are on the right sides of what is in it. -/
theorem Between.sorted {new : Node} (h : Between path new.val) (hSorted : Sorted (plug path .nil)) :
    Sorted (plug path (.node new .nil .nil)) := by
  simp only [Sorted, vals, inorder_plug, inorder_nil, inorder_node, List.map_append, List.map_nil,
    List.map_cons, List.append_nil, List.nil_append] at hSorted ⊢
  obtain ⟨hBefore, hAfter, hCross⟩ := List.pairwise_append.mp hSorted
  rw [List.append_assoc, List.singleton_append]
  refine List.pairwise_append.mpr ⟨hBefore, List.pairwise_cons.mpr ⟨?_, hAfter⟩, ?_⟩
  · exact List.forall_mem_map.mpr h.after
  · intro v hv w hw
    rcases List.mem_cons.mp hw with rfl | hw
    · obtain ⟨m, hm, rfl⟩ := List.mem_map.mp hv
      exact h.before m hm
    · exact hCross v hv w hw

/-- What the loop leaves in `pre` and `p`. -/
def landing : List (Frame Node) × BinaryTree Node → Option Addr × Option Addr
  | (path, .nil) => ((above? path).map Node.addr, none)
  | (_, .node n _ _) => (some n.addr, some n.addr)

theorem Rep.seekPass {pre : Option Addr} (h : Rep s (plug path t))
    (hPre : t = .nil → pre = (above? path).map Node.addr) :
    Loop.Ends (s.seekPass val) (pre, (root? t).map Node.addr) (landing (locate val path t)) := by
  induction t generalizing path pre with
  | nil =>
    obtain rfl := hPre rfl
    have hPass : s.seekPass val ((above? path).map Node.addr, none) =
        .leave [] (landing (path, .nil)) := rfl
    exact (Loop.ends_leave hPass).mpr rfl
  | node n l r ihl ihr =>
    obtain ⟨-, hLeft, hRight, hVal, -⟩ := h.reads .left
    rw [locate]
    split
    · next hGt =>
      have hPass : s.seekPass val (pre, some n.addr) =
          .again [] (some n.addr, (root? r).map Node.addr) := by
        simp only [RbTree.seekPass, hVal, if_pos hGt, ← hRight, Side.other]
      have hRep : Rep s (plug (⟨.right, n, l⟩ :: path) r) := h
      exact (Loop.ends_again hPass).mpr (ihr hRep fun _ => rfl)
    · next hGt =>
      split
      · next hLt =>
        have hPass : s.seekPass val (pre, some n.addr) =
            .again [] (some n.addr, (root? l).map Node.addr) := by
          simp only [RbTree.seekPass, hVal, if_neg hGt, if_pos hLt, ← hLeft]
        have hRep : Rep s (plug (⟨.left, n, r⟩ :: path) l) := h
        exact (Loop.ends_again hPass).mpr (ihl hRep fun _ => rfl)
      · next hLt =>
        have hPass : s.seekPass val (pre, some n.addr) = .leave [] (some n.addr, some n.addr) := by
          simp only [RbTree.seekPass, hVal, if_neg hGt, if_neg hLt]
        exact (Loop.ends_leave hPass).mpr rfl

theorem Rep.seek (h : Rep s t) (val : Int) :
    Loop.Returns (fun fuel => s.seek fuel val) (landing (locate val [] t)) := by
  have hRoot := h.root
  have hEnds : Loop.Ends (s.seekPass val) (s.root, (root? t).map Node.addr)
      (landing (locate val [] t)) := by
    have hRep : Rep s (plug [] t) := h
    refine hRep.seekPass fun hNil => ?_
    rw [hRoot, hNil]
    rfl
  rw [← hRoot] at hEnds
  exact hEnds

theorem steady_seek (s : RbTree) (val : Int) : Loop.Steady fun fuel => s.seek fuel val :=
  Loop.Steady.map (Loop.steady_run _ _) _

end DemoCode.RBTree
