import Mathlib.Data.Finset.Lattice.Fold
import Mathlib.Order.Lattice.Nat
import DemoCode.RBTree.AddFixUp

/-! `AddNode` inserts its value into the tree that memory holds. -/

namespace DemoCode.RBTree

open Trees RedBlack

/-- `val` put into a tree, in the new node at `a`. -/
def insertVal (a : Addr) (val : Int) (t : BinaryTree Node) : BinaryTree Node :=
  match locate val [] t with
  | (path, .nil) => paint .black (addFix path (.node ⟨a, val, .red⟩ .nil .nil))
  | _ => t

variable {s : RbTree} {n : Node} {t : BinaryTree Node} {path : List (Frame Node)} {val : Int}
  {a : Addr}

/-- The nodes in memory do not notice a new one. -/
theorem Rep.new (h : Rep s t) (ha : a ∉ s.live) (val : Int) : Rep (s.new a val) t := by
  have hNe : ∀ n ∈ inorder t, n.addr ≠ a := fun n hn => by
    rintro rfl
    exact ha (h.stored n hn).2.2
  refine ⟨h.root, h.linked.congr (fun n hn side => ?_) fun n hn => ?_, h.nodup, fun n hn => ?_⟩
  · simp [hNe n hn]
  · simp [hNe n hn]
  · obtain ⟨hVal, hColor, hLive⟩ := h.stored n hn
    simp [hNe n hn, hVal, hColor, hLive]

theorem Rep.linkNode (h : Rep s (plug path .nil)) (ha : a ∉ s.live) (hBetween : Between path val) :
    ∃ s', (s.new a val).linkNode a ((above? path).map Node.addr) val = some s' ∧
      Rep s' (plug path (.node ⟨a, val, .red⟩ .nil .nil)) := by
  have hNe : ∀ n ∈ rim path, n.addr ≠ a := fun n hn => by
    rintro rfl
    exact ha (h.stored n (mem_plug.mpr (.inr hn))).2.2
  have hNodup : (addrs (plug path (.node ⟨a, val, .red⟩ .nil .nil))).Nodup := by
    have hOld := (addrs_plug_perm path .nil).nodup_iff.mp h.nodup
    refine (addrs_plug_perm path _).nodup_iff.mpr (List.nodup_cons.mpr ⟨fun hIn => ?_, hOld⟩)
    obtain ⟨n, hn, hAddr⟩ := List.mem_map.mp hIn
    exact hNe n hn hAddr
  cases path with
  | nil =>
    have hRoot : s.root = none := h.root
    refine ⟨((s.new a val).setP a none).setRoot (some a), ?_, ?_⟩
    · simp [RbTree.linkNode, hRoot]
    · refine h.refill ⟨rfl, by simp, by simp [rim, before, after], by simp [rim, before, after],
        by simp [rim, before, after]⟩ ⟨?_, ?_, ?_, trivial, trivial⟩ hNodup fun n hn => ?_
      · simp
      · simp
      · simp
      · obtain rfl := List.mem_singleton.mp hn
        simp
  | cons f path =>
    have hParent : f.parent ∈ rim (f :: path) := mem_rim_cons.mpr (.inl rfl)
    have hRoot : s.root ≠ none := by
      rw [h.root, ne_eq, Option.map_eq_none_iff, root?_eq_none]
      intro hNil
      have hIn := mem_plug.mpr (.inr hParent : f.parent ∈ inorder .nil ∨ f.parent ∈ rim (f :: path))
      rw [hNil] at hIn
      cases hIn
    obtain ⟨root, hRoot⟩ := Option.ne_none_iff_exists'.mp hRoot
    have hVal := (h.stored f.parent (mem_plug.mpr (.inr hParent))).1
    refine ⟨((s.new a val).setP a (some f.parent.addr)).setChild f.side f.parent.addr (some a),
      ?_, ?_⟩
    · simp only [RbTree.linkNode, RbTree.setP_root, RbTree.new_root, hRoot, above?_cons,
        Option.map_some, RbTree.setP_val, RbTree.new_val, hNe _ hParent, if_false, hVal]
      cases hSide : f.side with
      | left =>
        have hLt := hBetween.after f.parent (by simp [after, Frame.after, hSide])
        rw [if_neg (by omega)]
      | right =>
        have hLt := hBetween.before f.parent (by simp [before, Frame.before, hSide])
        rw [if_pos hLt]
    · refine h.refill ⟨by simp, fun f' hf => ?_, fun n hn side hSide => ?_, fun n hn => ?_,
        fun n hn => ?_⟩ ⟨?_, ?_, ?_, trivial, trivial⟩ hNodup fun n hn => ?_
      · obtain rfl := Option.some.inj hf
        simp
      · have hOther : ¬(side = f.side ∧ n.addr = f.parent.addr) := by
          rintro ⟨hEq, hAddr⟩
          refine hSide f rfl (List.inj_on_of_nodup_map h.nodup (mem_plug.mpr (.inr hn))
            (mem_plug.mpr (.inr hParent)) hAddr) hEq
        simp [hOther, hNe n hn]
      · simp [hNe n hn]
      · simp [hNe n hn]
      · simp
      · simp [(hNe _ hParent).symm]
      · simp [(hNe _ hParent).symm]
      · obtain rfl := List.mem_singleton.mp hn
        simp

theorem steady_addFixUp (s : RbTree) (newNode : Addr) :
    Loop.Steady fun fuel => s.addFixUp fuel newNode :=
  Loop.Steady.map (Loop.steady_run _ _) _

theorem isRed_plug_nil (h : isRed Node.color (plug path .nil) = false) (t : BinaryTree Node) :
    path ≠ [] → isRed Node.color (plug path t) = false := by
  intro hPath
  obtain ⟨f, path, rfl⟩ := List.exists_cons_of_ne_nil hPath
  rw [isRed_plug_cons f path t .nil]
  exact h

theorem steady_addAt (s : RbTree) (newNode : Addr) (val : Int) (x : Option Addr × Option Addr) :
    Loop.Steady fun fuel => s.addAt fuel newNode val x := by
  obtain ⟨pre, _ | p⟩ := x
  · simp only [RbTree.addAt]
    cases s.linkNode newNode pre val with
    | none => exact Loop.steady_const _
    | some s' => exact steady_addFixUp s' newNode
  · exact Loop.steady_const _

theorem steady_addNode (alloc : Allocator) (s : RbTree) (val : Int) :
    Loop.Steady fun fuel => s.addNode alloc fuel val :=
  Loop.Steady.bind (steady_seek _ val) fun x => steady_addAt _ _ val x

/-- **Refinement**: `AddNode` does in memory what `insertVal` does to the tree. -/
theorem Rep.addNode (alloc : Allocator) (h : Rep s t) (hSorted : Sorted t)
    (hBlack : isRed Node.color t = false) (val : Int) :
    ∃ s', Rep s' (insertVal (alloc.pick s) val t) ∧
      Loop.Returns (fun fuel => s.addNode alloc fuel val) (some s') := by
  have hNew := h.new (alloc.pick_free s) val
  have hAdd : ∀ s', Loop.Returns (fun fuel => (s.new (alloc.pick s) val).addAt fuel (alloc.pick s) val
      (landing (locate val [] t))) (some s') →
        Loop.Returns (fun fuel => s.addNode alloc fuel val) (some s') := fun s' hReturns =>
    (Loop.returns_bind (steady_seek _ val) fun x => steady_addAt _ _ val x).mpr
      ⟨_, hNew.seek val, hReturns⟩
  have hPlug := plug_locate val [] t
  have hBetween := locate_between hSorted (between_nil val)
  rw [insertVal]
  cases hLocate : locate val [] t with
  | mk path sub =>
    rw [hLocate] at hPlug hBetween hAdd
    cases sub with
    | nil =>
      have hPlug' : plug path .nil = t := hPlug
      rw [← hPlug'] at h hSorted hBlack
      obtain ⟨s₁, hLink, hRep⟩ := h.linkNode (alloc.pick_free s) hBetween
      obtain ⟨s', hRep', hReturns⟩ := hRep.addFixUp (hBetween.sorted hSorted) rfl
        (isRed_plug_nil hBlack _)
      refine ⟨s', hRep', hAdd s' ?_⟩
      simp only [landing, RbTree.addAt, hLink]
      exact hReturns
    | node n l r => exact ⟨_, hNew, hAdd _ ⟨0, rfl⟩⟩

/-! ### Sequences of calls -/

theorem cells_insertVal (h : locate val [] t = (path, .nil)) :
    cells (insertVal a val t) = cells (plug path (.node ⟨a, val, .red⟩ .nil .nil)) := by
  rw [insertVal, h]
  simp only [cells_paint, cells_addFix]

theorem Sorted.insertVal (h : Sorted t) (a : Addr) (val : Int) : Sorted (insertVal a val t) := by
  have hPlug := plug_locate val [] t
  have hBetween := locate_between h (between_nil val)
  cases hLocate : locate val [] t with
  | mk path sub =>
    rw [hLocate] at hPlug hBetween
    cases sub with
    | nil =>
      refine Sorted.congr (hBetween.sorted ?_) (cells_insertVal hLocate).symm
      exact (show plug path .nil = t from hPlug) ▸ h
    | node n l r =>
      rw [RBTree.insertVal, hLocate]
      exact h

theorem mem_vals_insertVal {v : Int} : v ∈ vals (insertVal a val t) ↔ v ∈ vals t ∨ v = val := by
  have hPlug := plug_locate val [] t
  cases hLocate : locate val [] t with
  | mk path sub =>
    rw [hLocate] at hPlug
    cases sub with
    | nil =>
      have hPlug' : plug path .nil = t := hPlug
      rw [vals_eq_cells, cells_insertVal hLocate, ← vals_eq_cells, mem_vals, ← hPlug', mem_vals]
      simp only [mem_plug, inorder_node, inorder_nil, List.nil_append, List.mem_singleton,
        List.not_mem_nil, false_or, or_and_right, exists_or, exists_eq_left]
      rw [or_comm, eq_comm]
    | node n l r =>
      have hVal : n.val = val := locate_val (congrArg Prod.snd hLocate)
      have hIn : n ∈ inorder t := by
        rw [show t = plug path (.node n l r) from hPlug.symm]
        exact mem_plug.mpr (.inl (by simp))
      rw [insertVal, hLocate]
      refine ⟨.inl, ?_⟩
      rintro (hv | rfl)
      · exact hv
      · exact mem_vals.mpr ⟨n, hIn, hVal⟩

theorem isRed_insertVal (h : isRed Node.color t = false) :
    isRed Node.color (insertVal a val t) = false := by
  rw [insertVal]
  split
  · exact isRed_paint_black _
  · exact h

/-- `vals` have been added one after the other, each in a state that met `ok`. -/
inductive Calls (alloc : Allocator) (ok : RbTree → Int → Prop) : List Int → RbTree → Prop
  | nil : Calls alloc ok [] .empty
  | snoc {vals s val s'} : Calls alloc ok vals s → ok s val →
      Loop.Returns (fun fuel => s.addNode alloc fuel val) (some s') →
      Calls alloc ok (vals ++ [val]) s'

/-- What a call leaves behind. -/
theorem Rep.of_addNode {alloc : Allocator} {s' : RbTree} (h : Rep s t) (hSorted : Sorted t)
    (hBlack : isRed Node.color t = false)
    (hReturns : Loop.Returns (fun fuel => s.addNode alloc fuel val) (some s')) :
    Rep s' (insertVal (alloc.pick s) val t) := by
  obtain ⟨s₁, hRep, hReturns'⟩ := h.addNode alloc hSorted hBlack val
  obtain rfl := Option.some.inj
    (Loop.Steady.unique (steady_addNode alloc s val) hReturns hReturns')
  exact hRep

theorem rep_empty : Rep .empty .nil := ⟨rfl, trivial, List.nodup_nil, by simp⟩

theorem Calls.rep {alloc : Allocator} {ok : RbTree → Int → Prop} {added : List Int}
    (h : Calls alloc ok added s) : ∃ t, Rep s t ∧ Sorted t ∧ isRed Node.color t = false ∧
      ∀ v, v ∈ vals t ↔ v ∈ added := by
  induction h with
  | nil => exact ⟨.nil, rep_empty, List.Pairwise.nil, rfl, fun v => Iff.rfl⟩
  | snoc _ _ hReturns ih =>
    obtain ⟨t, hRep, hSorted, hBlack, hVals⟩ := ih
    refine ⟨_, hRep.of_addNode hSorted hBlack hReturns, hSorted.insertVal _ _,
      isRed_insertVal hBlack, fun v => ?_⟩
    rw [mem_vals_insertVal, hVals, List.mem_append, List.mem_singleton]

/-- The tree that a sequence of calls leaves, up to the addresses of its nodes. -/
theorem exists_calls (alloc : Allocator) (added : List Int) :
    ∃ (s : RbTree) (as : List Addr), as.length = added.length ∧ Calls alloc (fun _ _ => True) added s ∧
      Rep s ((as.zip added).foldl (fun t x => insertVal x.1 x.2 t) .nil) := by
  induction added using List.reverseRecOn with
  | nil => exact ⟨.empty, [], rfl, .nil, rep_empty⟩
  | append_singleton added val ih =>
    obtain ⟨s, as, hLength, hCalls, hRep⟩ := ih
    obtain ⟨t, hRep', hSorted, hBlack, -⟩ := hCalls.rep
    obtain rfl := hRep.unique hRep'
    obtain ⟨s', hRep, hReturns⟩ := hRep.addNode alloc hSorted hBlack val
    refine ⟨s', as ++ [alloc.pick s], by simp [hLength], hCalls.snoc trivial hReturns, ?_⟩
    rw [List.zip_append hLength, List.foldl_append]
    exact hRep

/-- An allocator that never uses memory again. -/
def nextFree : Allocator where
  pick s := s.live.sup id + 1
  pick_free s h := absurd (Finset.le_sup h : id (s.live.sup id + 1) ≤ s.live.sup id)
    (Nat.not_succ_le_self _)

/-- **Set insertion**: whatever was added before, each `AddNode` returns and dereferences no null
pointer; then memory holds a search tree of the values added, with links both ways. -/
theorem addNode_inserts {alloc : Allocator} {added : List Int}
    (h : Calls alloc (fun _ _ => True) added s) :
    (∃ t, Rep s t ∧ Sorted t ∧ ∀ v, v ∈ vals t ↔ v ∈ added) ∧
      ∀ val, (∃ s', Loop.Returns (fun fuel => s.addNode alloc fuel val) (some s')) ∧
        ∀ fuel, s.addNode alloc fuel val ≠ some none := by
  obtain ⟨t, hRep, hSorted, hBlack, hVals⟩ := h.rep
  refine ⟨⟨t, hRep, hSorted, hVals⟩, fun val => ?_⟩
  obtain ⟨s', -, hReturns⟩ := hRep.addNode alloc hSorted hBlack val
  refine ⟨⟨s', hReturns⟩, fun fuel hNull => ?_⟩
  cases Loop.Steady.unique (steady_addNode alloc s val) hReturns ⟨fuel, hNull⟩

theorem addNode_inserts_three : ∃ s, (∃ t, Rep s t ∧ Sorted t ∧ ∀ v, v ∈ vals t ↔ v ∈ [2, 3, 1]) ∧
    ∀ val, (∃ s', Loop.Returns (fun fuel => s.addNode nextFree fuel val) (some s')) ∧
      ∀ fuel, s.addNode nextFree fuel val ≠ some none :=
  let ⟨s, _, _, hCalls, _⟩ := exists_calls nextFree [2, 3, 1]
  ⟨s, addNode_inserts hCalls⟩

end DemoCode.RBTree
