import DemoCode.RBTree.DelFixUp

/-! `DelNode` on the tree that memory holds: the node that it unlinks, and when the whole call is
safe. -/

namespace DemoCode.RBTree

open Trees RedBlack

variable {s s' : RbTree} {side : Side} {n d : Node} {c l r t : BinaryTree Node}
  {path : List (Frame Node)} {val : Int}

/-! ### The node that goes -/

/-- The last node of a tree, with the way to it and what is on its left. -/
def lastCut : Node → BinaryTree Node → BinaryTree Node →
    List (Frame Node) × Node × BinaryTree Node
  | n, l, .nil => ([], n, l)
  | n, l, .node m l' r' =>
    ((lastCut m l' r').1 ++ [⟨.right, n, l⟩], (lastCut m l' r').2)

theorem plug_lastCut (n : Node) (l r : BinaryTree Node) :
    plug (lastCut n l r).1 (branch .left (lastCut n l r).2.1 (lastCut n l r).2.2 .nil) =
      .node n l r := by
  induction r generalizing n l with
  | nil => rfl
  | node m l' r' _ ih =>
    rw [lastCut, plug_append, ih]
    rfl

/-- The last node has nothing on its right. -/
theorem after_lastCut (n : Node) (l r : BinaryTree Node) : after (lastCut n l r).1 = [] := by
  have hAppend : ∀ (path : List (Frame Node)) (f : Frame Node), f.side = .right →
      after (path ++ [f]) = after path := by
    intro path f hf
    induction path with
    | nil => simp [after, Frame.after, hf]
    | cons g path ih => simp [after, ih]
  induction r generalizing n l with
  | nil => rfl
  | node m l' r' _ ih => rw [lastCut, hAppend _ _ rfl, ih]

/-- What `DelNode` unlinks for a node with the subtrees `l` and `r`: a node, which has only one child,
in the tree as it is then. -/
def cutAt (path : List (Frame Node)) (d : Node) :
    BinaryTree Node → BinaryTree Node → List (Frame Node) × Node × BinaryTree Node
  | .nil, r => (path, d, r)
  | l, .nil => (path, d, l)
  | .node m l' r', r =>
    let (path', hj, c) := lastCut m l' r'
    (path' ++ ⟨.left, { d with val := hj.val }, r⟩ :: path, hj, c)

def cut (val : Int) (t : BinaryTree Node) :
    Option (List (Frame Node) × Node × BinaryTree Node) :=
  match locate val [] t with
  | (_, .nil) => none
  | (path, .node d l r) => some (cutAt path d l r)

/-- What becomes of the tree without that node. -/
def delFix (path : List (Frame Node)) (d : Node) (c : BinaryTree Node) :
    Option (Option (BinaryTree Node)) :=
  match path, d.color, c with
  | [], _, c => some (some (paint .black c))
  | path, .red, c => some (some (plug path c))
  | path, .black, .nil => repair path .nil
  | path, .black, c => some (some (plug path (paint .black c)))

def deleteVal (val : Int) (t : BinaryTree Node) : Option (Option (BinaryTree Node)) :=
  match cut val t with
  | none => some (some t)
  | some (path, d, c) => delFix path d c

/-! ### Unlinking -/

/-- The only child of a node takes its place. -/
theorem Rep.hoist (h : Rep s (plug path (branch side d c .nil)))
    (hRefills : Refills path ((root? c).map Node.addr) s s')
    (hChild : ∀ n ∈ inorder c, ∀ side, s'.child side n.addr = s.child side n.addr)
    (hP : ∀ n ∈ inorder c, s'.p n.addr =
      if (root? c).map Node.addr = some n.addr then (above? path).map Node.addr else s.p n.addr)
    (hStored : s'.val = s.val ∧ s'.color = s.color ∧ s'.live = s.live) : Rep s' (plug path c) := by
  obtain ⟨hNodup, -⟩ := h.nodup_plug
  obtain ⟨-, hLinked⟩ := linked_plug.mp h.linked
  obtain ⟨-, -, -, hc, -⟩ := linked_branch.mp hLinked
  have hNodupC := (nodup_branch.mp hNodup).2.1
  refine h.refill hRefills (hc.rehang hChild (fun n hn => ?_) (fun n hn hNot => ?_) hNodupC) ?_
    fun n hn => ?_
  · rw [hP n (mem_root? hn), hn, Option.map_some, if_pos rfl]
  · rw [hP n hn, if_neg]
    intro hEq
    obtain ⟨m, hm, hAddr⟩ := Option.map_eq_some_iff.mp hEq
    rw [List.inj_on_of_nodup_map hNodupC (mem_root? hm) hn hAddr] at hm
    exact hNot hm
  · have hAll := (addrs_plug_perm path _).nodup_iff.mp h.nodup
    refine (addrs_plug_perm path c).nodup_iff.mpr (hAll.sublist (List.Sublist.append_right ?_ _))
    cases side <;> simp [addrs, branch]
  · obtain ⟨hVal, hColor, hLive⟩ := hStored
    rw [hVal, hColor, hLive]
    exact h.stored n (mem_plug.mpr (.inl (mem_branch.mpr (.inr (.inl hn)))))

/-- The only child of a node, as `DelNode` asks for it. -/
theorem Rep.only_child (h : Rep s (plug path (branch side d c .nil))) :
    (if s.child .left d.addr = none then s.child .right d.addr else s.child .left d.addr) =
      (root? c).map Node.addr := by
  obtain ⟨-, hc, hNil, -⟩ := h.reads side
  cases side with
  | left =>
    rw [hc, show s.child .right d.addr = none from hNil]
    split
    · next hNone => exact hNone.symm
    · rfl
  | right =>
    have hLeft : s.child .left d.addr = none := hNil
    rw [hc, if_pos hLeft]

theorem Rep.unlinkRoot (h : Rep s (branch side d c .nil)) :
    Rep (s.unlinkRoot d.addr) (paint .black c) := by
  have hPlug : Rep s (plug [] (branch side d c .nil)) := h
  have hRep : Rep ((s.setRoot ((root? c).map Node.addr)).adopt none ((root? c).map Node.addr))
      (plug [] c) := by
    refine hPlug.hoist ⟨?_, by simp, by simp [rim, before, after], by simp [rim, before, after],
      by simp [rim, before, after]⟩ (fun n hn => ?_) (fun n hn => ?_) ?_
    · simp
    · simp
    · simp
    · simp
  simp only [RbTree.unlinkRoot, hPlug.only_child, RbTree.setRoot_root]
  cases c with
  | nil => exact hRep
  | node m l r =>
    have hNode : Rep _ (plug [] (branch .left m l r)) := hRep
    exact hNode.setColor .black

/-- The link to a node goes to its only child. -/
theorem Rep.unlinkBelow {f : Frame Node} (h : Rep s (plug (f :: path) (branch side d c .nil))) :
    Rep (s.unlinkBelow d.addr f.parent.addr ((root? c).map Node.addr)) (plug (f :: path) c) := by
  have hAbove : Rep s (plug path (branch f.side f.parent (branch side d c .nil) f.sibling)) := h
  have hSide := hAbove.child_eq (root?_branch side d c .nil) .left
  obtain ⟨hUp, -⟩ := h.reads side
  obtain ⟨-, -, hNot⟩ := h.nodup_plug
  have hParent : f.parent ∈ rim (f :: path) := mem_rim_cons.mpr (.inl rfl)
  have hSet : (if s.child .left f.parent.addr = some d.addr then
      s.setChild .left f.parent.addr ((root? c).map Node.addr)
        else s.setChild .right f.parent.addr ((root? c).map Node.addr)) =
      s.setChild f.side f.parent.addr ((root? c).map Node.addr) := by
    cases hEq : f.side with
    | left => rw [if_pos (hSide.mpr hEq.symm)]
    | right => rw [if_neg fun hLeft => by cases hEq.symm.trans (hSide.mp hLeft).symm]
  have hNe : ∀ n ∈ inorder c, n.addr ≠ f.parent.addr := fun n hn hEq =>
    hNot f.parent hParent (hEq ▸ mem_addrs_branch.mpr (.inr (.inl (mem_addrs_of_mem hn))))
  have hHole : ∀ n ∈ rim (f :: path), (root? c).map Node.addr ≠ some n.addr := fun n hn hEq =>
    hNot n hn (mem_addrs_branch.mpr (.inr (.inl (root_mem_addrs hEq))))
  rw [RbTree.unlinkBelow, hSet]
  refine h.hoist ⟨?_, fun f' hf => ?_, fun n hn side hOther => ?_, fun n hn => ?_, fun n hn => ?_⟩
    (fun n hn side => ?_) (fun n hn => ?_) ?_
  · simp
  · obtain rfl := Option.some.inj hf
    simp
  · have hNot : ¬(side = f.side ∧ n.addr = f.parent.addr) := by
      rintro ⟨hEq, hAddr⟩
      exact hOther f rfl (List.inj_on_of_nodup_map h.nodup (mem_plug.mpr (.inr hn))
        (mem_plug.mpr (.inr hParent)) hAddr) hEq
    simp [hNot]
  · simp [hHole n hn]
  · simp
  · simp [hNe n hn]
  · simp [hUp]
  · simp

theorem Rep.lastPass (h : Rep s (plug path (.node n l r))) :
    Loop.Ends s.lastPass n.addr (lastCut n l r).2.1.addr := by
  induction r generalizing path n l with
  | nil =>
    have hRight : s.child .right n.addr = none := (h.reads .right).2.1
    have hPass : s.lastPass n.addr = .leave [] n.addr := by simp only [RbTree.lastPass, hRight]
    exact (Loop.ends_leave hPass).mpr rfl
  | node m l' r' _ ih =>
    have hRight : s.child .right n.addr = some m.addr := (h.reads .right).2.1
    have hPass : s.lastPass n.addr = .again [] m.addr := by simp only [RbTree.lastPass, hRight]
    have hBelow : Rep s (plug (⟨.right, n, l⟩ :: path) (.node m l' r')) := h
    exact (Loop.ends_again hPass).mpr (ih hBelow)

/-- The tree with the node that goes, once its value is where it belongs. -/
theorem Rep.takeHj (h : Rep s (plug path (.node d l r))) : ∃ side s₁,
    Loop.Returns (fun fuel => s.takeHj fuel d.addr) (s₁, (cutAt path d l r).2.1.addr) ∧
      Rep s₁ (plug (cutAt path d l r).1
        (branch side (cutAt path d l r).2.1 (cutAt path d l r).2.2 .nil)) := by
  have hLeft : s.child .left d.addr = (root? l).map Node.addr := (h.reads .left).2.1
  have hRight : s.child .right d.addr = (root? r).map Node.addr := (h.reads .right).2.1
  match l, r with
  | .nil, r =>
    refine ⟨.right, s, ⟨0, ?_⟩, h⟩
    simp only [RbTree.takeHj, hLeft, root?_nil, Option.map_none, cutAt]
  | .node m l' r', .nil =>
    refine ⟨.left, s, ⟨0, ?_⟩, h⟩
    simp only [RbTree.takeHj, hRight, root?_nil, Option.map_none, cutAt]
    split <;> first | rfl | contradiction
  | .node m l' r', .node v x y =>
    have hHj := plug_lastCut m l' r'
    have hIn : Rep s (plug (⟨.left, d, .node v x y⟩ :: path) (.node m l' r')) := h
    have hBelow : Rep s (plug ((lastCut m l' r').1 ++ ⟨.left, d, .node v x y⟩ :: path)
        (branch .left (lastCut m l' r').2.1 (lastCut m l' r').2.2 .nil)) := by
      rw [plug_append, hHj]
      exact h
    have hVal := (hBelow.reads .left).2.2.2.1
    refine ⟨.left, s.setVal d.addr (lastCut m l' r').2.1.val, ?_, ?_⟩
    · obtain ⟨last, hLast, hEq⟩ := Loop.returns_map.mp hIn.lastPass
      simp only [RbTree.takeHj, hLeft, hRight, root?_node, Option.map_some, cutAt]
      exact Loop.returns_map.mpr ⟨last, hLast, by simp only [hEq, hVal]⟩
    · have hd : Rep s (plug path (branch .left d (.node m l' r') (.node v x y))) := h
      have hSet := hd.setVal (lastCut m l' r').2.1.val
      simp only [cutAt]
      rw [plug_append, hHj]
      exact hSet

/-! ### The whole call -/

/-- Memory that the tree does not use is freed. -/
theorem Rep.delete {a : Addr} (h : Rep s t) (ha : a ∉ addrs t) : Rep (s.delete a) t := by
  refine ⟨h.root, h.linked, h.nodup, fun n hn => ?_⟩
  obtain ⟨hVal, hColor, hLive⟩ := h.stored n hn
  exact ⟨hVal, hColor, Finset.mem_erase.mpr ⟨ne_of_mem_of_not_mem (mem_addrs_of_mem hn) ha, hLive⟩⟩

theorem Outcome.delete {f : ℕ → Option (Option RbTree)} {res : Option (Option (BinaryTree Node))}
    {a : Addr} (h : Outcome f res) (ha : ∀ t, res = some (some t) → a ∉ addrs t) :
    Outcome (fun fuel => (f fuel).map (Option.map (·.delete a))) res := by
  match res, h with
  | none, h =>
    intro r hReturns
    obtain ⟨r', hr', -⟩ := Loop.returns_map.mp hReturns
    exact h r' hr'
  | some none, h => exact Loop.returns_map.mpr ⟨none, h, rfl⟩
  | some (some t), ⟨s', hRep, hReturns⟩ =>
    exact ⟨s'.delete a, hRep.delete (ha t rfl), Loop.returns_map.mpr ⟨some s', hReturns, rfl⟩⟩

theorem Outcome.bind {β : Type} {f : ℕ → Option β} {g : β → ℕ → Option (Option RbTree)} {b : β}
    {res : Option (Option (BinaryTree Node))} (hf : Loop.Steady f) (hg : ∀ b, Loop.Steady (g b))
    (hb : Loop.Returns f b) (h : Outcome (g b) res) :
    Outcome (fun fuel => (f fuel).bind fun b => g b fuel) res := by
  have hIff : ∀ r, Loop.Returns (fun fuel => (f fuel).bind fun b => g b fuel) r ↔
      Loop.Returns (g b) r := by
    intro r
    rw [Loop.returns_bind hf hg]
    constructor
    · rintro ⟨b', hb', hr⟩
      rwa [Loop.Steady.unique hf hb hb']
    · exact fun hr => ⟨b, hb, hr⟩
  match res, h with
  | none, h => exact fun r hReturns => h r ((hIff r).mp hReturns)
  | some none, h => exact (hIff none).mpr h
  | some (some t), ⟨s', hRep, hReturns⟩ => exact ⟨s', hRep, (hIff _).mpr hReturns⟩

theorem steady_delFixUp (s : RbTree) (replace parent : Option Addr) :
    Loop.Steady fun fuel => s.delFixUp fuel replace parent := by
  cases replace with
  | none => exact Loop.Steady.map (Loop.steady_run _ _) _
  | some replace => exact Loop.steady_const _

theorem steady_unlink (s : RbTree) (delNode : Addr) :
    Loop.Steady fun fuel => s.unlink fuel delNode := by
  simp only [RbTree.unlink]
  split
  · split
    · exact Loop.steady_const _
    · split
      · exact Loop.Steady.map (steady_delFixUp _ _ _) _
      · exact Loop.steady_const _
  · exact Loop.steady_const _

theorem steady_takeHj (s : RbTree) (delNode : Addr) :
    Loop.Steady fun fuel => s.takeHj fuel delNode := by
  simp only [RbTree.takeHj]
  split
  · exact Loop.Steady.map (Loop.steady_run _ _) _
  · exact Loop.steady_const _

theorem steady_delAt (s : RbTree) (x : Option Addr) : Loop.Steady fun fuel => s.delAt fuel x := by
  cases x with
  | none => exact Loop.steady_const _
  | some delNode =>
    exact Loop.Steady.bind (steady_takeHj s delNode) fun x => steady_unlink x.1 x.2

theorem steady_delNode (s : RbTree) (val : Int) : Loop.Steady fun fuel => s.delNode fuel val :=
  Loop.Steady.bind (steady_seek s val) fun x => steady_delAt s x.2

theorem cells_delFix {t' : BinaryTree Node} (h : delFix path d c = some (some t')) :
    cells t' = cells (plug path c) := by
  match path, hColor : d.color, c with
  | [], _, c =>
    rw [delFix] at h
    cases h
    exact cells_paint _ _
  | f :: path, .red, c =>
    rw [delFix.eq_def] at h
    simp only [hColor] at h
    cases h
    rfl
  | f :: path, .black, .nil =>
    rw [delFix.eq_def] at h
    simp only [hColor] at h
    exact cells_repair h
  | f :: path, .black, .node m x y =>
    rw [delFix.eq_def] at h
    simp only [hColor] at h
    cases h
    exact cells_plug_congr _ (cells_paint _ _)

theorem mem_addrs_plug {a : Addr} :
    a ∈ addrs (plug path t) ↔ a ∈ addrs t ∨ a ∈ (rim path).map Node.addr := by
  rw [(addrs_plug_perm path t).mem_iff, List.mem_append]

/-- **Unlinking**: the rest of `DelNode` does to memory what `delFix` does to the tree. -/
theorem Rep.unlink (h : Rep s (plug path (branch side d c .nil))) (hSorted : Sorted (plug path c))
    (hFits : c = .nil → d.color = .black → ∃ red, Fits Node.color path red 1) :
    Outcome (fun fuel => s.unlink fuel d.addr) (delFix path d c) := by
  obtain ⟨hNodup, -, hRim⟩ := h.nodup_plug
  have hdc : d.addr ∉ addrs c := (nodup_branch.mp hNodup).1.1
  have hNot : ∀ t', cells t' = cells (plug path c) → d.addr ∉ addrs t' := by
    intro t' hCells
    rw [addrs_eq_cells, hCells, ← addrs_eq_cells, mem_addrs_plug, not_or]
    refine ⟨hdc, fun hIn => ?_⟩
    obtain ⟨n, hn, hAddr⟩ := List.mem_map.mp hIn
    exact hRim n hn (by simp [hAddr])
  obtain ⟨hUp, hc, hNil, -, hColor⟩ := h.reads side
  have hTest : s.child .left d.addr = none ∨ s.child .right d.addr = none := by
    cases side with
    | left => exact .inr hNil
    | right => exact .inl hNil
  cases path with
  | nil =>
    have hRoot : Rep s (branch side d c .nil) := h
    have hUp' : s.p d.addr = none := hUp
    refine ⟨_, hRoot.unlinkRoot.delete (hNot _ (cells_paint _ _)), 0, ?_⟩
    simp only [RbTree.unlink, if_pos hTest, hUp']
  | cons f path =>
    have hUp' : s.p d.addr = some f.parent.addr := hUp
    have hChild : s.delChild d.addr = (root? c).map Node.addr := by
      simp only [RbTree.delChild, ne_eq, ite_not]
      exact h.only_child
    have hUp₂ : (s.unlinkBelow d.addr f.parent.addr ((root? c).map Node.addr)).p d.addr =
        some f.parent.addr := by
      rw [RbTree.unlinkBelow_p, hUp', ite_self]
    have hUnlink : (fun fuel => s.unlink fuel d.addr) = fun fuel =>
        if d.color = .black then
          ((s.unlinkBelow d.addr f.parent.addr ((root? c).map Node.addr)).delFixUp fuel
            ((root? c).map Node.addr) (some f.parent.addr)).map (Option.map (·.delete d.addr))
        else some (some ((s.unlinkBelow d.addr f.parent.addr ((root? c).map Node.addr)).delete
          d.addr)) := by
      funext fuel
      simp only [RbTree.unlink, if_pos hTest, hUp', hChild, RbTree.unlinkBelow_color, hColor, hUp₂]
    rw [hUnlink]
    have hRep := h.unlinkBelow
    cases hd : d.color with
    | red =>
      simp only [delFix, hd, reduceCtorEq, if_false]
      exact ⟨_, hRep.delete (hNot _ rfl), 0, rfl⟩
    | black =>
      simp only [if_true]
      refine Outcome.delete ?_ fun t' ht' => hNot t' (cells_delFix ht')
      cases c with
      | nil =>
        obtain ⟨red, hFits⟩ := hFits rfl hd
        simp only [delFix, hd]
        exact hRep.repair hSorted hFits
      | node m x y =>
        simp only [delFix, hd]
        have hNode : Rep _ (plug (f :: path) (branch .left m x y)) := hRep
        exact ⟨_, hNode.setColor .black, 0, rfl⟩

theorem vals_plug (path : List (Frame Node)) (t : BinaryTree Node) :
    vals (plug path t) =
      (before path).map Node.val ++ vals t ++ (after path).map Node.val := by
  simp only [vals, inorder_plug, List.map_append]

theorem vals_node (n : Node) (l r : BinaryTree Node) :
    vals (.node n l r) = vals l ++ n.val :: vals r := by
  simp only [vals, inorder_node, List.map_append, List.map_cons]

/-- The values without the node that goes. -/
theorem vals_cutAt (path : List (Frame Node)) (d : Node) (l r : BinaryTree Node) :
    vals (plug (cutAt path d l r).1 (cutAt path d l r).2.2) =
      ((before path).map Node.val ++ vals l) ++ (vals r ++ (after path).map Node.val) := by
  match l, r with
  | .nil, r =>
    rw [cutAt, vals_plug]
    simp [vals]
  | .node m l' r', .nil =>
    simp only [cutAt]
    rw [vals_plug]
    simp [vals]
  | .node m l' r', .node v x y =>
    have hLeft : vals (.node m l' r') = vals (plug (lastCut m l' r').1 (lastCut m l' r').2.2) ++
        [(lastCut m l' r').2.1.val] := by
      rw [← plug_lastCut m l' r', vals_plug, vals_plug, after_lastCut]
      simp [branch, vals]
    simp only [cutAt]
    rw [plug_append, plug, vals_plug, branch, vals_node, hLeft]
    simp only [List.append_assoc, List.cons_append, List.nil_append]

/-- The colours do not depend on the value that moves. -/
theorem valid_cutAt (h : Valid Node.color (plug path (.node d l r))) : ∃ side,
    Valid Node.color (plug (cutAt path d l r).1
      (branch side (cutAt path d l r).2.1 (cutAt path d l r).2.2 .nil)) := by
  match l, r with
  | .nil, r => exact ⟨.right, h⟩
  | .node m l' r', .nil => exact ⟨.left, h⟩
  | .node m l' r', .node v x y =>
    refine ⟨.left, ?_⟩
    simp only [cutAt]
    rw [plug_append, plug_lastCut, plug]
    obtain ⟨k, hBalanced, hFits⟩ := valid_plug.mp h
    refine valid_plug.mpr ⟨k, ?_, hFits⟩
    cases hBalanced with
    | red hRed hl hr hBl hBr => exact .red hRed hl hr hBl hBr
    | black hBlack hBl hBr => exact .black hBlack hBl hBr

/-- A value that is looked up in vain is not in the tree. -/
theorem not_mem_vals (hSorted : Sorted t) (h : locate val [] t = (path, .nil)) : val ∉ vals t := by
  have hPlug := plug_locate val [] t
  have hBetween := locate_between hSorted (between_nil val)
  rw [h] at hPlug hBetween
  have hPlug' : plug path .nil = t := hPlug
  rw [← hPlug', mem_vals]
  rintro ⟨n, hn, rfl⟩
  rw [inorder_plug] at hn
  simp only [inorder_nil, List.append_nil, List.mem_append] at hn
  rcases hn with hn | hn
  · exact lt_irrefl _ (hBetween.before n hn)
  · exact lt_irrefl _ (hBetween.after n hn)

/-- The values of the tree around the node that `locate` finds. -/
theorem vals_locate (h : locate val [] t = (path, .node d l r)) :
    vals t = ((before path).map Node.val ++ vals l) ++ val ::
      (vals r ++ (after path).map Node.val) := by
  have hPlug := plug_locate val [] t
  have hVal : d.val = val := locate_val (congrArg Prod.snd h)
  rw [h] at hPlug
  have hPlug' : plug path (.node d l r) = t := hPlug
  rw [← hPlug', vals_plug, vals_node, hVal]
  simp only [List.append_assoc, List.cons_append]

theorem vals_cut (hSorted : Sorted t) (h : locate val [] t = (path, .node d l r)) :
    Sorted (plug (cutAt path d l r).1 (cutAt path d l r).2.2) ∧
      vals (plug (cutAt path d l r).1 (cutAt path d l r).2.2) = (vals t).erase val := by
  have hVals := vals_locate h
  rw [Sorted, hVals] at hSorted
  rw [Sorted, vals_cutAt, hVals]
  constructor
  · exact hSorted.sublist ((List.Sublist.refl _).append (List.sublist_cons_self _ _))
  · rw [List.erase_append_right, List.erase_cons_head]
    intro hIn
    exact lt_irrefl _ ((List.pairwise_append.mp hSorted).2.2 val hIn val List.mem_cons_self)

theorem deleteVal_spec {t' : BinaryTree Node} (hSorted : Sorted t)
    (h : deleteVal val t = some (some t')) : Sorted t' ∧ vals t' = (vals t).erase val := by
  cases hLocate : locate val [] t with
  | mk path sub =>
    cases sub with
    | nil =>
      simp only [deleteVal, cut, hLocate] at h
      cases h
      exact ⟨hSorted, (List.erase_of_not_mem (not_mem_vals hSorted hLocate)).symm⟩
    | node d l r =>
      simp only [deleteVal, cut, hLocate] at h
      obtain ⟨hSorted', hVals⟩ := vals_cut hSorted hLocate
      have hCells := cells_delFix h
      refine ⟨hSorted'.congr hCells.symm, ?_⟩
      rw [vals_eq_cells, hCells, ← vals_eq_cells, hVals]

/-- The black height at the place of a black leaf that goes. -/
theorem fits_one {side : Side} (h : Valid Node.color (plug path (branch side d .nil .nil)))
    (hd : d.color = .black) : Fits Node.color path false 1 := by
  obtain ⟨k, hBalanced, hFits⟩ := valid_plug.mp h
  obtain ⟨m, rfl, hNil, -⟩ := (balanced_black hd).mp hBalanced
  obtain rfl := balanced_nil.mp hNil
  exact hFits.of_red

/-- **Refinement**: `DelNode` does to memory what `deleteVal` does to the tree. -/
theorem Rep.delNode (h : Rep s t) (hSorted : Sorted t) (hValid : Valid Node.color t) (val : Int) :
    Outcome (fun fuel => s.delNode fuel val) (deleteVal val t) := by
  apply Outcome.bind (steady_seek s val) (fun x => steady_delAt s x.2) (h.seek val)
  have hPlug := plug_locate val [] t
  cases hLocate : locate val [] t with
  | mk path sub =>
    rw [hLocate] at hPlug
    cases sub with
    | nil =>
      simp only [deleteVal, cut, hLocate, landing]
      exact ⟨s, h, 0, rfl⟩
    | node d l r =>
      simp only [deleteVal, cut, hLocate, landing]
      have hPlug' : plug path (.node d l r) = t := hPlug
      rw [← hPlug'] at h hValid
      obtain ⟨side, s₁, hTake, hRep⟩ := h.takeHj
      obtain ⟨side', hValid'⟩ := valid_cutAt hValid
      apply Outcome.bind (steady_takeHj s d.addr) (fun x => steady_unlink x.1 x.2) hTake
      refine hRep.unlink (vals_cut hSorted hLocate).1 fun hc hd => ⟨false, ?_⟩
      rw [hc] at hValid'
      exact fits_one hValid' hd

end DemoCode.RBTree
