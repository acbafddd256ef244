import DemoCode.RBTree.RbTree

/-! The trees that a state of the memory holds, and what the rotations make of them. -/

namespace DemoCode.RBTree

open Trees RedBlack

/-- What a `Node` holds besides its links. -/
structure Node where
  addr : Addr
  val : Int
  color : Color
  deriving DecidableEq, Repr

@[simps]
def Node.paint (n : Node) (c : Color) : Node := { n with color := c }

/-- The nodes of a tree without their colours. -/
def cells (t : BinaryTree Node) : List (Addr × Int) := (inorder t).map fun n => (n.addr, n.val)

def vals (t : BinaryTree Node) : List Int := (inorder t).map Node.val

def addrs (t : BinaryTree Node) : List Addr := (inorder t).map Node.addr

/-- A search tree: its values strictly increase. -/
def Sorted (t : BinaryTree Node) : Prop := (vals t).Pairwise (· < ·)

/-- `t` is the tree at `root`: its nodes lie in memory, with links both ways. -/
structure Rep (s : RbTree) (t : BinaryTree Node) : Prop where
  root : s.root = (root? t).map Node.addr
  linked : Linked Node.addr s.child s.p none t
  nodup : (addrs t).Nodup
  stored : ∀ n ∈ inorder t, s.val n.addr = n.val ∧ s.color n.addr = n.color ∧ n.addr ∈ s.live

variable {s s' : RbTree} {side : Side} {g q n : Node} {a b c x y u t t' : BinaryTree Node}
  {path : List (Frame Node)} {above : Option Addr}

theorem vals_eq_cells (t : BinaryTree Node) : vals t = (cells t).map Prod.snd := by
  rw [cells, vals, List.map_map]
  rfl

theorem addrs_eq_cells (t : BinaryTree Node) : addrs t = (cells t).map Prod.fst := by
  rw [cells, addrs, List.map_map]
  rfl

theorem Sorted.congr (h : Sorted t) (hCells : cells t = cells t') : Sorted t' := by
  rwa [Sorted, vals_eq_cells, hCells, ← vals_eq_cells] at h

theorem mem_vals {v : Int} : v ∈ vals t ↔ ∃ n ∈ inorder t, n.val = v := List.mem_map

theorem mem_addrs {a : Addr} : a ∈ addrs t ↔ ∃ n ∈ inorder t, n.addr = a := List.mem_map

theorem mem_addrs_of_mem (h : n ∈ inorder t) : n.addr ∈ addrs t := List.mem_map_of_mem h

theorem root_mem_addrs {a : Addr} (h : (root? t).map Node.addr = some a) : a ∈ addrs t := by
  obtain ⟨n, hn, rfl⟩ := Option.map_eq_some_iff.mp h
  exact mem_addrs_of_mem (mem_root? hn)

@[simp] theorem mem_addrs_branch {a : Addr} :
    a ∈ addrs (branch side n x y) ↔ a = n.addr ∨ a ∈ addrs x ∨ a ∈ addrs y := by
  simp only [mem_addrs, mem_branch, or_and_right, exists_or, exists_eq_left]
  exact or_congr_left eq_comm

theorem nodup_branch : (addrs (branch side n x y)).Nodup ↔
    (n.addr ∉ addrs x ∧ n.addr ∉ addrs y) ∧ (addrs x).Nodup ∧ (addrs y).Nodup ∧
      ∀ a ∈ addrs x, a ∉ addrs y := by
  have hPerm : (addrs (branch side n x y)).Perm (n.addr :: (addrs x ++ addrs y)) := by
    cases side
    · simp [addrs, branch]
    · simpa [addrs, branch] using List.perm_middle.trans (List.perm_append_comm.cons _)
  rw [hPerm.nodup_iff, List.nodup_cons, List.nodup_append, List.mem_append, not_or]
  simp only [List.forall_mem_ne, ne_eq]

/-! ### Rotations -/

/-- `s'` is `s` with other links at some of the nodes `as`. -/
structure Relinks (as : List Addr) (s s' : RbTree) : Prop where
  val : s'.val = s.val
  color : s'.color = s.color
  live : s'.live = s.live
  root : s'.root = s.root
  child : ∀ a ∉ as, ∀ side, s'.child side a = s.child side a
  p : ∀ a ∉ as, s'.p a = s.p a

theorem Relinks.trans {as : List Addr} {s'' : RbTree} (h : Relinks as s s') (h' : Relinks as s' s'') :
    Relinks as s s'' :=
  ⟨h'.val.trans h.val, h'.color.trans h.color, h'.live.trans h.live, h'.root.trans h.root,
    fun a ha side => (h'.child a ha side).trans (h.child a ha side),
    fun a ha => (h'.p a ha).trans (h.p a ha)⟩

theorem Relinks.mono {as as' : List Addr} (h : Relinks as s s') (hSub : ∀ a ∈ as, a ∈ as') :
    Relinks as' s s' :=
  ⟨h.val, h.color, h.live, h.root, fun a ha => h.child a fun hIn => ha (hSub a hIn),
    fun a ha => h.p a fun hIn => ha (hSub a hIn)⟩

namespace RbTree

/-- The links after a rotation. -/
theorem rotate_eq {root tmp : Addr} (hTmp : s.child side root = some tmp)
    (hInner : s.child side.other tmp ≠ some root) :
    ∃ s', s.rotate side root = some (s', tmp) ∧
      (s'.val = s.val ∧ s'.color = s.color ∧ s'.live = s.live ∧ s'.root = s.root) ∧
      (∀ side' x, s'.child side' x =
        if side' = side.other ∧ x = tmp then some root
        else if side' = side ∧ x = root then s.child side.other tmp else s.child side' x) ∧
      ∀ x, s'.p x =
        if x = root then some tmp else if x = tmp then s.p root
        else if s.child side.other tmp = some x then some root else s.p x := by
  simp only [rotate, hTmp, Option.bind_eq_bind, Option.bind_some]
  refine ⟨_, rfl, ?_⟩
  cases h : s.child side.other tmp with
  | none => simp [adopt, h]
  | some inner =>
    have hNe : inner ≠ root := fun hEq => hInner (hEq ▸ h)
    simp [adopt, h, hNe.symm, eq_comm]

end RbTree

theorem rotate_spec
    (h : Linked Node.addr s.child s.p above (branch side g (branch side q a b) c))
    (hNodup : (addrs (branch side g (branch side q a b) c)).Nodup) :
    ∃ s', s.rotate side g.addr = some (s', q.addr) ∧
      Relinks (addrs (branch side g (branch side q a b) c)) s s' ∧
      Linked Node.addr s'.child s'.p above (branch side q a (branch side g b c)) := by
  obtain ⟨hgUp, hgChild, hgOther, hq, hc⟩ := linked_branch.mp h
  obtain ⟨hqUp, hqChild, hqOther, ha, hb⟩ := linked_branch.mp hq
  obtain ⟨⟨hgIn, hgc⟩, hNodupQ, -, hDisjoint⟩ := nodup_branch.mp hNodup
  obtain ⟨⟨hqa, hqb⟩, -, hNodupB, hab⟩ := nodup_branch.mp hNodupQ
  simp only [mem_addrs_branch, not_or] at hgIn hDisjoint
  obtain ⟨hgq, hga, hgb⟩ := hgIn
  rw [root?_branch, Option.map_some] at hgChild
  obtain ⟨s', hRotate, ⟨hVal, hColor, hLive, hRoot⟩, hChild, hP⟩ :=
    RbTree.rotate_eq hgChild fun hEq => hgb (root_mem_addrs (hqOther.symm.trans hEq))
  refine ⟨s', hRotate, ⟨hVal, hColor, hLive, hRoot, fun x hx side' => ?_, fun x hx => ?_⟩, ?_⟩
  · simp only [mem_addrs_branch, not_or] at hx
    simp [hChild, hx]
  · simp only [mem_addrs_branch, not_or] at hx
    have hNe : s.child side.other q.addr ≠ some x := fun hEq =>
      hx.2.1.2.2 (root_mem_addrs (hqOther.symm.trans hEq))
    simp [hP, hx, hNe]
  -- a node that is not moved keeps its links
  have hChildSame : ∀ x, x ≠ g.addr → x ≠ q.addr → ∀ side', s'.child side' x = s.child side' x := by
    intro x hxg hxq side'
    simp [hChild, hxg, hxq]
  have hPSame : ∀ x, x ≠ g.addr → x ≠ q.addr → (root? b).map Node.addr ≠ some x →
      s'.p x = s.p x := by
    intro x hxg hxq hxb
    simp [hP, hxg, hxq, hqOther, hxb]
  refine linked_branch.mpr ⟨by simp [hP, Ne.symm hgq, hgUp], ?_, ?_, ?_, linked_branch.mpr
    ⟨by simp [hP], by simp [hChild, hgq, hqOther], by simp [hChild, hgq, hgOther], ?_, ?_⟩⟩
  · simp [hChild, Ne.symm hgq, hqChild]
  · simp [hChild]
  · refine ha.congr (fun m hm => ?_) fun m hm => ?_
    · exact hChildSame _ (ne_of_mem_of_not_mem (mem_addrs_of_mem hm) hga)
        (ne_of_mem_of_not_mem (mem_addrs_of_mem hm) hqa)
    · exact hPSame _ (ne_of_mem_of_not_mem (mem_addrs_of_mem hm) hga)
        (ne_of_mem_of_not_mem (mem_addrs_of_mem hm) hqa) fun hEq =>
          hab _ (mem_addrs_of_mem hm) (root_mem_addrs hEq)
  · refine hb.rehang (fun m hm => ?_) (fun m hm => ?_) (fun m hm hNot => ?_) hNodupB
    · exact hChildSame _ (ne_of_mem_of_not_mem (mem_addrs_of_mem hm) hgb)
        (ne_of_mem_of_not_mem (mem_addrs_of_mem hm) hqb)
    · have hm' := mem_addrs_of_mem (mem_root? hm)
      simp [hP, ne_of_mem_of_not_mem hm' hgb, ne_of_mem_of_not_mem hm' hqb, hqOther, hm]
    · refine hPSame _ (ne_of_mem_of_not_mem (mem_addrs_of_mem hm) hgb)
        (ne_of_mem_of_not_mem (mem_addrs_of_mem hm) hqb) fun hEq => hNot ?_
      obtain ⟨m', hm', hAddr⟩ := Option.map_eq_some_iff.mp hEq
      rwa [← List.inj_on_of_nodup_map hNodupB (mem_root? hm') hm hAddr]
  · refine hc.congr (fun m hm => ?_) fun m hm => ?_
    · exact hChildSame _ (ne_of_mem_of_not_mem (mem_addrs_of_mem hm) hgc) fun hEq =>
        hDisjoint _ (.inl rfl) (hEq ▸ mem_addrs_of_mem hm)
    · exact hPSame _ (ne_of_mem_of_not_mem (mem_addrs_of_mem hm) hgc)
        (fun hEq => hDisjoint _ (.inl rfl) (hEq ▸ mem_addrs_of_mem hm)) fun hEq =>
          hDisjoint _ (.inr (.inr (root_mem_addrs hEq))) (mem_addrs_of_mem hm)

theorem rotate2_spec
    (h : Linked Node.addr s.child s.p above
      (branch side g (branch side q a (branch side n x y)) u))
    (hNodup : (addrs (branch side g (branch side q a (branch side n x y)) u)).Nodup) :
    ∃ s', s.rotate2 side g.addr = some (s', n.addr) ∧
      Relinks (addrs (branch side g (branch side q a (branch side n x y)) u)) s s' ∧
      Linked Node.addr s'.child s'.p above (branch side n (branch side q a x) (branch side g y u)) := by
  obtain ⟨hgUp, hgChild, hgOther, hq, hu⟩ := linked_branch.mp h
  obtain ⟨⟨hgq, hgu⟩, hNodupQ, -, hDisjoint⟩ := nodup_branch.mp hNodup
  -- the child, seen from its other side
  have hMirror : branch side q a (branch side n x y) =
      branch side.other q (branch side.other n y x) a := by
    rw [branch_other, branch_other]
  have hMirror' : branch side.other n y (branch side.other q x a) =
      branch side n (branch side q a x) y := by
    rw [branch_other, branch_other]
  rw [hMirror] at hq hNodupQ
  obtain ⟨s₁, hFirst, hRelinks₁, hLinked₁⟩ := rotate_spec hq hNodupQ
  rw [← hMirror] at hRelinks₁
  rw [hMirror'] at hLinked₁
  let s₂ := s₁.setChild side g.addr (some n.addr)
  have hSame : ∀ m : Addr, m ≠ g.addr → ∀ side', s₂.child side' m = s₁.child side' m := by
    intro m hm side'
    simp [s₂, hm]
  have hInorder : inorder (branch side g (branch side n (branch side q a x) y) u) =
      inorder (branch side g (branch side q a (branch side n x y)) u) := by
    cases side <;> simp [branch]
  have hAddrs : addrs (branch side g (branch side n (branch side q a x) y) u) =
      addrs (branch side g (branch side q a (branch side n x y)) u) :=
    congrArg (List.map Node.addr) hInorder
  have hLinked₂ : Linked Node.addr s₂.child s₂.p above
      (branch side g (branch side n (branch side q a x) y) u) := by
    refine linked_branch.mpr ⟨(hRelinks₁.p _ hgq).trans hgUp, by simp [s₂], ?_, ?_, ?_⟩
    · rw [← hgOther, ← hRelinks₁.child _ hgq]
      simp [s₂]
    · refine hLinked₁.congr (fun m hm => hSame _ ?_) fun _ _ => rfl
      have hm' := mem_addrs_of_mem hm
      apply ne_of_mem_of_not_mem hm'
      simp only [mem_addrs_branch] at hgq ⊢
      tauto
    · refine hu.congr (fun m hm side' => ?_) fun m hm => hRelinks₁.p _ fun hIn =>
        hDisjoint _ hIn (mem_addrs_of_mem hm)
      exact (hSame _ (ne_of_mem_of_not_mem (mem_addrs_of_mem hm) hgu) side').trans
        (hRelinks₁.child _ (fun hIn => hDisjoint _ hIn (mem_addrs_of_mem hm)) side')
  obtain ⟨s', hSecond, hRelinks₂, hLinked'⟩ := rotate_spec hLinked₂ (hAddrs ▸ hNodup)
  rw [hAddrs] at hRelinks₂
  refine ⟨s', ?_, Relinks.trans ?_ hRelinks₂, hLinked'⟩
  · rw [root?_branch, Option.map_some] at hgChild
    simp only [RbTree.rotate2, hgChild, hFirst, Option.bind_eq_bind, Option.bind_some]
    exact hSecond
  · have hRelinks : Relinks (addrs (branch side g (branch side q a (branch side n x y)) u)) s s₁ :=
      hRelinks₁.mono fun m hm => mem_addrs_branch.mpr (.inr (.inl hm))
    exact ⟨hRelinks.val, hRelinks.color, hRelinks.live, hRelinks.root,
      fun m hm side' => (hSame m (fun hEq => hm (by simp [hEq])) side').trans
        (hRelinks.child m hm side'), hRelinks.p⟩

/-! ### The tree around a hole -/

theorem addrs_plug_perm (path : List (Frame Node)) (t : BinaryTree Node) :
    (addrs (plug path t)).Perm (addrs t ++ (rim path).map Node.addr) := by
  rw [addrs, addrs, ← List.map_append]
  exact (inorder_plug_perm path t).map _

theorem Rep.nodup_plug (h : Rep s (plug path t)) :
    (addrs t).Nodup ∧ (rim path).Nodup ∧ ∀ n ∈ rim path, n.addr ∉ addrs t := by
  have hNodup := List.nodup_append.mp ((addrs_plug_perm path t).nodup_iff.mp h.nodup)
  exact ⟨hNodup.1, List.Nodup.of_map _ hNodup.2.1, fun n hn hIn =>
    hNodup.2.2 _ hIn _ (List.mem_map_of_mem hn) rfl⟩

/-- `s'` has `hole` where `s` has what is in the hole of `path`, and the rest as `s`. -/
structure Refills (path : List (Frame Node)) (hole : Option Addr) (s s' : RbTree) : Prop where
  root : s'.root = if path = [] then hole else s.root
  hole : ∀ f ∈ path.head?, s'.child f.side f.parent.addr = hole
  child : ∀ n ∈ rim path, ∀ side, (∀ f ∈ path.head?, n = f.parent → side ≠ f.side) →
    s'.child side n.addr = s.child side n.addr
  p : ∀ n ∈ rim path, s'.p n.addr = s.p n.addr
  stored : ∀ n ∈ rim path, s'.val n.addr = s.val n.addr ∧ s'.color n.addr = s.color n.addr ∧
    (n.addr ∈ s.live → n.addr ∈ s'.live)

theorem root?_plug_cons (f : Frame Node) (path : List (Frame Node)) (t t' : BinaryTree Node) :
    root? (plug (f :: path) t) = root? (plug (f :: path) t') := by
  induction path generalizing f t t' with
  | nil => simp [plug]
  | cons f' path ih => exact ih f' _ _

theorem Rep.refill (h : Rep s (plug path t)) (hRefills : Refills path ((root? t').map Node.addr) s s')
    (hLinked : Linked Node.addr s'.child s'.p ((above? path).map Node.addr) t')
    (hNodup : (addrs (plug path t')).Nodup)
    (hStored : ∀ n ∈ inorder t', s'.val n.addr = n.val ∧ s'.color n.addr = n.color ∧
      n.addr ∈ s'.live) : Rep s' (plug path t') := by
  obtain ⟨hAround, -⟩ := linked_plug.mp h.linked
  obtain ⟨-, hRim, -⟩ := h.nodup_plug
  refine ⟨?_, linked_plug.mpr ⟨?_, hLinked⟩, hNodup, fun n hn => ?_⟩
  · cases path with
    | nil => exact hRefills.root
    | cons f path =>
      rw [hRefills.root, if_neg (List.cons_ne_nil f path), h.root, root?_plug_cons f path t t']
  · cases path with
    | nil => trivial
    | cons f path =>
      exact (hAround.congr (fun _ _ _ => rfl) hRefills.p).fill hRim (hRefills.hole f rfl)
        fun n hn side hSide => hRefills.child n hn side fun f' hf => by
          obtain rfl := Option.some.inj hf
          exact hSide
  · rcases mem_plug.mp hn with hn | hn
    · exact hStored n hn
    · obtain ⟨hVal, hColor, hLive⟩ := hRefills.stored n hn
      obtain ⟨hVal', hColor', hLive'⟩ := h.stored n (mem_plug.mpr (.inr hn))
      exact ⟨hVal.trans hVal', hColor.trans hColor', hLive hLive'⟩

/-- Memory holds one tree. -/
theorem Rep.unique (h : Rep s t) (h' : Rep s t') : t = t' := by
  refine h.linked.unique h'.linked (h.root.symm.trans h'.root) fun n hn m hm hAddr => ?_
  obtain ⟨hVal, hColor, -⟩ := h.stored n hn
  obtain ⟨hVal', hColor', -⟩ := h'.stored m hm
  rw [hAddr] at hVal hColor
  obtain ⟨addr, val, color⟩ := n
  obtain ⟨addr', val', color'⟩ := m
  simp_all

/-- What a node holds is written over. -/
theorem Rep.overwrite {n' : Node} (h : Rep s (plug path (branch side n x y)))
    (hAddr : n'.addr = n.addr)
    (hLinks : s'.root = s.root ∧ s'.child = s.child ∧ s'.p = s.p ∧ s'.live = s.live)
    (hNew : s'.val n.addr = n'.val ∧ s'.color n.addr = n'.color)
    (hOld : ∀ a, a ≠ n.addr → s'.val a = s.val a ∧ s'.color a = s.color a) :
    Rep s' (plug path (branch side n' x y)) := by
  obtain ⟨hRoot, hChildEq, hPEq, hLive⟩ := hLinks
  obtain ⟨hAddrs, -, hNot⟩ := h.nodup_plug
  obtain ⟨⟨hnx, hny⟩, -⟩ := nodup_branch.mp hAddrs
  obtain ⟨hAround, hLinked⟩ := linked_plug.mp h.linked
  refine h.refill ⟨?_, fun f hf => ?_, fun _ _ _ _ => by rw [hChildEq], fun _ _ => by rw [hPEq],
    fun m hm => ?_⟩ ?_ ?_ fun m hm => ?_
  · rw [hRoot]
    split
    · next hPath =>
      subst hPath
      simpa [plug, hAddr] using h.root
    · rfl
  · cases path with
    | nil => cases hf
    | cons f' path =>
      obtain rfl := Option.some.inj hf
      simpa [hChildEq, hAddr] using hAround.2.1
  · obtain ⟨hVal, hColor⟩ := hOld m.addr fun hEq => hNot m hm (by simp [hEq])
    exact ⟨hVal, hColor, fun hIn => hLive ▸ hIn⟩
  · obtain ⟨hUp, hChild, hOther, hx, hy⟩ := linked_branch.mp hLinked
    rw [← hAddr] at hUp hChild hOther hx hy
    rw [hChildEq, hPEq]
    exact linked_branch.mpr ⟨hUp, hChild, hOther, hx, hy⟩
  · have hSame : addrs (branch side n' x y) = addrs (branch side n x y) := by
      cases side <;> simp [addrs, branch, hAddr]
    rw [(addrs_plug_perm path _).nodup_iff, hSame, ← (addrs_plug_perm path _).nodup_iff]
    exact h.nodup
  · rw [hLive]
    rcases mem_branch.mp hm with rfl | hm
    · obtain ⟨-, -, hIn⟩ := h.stored n (mem_plug.mpr (.inl (mem_branch.mpr (.inl rfl))))
      rw [hAddr]
      exact ⟨hNew.1, hNew.2, hIn⟩
    · obtain ⟨hVal, hColor, hIn⟩ := h.stored m (mem_plug.mpr (.inl (mem_branch.mpr (.inr hm))))
      obtain ⟨hVal', hColor'⟩ := hOld m.addr (by
        rcases hm with hm | hm
        · exact ne_of_mem_of_not_mem (mem_addrs_of_mem hm) hnx
        · exact ne_of_mem_of_not_mem (mem_addrs_of_mem hm) hny)
      exact ⟨hVal'.trans hVal, hColor'.trans hColor, hIn⟩

theorem Rep.setColor (h : Rep s (plug path (branch side n x y))) (c : Color) :
    Rep (s.setColor n.addr c) (plug path (branch side (n.paint c) x y)) := by
  obtain ⟨hVal, -⟩ := h.stored n (mem_plug.mpr (.inl (mem_branch.mpr (.inl rfl))))
  exact h.overwrite rfl ⟨rfl, rfl, rfl, rfl⟩ (by simp [hVal]) fun a ha => by simp [ha]

theorem Rep.setVal (h : Rep s (plug path (branch side n x y))) (val : Int) :
    Rep (s.setVal n.addr val) (plug path (branch side { n with val } x y)) := by
  obtain ⟨-, hColor, -⟩ := h.stored n (mem_plug.mpr (.inl (mem_branch.mpr (.inl rfl))))
  exact h.overwrite rfl ⟨rfl, rfl, rfl, rfl⟩ (by simp [hColor]) fun a ha => by simp [ha]

/-! ### Rotations below a node -/

theorem Sorted.of_plug (h : Sorted (plug path t)) : Sorted t := by
  rw [Sorted, vals, inorder_plug, List.map_append, List.map_append] at h
  exact (List.pairwise_append.mp (List.pairwise_append.mp h).1).2.1

theorem sorted_branch : Sorted (branch side n x y) → ∀ m ∈ inorder x,
    match side with
    | .left => m.val < n.val
    | .right => n.val < m.val := by
  intro h m hm
  cases side with
  | left =>
    simp only [Sorted, vals, branch, inorder_node, List.map_append, List.map_cons] at h
    exact (List.pairwise_append.mp h).2.2 _ (List.mem_map_of_mem hm) _ List.mem_cons_self
  | right =>
    simp only [Sorted, vals, branch, inorder_node, List.map_append, List.map_cons] at h
    exact (List.pairwise_cons.mp (List.pairwise_append.mp h).2.1).1 _ (List.mem_map_of_mem hm)

/-- `RebuildCon` puts what a rotation has brought up below the node that the old root hung on: the
order of the values tells the side. -/
theorem Rep.rebuild (h : Rep s (plug path t)) (hSorted : Sorted (plug path t))
    (hRelinks : Relinks (addrs t) s s')
    (hLinked : Linked Node.addr s'.child s'.p ((above? path).map Node.addr) t')
    (hInorder : inorder t' = inorder t) (hRoot : root? t' = some g) :
    Rep (s'.rebuildCon g.addr (s'.p g.addr)) (plug path t') := by
  obtain ⟨-, hRim, hNot⟩ := h.nodup_plug
  have hStored : ∀ n ∈ inorder (plug path t), s'.val n.addr = n.val ∧ s'.color n.addr = n.color ∧
      n.addr ∈ s'.live := by
    rw [hRelinks.val, hRelinks.color, hRelinks.live]
    exact h.stored
  have hNodup : (addrs (plug path t')).Nodup := by
    rw [addrs, inorder_plug_congr path hInorder]
    exact h.nodup
  have hUp : s'.p g.addr = (above? path).map Node.addr := by
    cases t' with
    | nil => cases hRoot
    | node m l r =>
      obtain rfl := Option.some.inj hRoot
      exact hLinked.1
  rw [hUp]
  cases path with
  | nil =>
    refine h.refill ⟨?_, by simp, by simp [rim, before, after], by simp [rim, before, after],
      by simp [rim, before, after]⟩ hLinked hNodup fun n hn => ?_
    · simp [RbTree.rebuildCon, hRoot]
    · exact hStored n (hInorder ▸ hn)
  | cons f path =>
    have hParent := hStored f.parent (mem_plug.mpr (.inr (mem_rim_cons.mpr (.inl rfl))))
    have hg : g ∈ inorder t := hInorder ▸ mem_root? hRoot
    have hSon := hStored g (mem_plug.mpr (.inl hg))
    have hCon : s'.rebuildCon g.addr (some f.parent.addr) =
        s'.setChild f.side f.parent.addr (some g.addr) := by
      have hPlug : Sorted (plug path (branch f.side f.parent t f.sibling)) := hSorted
      have hSide := sorted_branch hPlug.of_plug g hg
      simp only [RbTree.rebuildCon, hParent.1, hSon.1]
      cases hSideEq : f.side with
      | left => rw [if_pos (by simpa [hSideEq] using hSide)]
      | right =>
        rw [hSideEq] at hSide
        rw [if_neg (by simpa using le_of_lt hSide)]
    rw [above?_cons, Option.map_some, hCon]
    refine h.refill ⟨?_, fun f' hf => ?_, fun n hn side hSide => ?_, fun n hn => ?_, fun n hn => ?_⟩
      (hLinked.congr (fun n hn side => ?_) fun _ _ => rfl) hNodup fun n hn => ?_
    · simpa using hRelinks.root
    · obtain rfl := Option.some.inj hf
      simp [hRoot]
    · rw [← hRelinks.child _ (hNot n hn)]
      have hNe : ¬(side = f.side ∧ n.addr = f.parent.addr) := by
        rintro ⟨hEq, hAddr⟩
        refine hSide f rfl ?_ hEq
        exact List.inj_on_of_nodup_map h.nodup (mem_plug.mpr (.inr hn))
          (mem_plug.mpr (.inr (mem_rim_cons.mpr (.inl rfl)))) hAddr
      simp [hNe]
    · exact hRelinks.p _ (hNot n hn)
    · simp [hRelinks.val, hRelinks.color, hRelinks.live]
    · have hNe : n.addr ≠ f.parent.addr := fun hEq =>
        hNot f.parent (mem_rim_cons.mpr (.inl rfl)) (hEq ▸ mem_addrs_of_mem (hInorder ▸ hn))
      simp [hNe]
    · exact hStored n (mem_plug.mpr (.inl (hInorder ▸ hn)))

/-- A rotation of the node at the hole, with `RebuildCon` after it. -/
theorem Rep.rotate (h : Rep s (plug path (branch side g (branch side q a b) c)))
    (hSorted : Sorted (plug path (branch side g (branch side q a b) c))) :
    ∃ s', s.rotate side g.addr = some (s', q.addr) ∧
      Rep (s'.rebuildCon q.addr (s'.p q.addr)) (plug path (branch side q a (branch side g b c))) := by
  obtain ⟨-, hLinked⟩ := linked_plug.mp h.linked
  obtain ⟨s', hRotate, hRelinks, hLinked'⟩ := rotate_spec hLinked h.nodup_plug.1
  exact ⟨s', hRotate, h.rebuild hSorted hRelinks hLinked' (inorder_rotate ..).symm (root?_branch ..)⟩

theorem Rep.rotate2 (h : Rep s (plug path (branch side g (branch side q a (branch side n x y)) u)))
    (hSorted : Sorted (plug path (branch side g (branch side q a (branch side n x y)) u))) :
    ∃ s', s.rotate2 side g.addr = some (s', n.addr) ∧
      Rep (s'.rebuildCon n.addr (s'.p n.addr))
        (plug path (branch side n (branch side q a x) (branch side g y u))) := by
  obtain ⟨-, hLinked⟩ := linked_plug.mp h.linked
  obtain ⟨s', hRotate, hRelinks, hLinked'⟩ := rotate2_spec hLinked h.nodup_plug.1
  exact ⟨s', hRotate, h.rebuild hSorted hRelinks hLinked' (inorder_rotate2 ..).symm (root?_branch ..)⟩

end DemoCode.RBTree
