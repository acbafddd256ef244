import Mathlib.Data.Tree.Basic
import Mathlib.Data.List.Nodup

/-! Binary trees with a hole, and trees that are linked in a memory by child and parent fields. -/

namespace Trees

inductive Side where
  | left
  | right
  deriving DecidableEq, Repr

def Side.other : Side → Side
  | .left => .right
  | .right => .left

theorem Side.eq_other {side side' : Side} (h : side' ≠ side) : side' = side.other := by
  cases side <;> cases side' <;> simp_all [Side.other]

@[simp] theorem Side.other_other (side : Side) : side.other.other = side := by
  cases side <;> rfl

@[simp] theorem Side.other_ne (side : Side) : side.other ≠ side := by
  cases side <;> decide

@[simp] theorem Side.ne_other (side : Side) : side ≠ side.other := side.other_ne.symm

variable {α : Type*}

/-- A node with the subtree `x` on `side` and `y` on the other. -/
def branch : Side → α → BinaryTree α → BinaryTree α → BinaryTree α
  | .left, a, x, y => .node a x y
  | .right, a, x, y => .node a y x

theorem branch_other (side : Side) (a : α) (x y : BinaryTree α) :
    branch side.other a x y = branch side a y x := by
  cases side <;> rfl

/-- A node as it is seen from one of its sides. -/
theorem exists_branch (side : Side) (a : α) (l r : BinaryTree α) :
    ∃ x y, BinaryTree.node a l r = branch side a x y := by
  cases side with
  | left => exact ⟨l, r, rfl⟩
  | right => exact ⟨r, l, rfl⟩

theorem branch_ne_nil {side : Side} {a : α} {x y : BinaryTree α} : branch side a x y ≠ .nil := by
  cases side <;> simp [branch]

/-- The subtree on `side`. -/
def part : Side → BinaryTree α → BinaryTree α
  | _, .nil => .nil
  | .left, .node _ l _ => l
  | .right, .node _ _ r => r

@[simp] theorem part_branch (side : Side) (a : α) (x y : BinaryTree α) :
    part side (branch side a x y) = x := by
  cases side <;> rfl

@[simp] theorem part_other_branch (side : Side) (a : α) (x y : BinaryTree α) :
    part side.other (branch side a x y) = y := by
  cases side <;> rfl

def root? : BinaryTree α → Option α
  | .nil => none
  | .node a _ _ => some a

@[simp] theorem root?_nil : root? (.nil : BinaryTree α) = none := rfl

@[simp] theorem root?_node (a : α) (l r : BinaryTree α) : root? (.node a l r) = some a := rfl

@[simp] theorem root?_branch (side : Side) (a : α) (x y : BinaryTree α) :
    root? (branch side a x y) = some a := by
  cases side <;> rfl

theorem root?_eq_none {t : BinaryTree α} : root? t = none ↔ t = .nil := by
  cases t <;> simp

def inorder : BinaryTree α → List α
  | .nil => []
  | .node a l r => inorder l ++ a :: inorder r

@[simp] theorem inorder_nil : inorder (.nil : BinaryTree α) = [] := rfl

@[simp] theorem inorder_node (a : α) (l r : BinaryTree α) :
    inorder (.node a l r) = inorder l ++ a :: inorder r := rfl

theorem inorder_branch_perm (side : Side) (a : α) (x y : BinaryTree α) :
    (inorder (branch side a x y)).Perm (a :: (inorder x ++ inorder y)) := by
  cases side with
  | left => exact List.perm_middle
  | right => exact List.perm_middle.trans (List.perm_append_comm.cons a)

theorem mem_branch {side : Side} {a b : α} {x y : BinaryTree α} :
    b ∈ inorder (branch side a x y) ↔ b = a ∨ b ∈ inorder x ∨ b ∈ inorder y := by
  cases side <;> simp [branch] <;> tauto

theorem branch_subset {side : Side} {a : α} {x y : BinaryTree α} {as : List α} (ha : a ∈ as)
    (hx : ∀ b ∈ inorder x, b ∈ as) (hy : ∀ b ∈ inorder y, b ∈ as) :
    ∀ b ∈ inorder (branch side a x y), b ∈ as := by
  intro b hb
  rcases mem_branch.mp hb with rfl | hb | hb
  · exact ha
  · exact hx b hb
  · exact hy b hb

theorem mem_root? {t : BinaryTree α} {a : α} (h : root? t = some a) : a ∈ inorder t := by
  cases t with
  | nil => cases h
  | node b l r =>
    cases h
    simp

/-! ### Trees with a hole -/

/-- A node above the hole: the hole is on `side`, and `sibling` on the other. -/
structure Frame (α : Type*) where
  side : Side
  parent : α
  sibling : BinaryTree α

/-- The tree around the hole of `path`, whose first frame is the lowest, with `t` in the hole. -/
def plug : List (Frame α) → BinaryTree α → BinaryTree α
  | [], t => t
  | f :: path, t => plug path (branch f.side f.parent t f.sibling)

theorem plug_append (path path' : List (Frame α)) (t : BinaryTree α) :
    plug (path ++ path') t = plug path' (plug path t) := by
  induction path generalizing t with
  | nil => rfl
  | cons f path ih => exact ih _

theorem root?_plug (path : List (Frame α)) {t t' : BinaryTree α} (h : root? t = root? t') :
    root? (plug path t) = root? (plug path t') := by
  induction path generalizing t t' with
  | nil => exact h
  | cons f path ih => exact ih (by rw [root?_branch, root?_branch])

/-- The node that the hole hangs on. -/
def above? (path : List (Frame α)) : Option α := path.head?.map Frame.parent

@[simp] theorem above?_nil : above? ([] : List (Frame α)) = none := rfl

@[simp] theorem above?_cons (f : Frame α) (path : List (Frame α)) :
    above? (f :: path) = some f.parent := rfl

def Frame.before (f : Frame α) : List α :=
  match f.side with
  | .left => []
  | .right => inorder f.sibling ++ [f.parent]

def Frame.after (f : Frame α) : List α :=
  match f.side with
  | .left => f.parent :: inorder f.sibling
  | .right => []

/-- The nodes on the left of the hole. -/
def before : List (Frame α) → List α
  | [] => []
  | f :: path => before path ++ f.before

/-- The nodes on the right of the hole. -/
def after : List (Frame α) → List α
  | [] => []
  | f :: path => f.after ++ after path

theorem Frame.inorder_branch (f : Frame α) (t : BinaryTree α) :
    inorder (branch f.side f.parent t f.sibling) = f.before ++ inorder t ++ f.after := by
  obtain ⟨side, parent, sibling⟩ := f
  cases side <;> simp [branch, Frame.before, Frame.after]

theorem inorder_plug (path : List (Frame α)) (t : BinaryTree α) :
    inorder (plug path t) = before path ++ inorder t ++ after path := by
  induction path generalizing t with
  | nil => simp [plug, before, after]
  | cons f path ih =>
    rw [plug, ih, f.inorder_branch]
    simp only [before, after, List.append_assoc]

theorem inorder_plug_congr (path : List (Frame α)) {t t' : BinaryTree α}
    (h : inorder t = inorder t') : inorder (plug path t) = inorder (plug path t') := by
  rw [inorder_plug, inorder_plug, h]

/-- The nodes around the hole. -/
def rim (path : List (Frame α)) : List α := before path ++ after path

theorem rim_cons_perm (f : Frame α) (path : List (Frame α)) :
    (rim (f :: path)).Perm (f.parent :: (inorder f.sibling ++ rim path)) := by
  classical
  obtain ⟨side, parent, sibling⟩ := f
  rw [List.perm_iff_count]
  intro a
  cases side <;> simp [rim, before, after, Frame.before, Frame.after, List.count_cons] <;> omega

theorem mem_rim_cons {f : Frame α} {path : List (Frame α)} {a : α} :
    a ∈ rim (f :: path) ↔ a = f.parent ∨ a ∈ inorder f.sibling ∨ a ∈ rim path := by
  rw [(rim_cons_perm f path).mem_iff, List.mem_cons, List.mem_append]

theorem mem_plug {path : List (Frame α)} {t : BinaryTree α} {a : α} :
    a ∈ inorder (plug path t) ↔ a ∈ inorder t ∨ a ∈ rim path := by
  simp only [inorder_plug, rim, List.mem_append]
  tauto

theorem inorder_plug_perm (path : List (Frame α)) (t : BinaryTree α) :
    (inorder (plug path t)).Perm (inorder t ++ rim path) := by
  rw [inorder_plug, rim, ← List.append_assoc]
  exact (List.perm_append_comm).append_right _

/-- A rotation keeps the order of the nodes. -/
theorem inorder_rotate (side : Side) (g q : α) (a b c : BinaryTree α) :
    inorder (branch side g (branch side q a b) c) = inorder (branch side q a (branch side g b c)) := by
  cases side <;> simp [branch]

/-- So does a double rotation. -/
theorem inorder_rotate2 (side : Side) (g q n : α) (a x y u : BinaryTree α) :
    inorder (branch side g (branch side q a (branch side n x y)) u) =
      inorder (branch side n (branch side q a x) (branch side g y u)) := by
  cases side <;> simp [branch]

/-! ### Trees in a memory -/

section Linked

variable {κ : Type*} (key : α → κ) (child : Side → κ → Option κ) (up : κ → Option κ)

/-- The nodes of `t` lie at their keys: the fields `child` link them as in `t`, the fields `up` the
other way, and `above` is the parent of them all. -/
def Linked : Option κ → BinaryTree α → Prop
  | _, .nil => True
  | above, .node a l r =>
    up (key a) = above ∧ child .left (key a) = (root? l).map key ∧
      child .right (key a) = (root? r).map key ∧ Linked (some (key a)) l ∧ Linked (some (key a)) r

/-- The same of the nodes around a hole, where the link into the hole is `hole`. -/
def LinkedAround : List (Frame α) → Option κ → Prop
  | [], _ => True
  | f :: path, hole =>
    up (key f.parent) = (above? path).map key ∧ child f.side (key f.parent) = hole ∧
      child f.side.other (key f.parent) = (root? f.sibling).map key ∧
      Linked key child up (some (key f.parent)) f.sibling ∧
      LinkedAround path (some (key f.parent))

variable {key child up} {child' : Side → κ → Option κ} {up' : κ → Option κ}
  {above above' hole : Option κ} {t : BinaryTree α} {path : List (Frame α)}

theorem linked_branch {side : Side} {a : α} {x y : BinaryTree α} :
    Linked key child up above (branch side a x y) ↔
      up (key a) = above ∧ child side (key a) = (root? x).map key ∧
      child side.other (key a) = (root? y).map key ∧ Linked key child up (some (key a)) x ∧
      Linked key child up (some (key a)) y := by
  cases side with
  | left => exact Iff.rfl
  | right =>
    simp only [branch, Linked, Side.other]
    tauto

theorem linked_plug : Linked key child up none (plug path t) ↔
    LinkedAround key child up path ((root? t).map key) ∧
      Linked key child up ((above? path).map key) t := by
  induction path generalizing t with
  | nil => simp [plug, LinkedAround]
  | cons f path ih =>
    rw [plug, ih, linked_branch, root?_branch]
    simp only [LinkedAround, above?_cons, Option.map_some]
    tauto

/-- Links depend on the fields of the nodes only. -/
theorem Linked.congr (h : Linked key child up above t)
    (hChild : ∀ a ∈ inorder t, ∀ side, child' side (key a) = child side (key a))
    (hUp : ∀ a ∈ inorder t, up' (key a) = up (key a)) : Linked key child' up' above t := by
  induction t generalizing above with
  | nil => trivial
  | node a l r ihl ihr =>
    obtain ⟨hAbove, hLeft, hRight, hl, hr⟩ := h
    have ha : a ∈ inorder (.node a l r) := by simp
    exact ⟨(hUp a ha).trans hAbove, (hChild a ha _).trans hLeft, (hChild a ha _).trans hRight,
      ihl hl (fun b hb => hChild b (by simp [hb])) fun b hb => hUp b (by simp [hb]),
      ihr hr (fun b hb => hChild b (by simp [hb])) fun b hb => hUp b (by simp [hb])⟩

/-- A tree is moved below another node by its root's field `up` alone. -/
theorem Linked.rehang (h : Linked key child up above t)
    (hChild : ∀ a ∈ inorder t, ∀ side, child' side (key a) = child side (key a))
    (hRoot : ∀ a, root? t = some a → up' (key a) = above')
    (hUp : ∀ a ∈ inorder t, root? t ≠ some a → up' (key a) = up (key a))
    (hNodup : ((inorder t).map key).Nodup) : Linked key child' up' above' t := by
  cases t with
  | nil => trivial
  | node a l r =>
    obtain ⟨hAbove, hLeft, hRight, hl, hr⟩ := h
    have ha : a ∈ inorder (.node a l r) := by simp
    have hNot : a ∉ inorder l ∧ a ∉ inorder r := by
      have := List.Nodup.of_map _ hNodup
      simp only [inorder_node, List.nodup_append, List.nodup_cons] at this
      exact ⟨fun hIn => this.2.2 a hIn a List.mem_cons_self rfl, this.2.1.1⟩
    refine ⟨hRoot a rfl, (hChild a ha _).trans hLeft, (hChild a ha _).trans hRight, ?_, ?_⟩
    · refine hl.congr (fun b hb => hChild b (by simp [hb])) fun b hb => hUp b (by simp [hb]) ?_
      rintro ⟨⟩
      exact hNot.1 hb
    · refine hr.congr (fun b hb => hChild b (by simp [hb])) fun b hb => hUp b (by simp [hb]) ?_
      rintro ⟨⟩
      exact hNot.2 hb

theorem LinkedAround.congr (h : LinkedAround key child up path hole)
    (hChild : ∀ a ∈ rim path, ∀ side, child' side (key a) = child side (key a))
    (hUp : ∀ a ∈ rim path, up' (key a) = up (key a)) : LinkedAround key child' up' path hole := by
  induction path generalizing hole with
  | nil => trivial
  | cons f path ih =>
    obtain ⟨hAbove, hHole, hOther, hSibling, hPath⟩ := h
    have hf : f.parent ∈ rim (f :: path) := mem_rim_cons.mpr (.inl rfl)
    exact ⟨(hUp _ hf).trans hAbove, (hChild _ hf _).trans hHole, (hChild _ hf _).trans hOther,
      hSibling.congr (fun a ha => hChild a (mem_rim_cons.mpr (.inr (.inl ha)))) fun a ha =>
        hUp a (mem_rim_cons.mpr (.inr (.inl ha))),
      ih hPath (fun a ha => hChild a (mem_rim_cons.mpr (.inr (.inr ha)))) fun a ha =>
        hUp a (mem_rim_cons.mpr (.inr (.inr ha)))⟩

/-- The link into the hole is one field of the node above it. -/
theorem LinkedAround.fill {f : Frame α} {hole' : Option κ}
    (h : LinkedAround key child up (f :: path) hole) (hNodup : (rim (f :: path)).Nodup)
    (hHole : child' f.side (key f.parent) = hole')
    (hChild : ∀ a ∈ rim (f :: path), ∀ side, (a = f.parent → side ≠ f.side) →
      child' side (key a) = child side (key a)) :
    LinkedAround key child' up (f :: path) hole' := by
  obtain ⟨hAbove, -, hOther, hSibling, hPath⟩ := h
  have hNot := (List.nodup_cons.mp ((rim_cons_perm f path).nodup_iff.mp hNodup)).1
  rw [List.mem_append, not_or] at hNot
  refine ⟨hAbove, hHole, (hChild _ (mem_rim_cons.mpr (.inl rfl)) _ fun _ => f.side.other_ne).trans
    hOther, hSibling.congr (fun a ha => ?_) fun _ _ => rfl,
    hPath.congr (fun a ha => ?_) fun _ _ => rfl⟩
  · exact fun side => hChild a (mem_rim_cons.mpr (.inr (.inl ha))) side fun hEq =>
      absurd (hEq ▸ ha) hNot.1
  · exact fun side => hChild a (mem_rim_cons.mpr (.inr (.inr ha))) side fun hEq =>
      absurd (hEq ▸ ha) hNot.2

/-- The nodes that are linked in a memory are the only ones. -/
theorem Linked.unique {t' : BinaryTree α} (h : Linked key child up above t)
    (h' : Linked key child up above' t') (hRoot : (root? t).map key = (root? t').map key)
    (hKey : ∀ a ∈ inorder t, ∀ b ∈ inorder t', key a = key b → a = b) : t = t' := by
  induction t generalizing t' above above' with
  | nil => cases t' with
    | nil => rfl
    | node b l' r' => cases hRoot
  | node a l r ihl ihr => cases t' with
    | nil => cases hRoot
    | node b l' r' =>
      obtain rfl : a = b := hKey a (by simp) b (by simp) (Option.some.inj hRoot)
      obtain ⟨-, hLeft, hRight, hl, hr⟩ := h
      obtain ⟨-, hLeft', hRight', hl', hr'⟩ := h'
      rw [ihl hl hl' (hLeft.symm.trans hLeft') fun c hc d hd => hKey c (by simp [hc]) d (by simp [hd]),
        ihr hr hr' (hRight.symm.trans hRight') fun c hc d hd =>
          hKey c (by simp [hc]) d (by simp [hd])]

end Linked

/-! ### Trees in a memory without parent fields -/

section Lies

/-- The fields `child` link the nodes of a tree as in the tree. -/
def Lies (child : Side → α → Option α) : BinaryTree α → Prop
  | .nil => True
  | .node a l r =>
    child .left a = root? l ∧ child .right a = root? r ∧ Lies child l ∧ Lies child r

/-- The same of the nodes around a hole, where the link into the hole is `hole`. -/
def LiesAround (child : Side → α → Option α) : List (Frame α) → Option α → Prop
  | [], _ => True
  | f :: path, hole =>
    child f.side f.parent = hole ∧ child f.side.other f.parent = root? f.sibling ∧
      Lies child f.sibling ∧ LiesAround child path (some f.parent)

variable {child child' : Side → α → Option α} {t t' : BinaryTree α} {path : List (Frame α)}
  {hole hole' : Option α}

theorem lies_branch {side : Side} {a : α} {x y : BinaryTree α} : Lies child (branch side a x y) ↔
    child side a = root? x ∧ child side.other a = root? y ∧ Lies child x ∧ Lies child y := by
  cases side with
  | left => exact Iff.rfl
  | right =>
    simp only [branch, Lies, Side.other]
    tauto

theorem lies_plug : Lies child (plug path t) ↔ LiesAround child path (root? t) ∧ Lies child t := by
  induction path generalizing t with
  | nil => simp [plug, LiesAround]
  | cons f path ih =>
    rw [plug, ih, lies_branch, root?_branch]
    simp only [LiesAround]
    tauto

theorem Lies.congr (h : Lies child t)
    (hChild : ∀ a ∈ inorder t, ∀ side, child' side a = child side a) : Lies child' t := by
  induction t with
  | nil => trivial
  | node a l r ihl ihr =>
    obtain ⟨hLeft, hRight, hl, hr⟩ := h
    have ha : a ∈ inorder (.node a l r) := by simp
    exact ⟨(hChild a ha _).trans hLeft, (hChild a ha _).trans hRight,
      ihl hl fun b hb => hChild b (by simp [hb]), ihr hr fun b hb => hChild b (by simp [hb])⟩

/-- Two memories that hold one tree agree on it. -/
theorem Lies.child_eq (h : Lies child t) (h' : Lies child' t) {a : α} (ha : a ∈ inorder t)
    (side : Side) : child' side a = child side a := by
  induction t with
  | nil => cases ha
  | node b l r ihl ihr =>
    obtain ⟨hLeft, hRight, hl, hr⟩ := h
    obtain ⟨hLeft', hRight', hl', hr'⟩ := h'
    rw [inorder_node, List.mem_append, List.mem_cons] at ha
    rcases ha with ha | rfl | ha
    · exact ihl hl hl' ha
    · cases side with
      | left => exact hLeft'.trans hLeft.symm
      | right => exact hRight'.trans hRight.symm
    · exact ihr hr hr' ha

theorem LiesAround.congr (h : LiesAround child path hole)
    (hChild : ∀ a ∈ rim path, ∀ side, child' side a = child side a) :
    LiesAround child' path hole := by
  induction path generalizing hole with
  | nil => trivial
  | cons f path ih =>
    obtain ⟨hHole, hOther, hSibling, hPath⟩ := h
    have hf : f.parent ∈ rim (f :: path) := mem_rim_cons.mpr (.inl rfl)
    exact ⟨(hChild _ hf _).trans hHole, (hChild _ hf _).trans hOther,
      hSibling.congr fun a ha => hChild a (mem_rim_cons.mpr (.inr (.inl ha))),
      ih hPath fun a ha => hChild a (mem_rim_cons.mpr (.inr (.inr ha)))⟩

/-- The link into the hole is one field of the node above it. -/
theorem LiesAround.fill {f : Frame α} (h : LiesAround child (f :: path) hole)
    (hNodup : (rim (f :: path)).Nodup) (hHole : child' f.side f.parent = hole')
    (hChild : ∀ a ∈ rim (f :: path), ∀ side, (a = f.parent → side ≠ f.side) →
      child' side a = child side a) :
    LiesAround child' (f :: path) hole' := by
  obtain ⟨-, hOther, hSibling, hPath⟩ := h
  have hNot := (List.nodup_cons.mp ((rim_cons_perm f path).nodup_iff.mp hNodup)).1
  rw [List.mem_append, not_or] at hNot
  refine ⟨hHole, (hChild _ (mem_rim_cons.mpr (.inl rfl)) _ fun _ => f.side.other_ne).trans hOther,
    hSibling.congr fun a ha side => ?_, hPath.congr fun a ha side => ?_⟩
  · exact hChild a (mem_rim_cons.mpr (.inr (.inl ha))) side fun hEq => absurd (hEq ▸ ha) hNot.1
  · exact hChild a (mem_rim_cons.mpr (.inr (.inr ha))) side fun hEq => absurd (hEq ▸ ha) hNot.2

/-- A memory holds one tree at a pointer. -/
theorem Lies.unique (h : Lies child t) (h' : Lies child t') (hRoot : root? t = root? t') : t = t' := by
  induction t generalizing t' with
  | nil => cases t' with
    | nil => rfl
    | node b l' r' => cases hRoot
  | node a l r ihl ihr => cases t' with
    | nil => cases hRoot
    | node b l' r' =>
      obtain rfl : a = b := Option.some.inj hRoot
      obtain ⟨hLeft, hRight, hl, hr⟩ := h
      obtain ⟨hLeft', hRight', hl', hr'⟩ := h'
      rw [ihl hl hl' (hLeft.symm.trans hLeft'), ihr hr hr' (hRight.symm.trans hRight')]

end Lies

end Trees
