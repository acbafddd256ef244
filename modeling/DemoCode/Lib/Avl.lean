import Mathlib.Order.Basic
import Mathlib.Order.Lattice
import DemoCode.Lib.Trees

/-! Height-balanced trees: rotations, insertion and deletion along a way that every node points out. -/

namespace Avl

open Trees

variable {α : Type*}

@[simp] theorem height_branch (side : Side) (a : α) (x y : BinaryTree α) :
    (branch side a x y).height = max x.height y.height + 1 := by
  cases side
  · rfl
  · rw [branch, BinaryTree.height, Nat.max_comm]

theorem height_eq_zero {t : BinaryTree α} : t.height = 0 ↔ t = .nil := by
  cases t <;> simp

/-- The heights of the two subtrees of every node differ by at most one. -/
def Balanced : BinaryTree α → Prop
  | .nil => True
  | .node _ l r =>
    l.height ≤ r.height + 1 ∧ r.height ≤ l.height + 1 ∧ Balanced l ∧ Balanced r

instance decidableBalanced : (t : BinaryTree α) → Decidable (Balanced t)
  | .nil => isTrue trivial
  | .node _ l r =>
    haveI := decidableBalanced l
    haveI := decidableBalanced r
    inferInstanceAs (Decidable (_ ∧ _ ∧ _ ∧ _))

@[simp] theorem balanced_nil : Balanced (.nil : BinaryTree α) := trivial

@[simp] theorem balanced_branch {side : Side} {a : α} {x y : BinaryTree α} :
    Balanced (branch side a x y) ↔
      x.height ≤ y.height + 1 ∧ y.height ≤ x.height + 1 ∧ Balanced x ∧ Balanced y := by
  cases side with
  | left => exact Iff.rfl
  | right =>
    simp only [branch, Balanced]
    tauto

/-! ### Rotations -/

/-- The node changes places with its child on `side`. -/
def rotate : Side → BinaryTree α → BinaryTree α
  | .left, .node g (.node q a b) c => .node q a (.node g b c)
  | .right, .node g a (.node q b c) => .node q (.node g a b) c
  | _, t => t

/-- The inner child of the child on `side` comes above both. -/
def rotate2 : Side → BinaryTree α → BinaryTree α
  | .left, .node g (.node q a (.node n b c)) d => .node n (.node q a b) (.node g c d)
  | .right, .node g a (.node q (.node n b c) d) => .node n (.node g a b) (.node q c d)
  | _, t => t

@[simp] theorem rotate_branch (side : Side) (g q : α) (a b c : BinaryTree α) :
    rotate side (branch side g (branch side q a b) c) = branch side q a (branch side g b c) := by
  cases side <;> rfl

@[simp] theorem rotate2_branch (side : Side) (g q n : α) (a b c d : BinaryTree α) :
    rotate2 side (branch side g (branch side q a (branch side.other n b c)) d) =
      branch side n (branch side q a c) (branch side g b d) := by
  cases side <;> rfl

/-- The subtree on `side` is too high: a single rotation where `single` says so of it, or a double
one. -/
def turn (side : Side) (single : BinaryTree α → Bool) (t : BinaryTree α) : BinaryTree α :=
  if single (part side t) then rotate side t else rotate2 side t

/-- A node whose subtree on `side` is too high is turned. -/
def mend (side : Side) (single : BinaryTree α → Bool) (t : BinaryTree α) : BinaryTree α :=
  if (part side.other t).height + 1 < (part side t).height then turn side single t else t

/-- A node is turned to whichever side is too high. -/
def settle (single : Side → BinaryTree α → Bool) (t : BinaryTree α) : BinaryTree α :=
  if (part .right t).height + 1 < (part .left t).height then turn .left (single .left) t
  else mend .right (single .right) t

/-- A turn finds the nodes it moves. -/
def Ready (side : Side) (single : BinaryTree α → Bool) (t : BinaryTree α) : Prop :=
  (part side.other t).height + 1 < (part side t).height → single (part side t) = false →
    part side.other (part side t) ≠ .nil

variable {side : Side} {single : BinaryTree α → Bool} {singles : Side → BinaryTree α → Bool}
  {a b : α} {x y t t' : BinaryTree α}

theorem mend_of_le (h : (part side t).height ≤ (part side.other t).height + 1) :
    mend side single t = t := if_neg (Nat.not_lt.mpr h)

theorem mend_of_lt (h : (part side.other t).height + 1 < (part side t).height) :
    mend side single t = turn side single t := if_pos h

theorem settle_of_balanced (h : Balanced t) : settle singles t = t := by
  cases t with
  | nil => rfl
  | node a l r =>
    obtain ⟨hLeft, hRight, -⟩ := h
    have hMend : mend .right (singles .right) (.node a l r) = .node a l r := mend_of_le hRight
    exact (if_neg (Nat.not_lt.mpr hLeft)).trans hMend

/-- Where one side is not too high, only the other is looked at. -/
theorem settle_branch (h : y.height ≤ x.height + 1) : settle singles (branch side a x y) =
    mend side (singles side) (branch side a x y) := by
  cases side with
  | left =>
    rw [settle, mend]
    refine if_congr Iff.rfl rfl (mend_of_le ?_)
    exact h
  | right =>
    rw [settle, if_neg]
    exact Nat.not_lt.mpr h

theorem exists_branch_of_ne (side : Side) (h : t ≠ .nil) : ∃ a x y, t = branch side a x y := by
  cases t with
  | nil => exact absurd rfl h
  | node a l r =>
    obtain ⟨x, y, hEq⟩ := exists_branch side a l r
    exact ⟨a, x, y, hEq⟩

theorem ne_nil_of_lt {n : ℕ} (h : n < t.height) : t ≠ .nil := by
  rintro rfl
  exact Nat.not_lt_zero n h

theorem inorder_turn : inorder (turn side single t) = inorder t := by
  rw [turn]
  split
  · cases side
    · unfold rotate
      split <;> simp
    · unfold rotate
      split <;> simp
  · cases side
    · unfold rotate2
      split <;> simp
    · unfold rotate2
      split <;> simp

@[simp] theorem inorder_mend : inorder (mend side single t) = inorder t := by
  rw [mend]
  split
  · exact inorder_turn
  · rfl

@[simp] theorem inorder_settle : inorder (settle singles t) = inorder t := by
  rw [settle]
  split
  · exact inorder_turn
  · exact inorder_mend

/-! ### The way to a place -/

section

variable (way : α → Option Side)

/-- The way goes on to `side` from the root. -/
def heads (side : Side) (t : BinaryTree α) : Bool := (root? t).bind way = some side

/-- Where the way from the root of a tree ends: the frames behind it, the last one first, and the
subtree. -/
def trail : List (Frame α) → BinaryTree α → List (Frame α) × BinaryTree α
  | path, .nil => (path, .nil)
  | path, .node a l r =>
    match way a with
    | some .left => trail (⟨.left, a, r⟩ :: path) l
    | some .right => trail (⟨.right, a, l⟩ :: path) r
    | none => (path, .node a l r)

variable {way} {path : List (Frame α)}

theorem heads_branch {side' : Side} :
    heads way side (branch side' a x y) = true ↔ way a = some side := by
  rw [heads, root?_branch, Option.bind_some, decide_eq_true_iff]

theorem trail_branch (h : way a = some side) :
    trail way path (branch side a x y) = trail way (⟨side, a, y⟩ :: path) x := by
  cases side <;> rw [branch, trail, h]

/-- Induction along the way. -/
@[elab_as_elim]
theorem way_induction (way : α → Option Side) {motive : BinaryTree α → Prop} (nil : motive .nil)
    (stop : ∀ a l r, way a = none → motive (.node a l r))
    (go : ∀ side a x y, way a = some side → motive x → motive (branch side a x y)) (t : BinaryTree α) :
    motive t := by
  induction t with
  | nil => exact nil
  | node a l r ihl ihr =>
    cases hWay : way a with
    | none => exact stop a l r hWay
    | some side =>
      cases side with
      | left => exact go .left a l r hWay ihl
      | right => exact go .right a r l hWay ihr

theorem plug_trail (way : α → Option Side) (path : List (Frame α)) (t : BinaryTree α) :
    plug (trail way path t).1 (trail way path t).2 = plug path t := by
  induction t using way_induction way generalizing path with
  | nil => rfl
  | stop a l r hStop =>
    rw [trail, hStop]
  | go side a x y hSide ih =>
    rw [trail_branch hSide]
    exact ih _

/-- The nodes above the hole of `path` are mended one after the other, and what is in the hole first
is `t`; the whole is `t'` then. -/
inductive Climbs (singles : Side → BinaryTree α → Bool) :
    List (Frame α) → BinaryTree α → BinaryTree α → Prop
  | nil {t : BinaryTree α} : Climbs singles [] t t
  | cons {f : Frame α} {path : List (Frame α)} {t t' : BinaryTree α} :
      (∀ side, Ready side (singles side) (branch f.side f.parent t f.sibling)) →
      Climbs singles path (settle singles (branch f.side f.parent t f.sibling)) t' →
      Climbs singles (f :: path) t t'

theorem Climbs.inorder_eq (h : Climbs singles path t t') : inorder t' = inorder (plug path t) := by
  induction h with
  | nil => rfl
  | @cons f path t t' _ _ ih =>
    rw [ih, plug]
    exact inorder_plug_congr path inorder_settle

theorem Climbs.unique {t'' : BinaryTree α} (h : Climbs singles path t t') (h' : Climbs singles path t t'') :
    t' = t'' := by
  induction h with
  | nil =>
    cases h'
    rfl
  | cons _ _ ih =>
    cases h' with
    | cons _ hRest => exact ih hRest

theorem exists_climbs (hReady : ∀ side t, Ready side (singles side) t) (path : List (Frame α))
    (t : BinaryTree α) : ∃ t', Climbs singles path t t' := by
  induction path generalizing t with
  | nil => exact ⟨t, .nil⟩
  | cons f path ih =>
    obtain ⟨t', hRest⟩ := ih (settle singles (branch f.side f.parent t f.sibling))
    exact ⟨t', .cons (fun side => hReady side _) hRest⟩

/-! ### Insertion -/

variable (way) (new : α)

def insert : BinaryTree α → BinaryTree α
  | .nil => .node new .nil .nil
  | .node a l r =>
    match way a with
    | some .left => mend .left (heads way .left) (.node a (insert l) r)
    | some .right => mend .right (heads way .right) (.node a l (insert r))
    | none => .node a l r

/-- The subtree that the way enters is the higher one. -/
def Leans (t : BinaryTree α) : Prop :=
  ∃ side a x y, t = branch side a x y ∧ way a = some side ∧ x.height = y.height + 1

/-- What a subtree of height `n` may become. -/
structure Grows (n : ℕ) (t' : BinaryTree α) : Prop where
  balanced : Balanced t'
  height : t'.height = n ∨ t'.height = n + 1 ∧ (n = 0 ∨ Leans way t')

variable {way new}

theorem insert_branch (h : way a = some side) : insert way new (branch side a x y) =
    mend side (heads way side) (branch side a (insert way new x) y) := by
  cases side <;> rw [branch, insert, h] <;> rfl

/-- A subtree that is too high and leans to one side is turned the right way. -/
theorem turn_leaning {side' : Side} {q : α} {p o : BinaryTree α} (a : α) (hy : Balanced y)
    (hBalanced : Balanced (branch side' q p o)) (hLeans : p.height = o.height + 1)
    (hHigh : (branch side' q p o).height = y.height + 2)
    (hSingle : single (branch side' q p o) = true ↔ side' = side) :
    Ready side single (branch side a (branch side' q p o) y) ∧
      Balanced (turn side single (branch side a (branch side' q p o) y)) ∧
      (turn side single (branch side a (branch side' q p o) y)).height = y.height + 2 := by
  obtain ⟨-, -, hBp, hBo⟩ := balanced_branch.mp hBalanced
  rw [height_branch] at hHigh
  rw [turn, part_branch]
  by_cases hSide : side' = side
  · have hTrue := hSingle.mpr hSide
    subst hSide
    rw [if_pos hTrue, rotate_branch]
    refine ⟨fun _ hNot => ?_, ?_, ?_⟩
    · rw [part_branch] at hNot
      exact absurd hTrue (by rw [hNot]; decide)
    · simp only [balanced_branch, height_branch]
      refine ⟨by omega, by omega, hBp, by omega, by omega, hBo, hy⟩
    · simp only [height_branch]
      omega
  · have hFalse : ¬single (branch side' q p o) = true := fun hTrue => hSide (hSingle.mp hTrue)
    obtain rfl := Side.eq_other hSide
    obtain ⟨n, b, c, rfl⟩ : ∃ n b c, p = branch side.other n b c := by
      refine exists_branch_of_ne side.other (ne_nil_of_lt (n := 0) ?_)
      omega
    rw [if_neg hFalse, branch_other, rotate2_branch]
    rw [height_branch] at hLeans hHigh
    obtain ⟨hbc, hcb, hBb, hBc⟩ := balanced_branch.mp hBp
    refine ⟨fun _ _ => ?_, ?_, ?_⟩
    · rw [part_branch, part_other_branch]
      exact branch_ne_nil
    · simp only [balanced_branch, height_branch]
      refine ⟨by omega, by omega, ⟨by omega, by omega, hBo, hBc⟩, by omega, by omega, hBb, hy⟩
    · simp only [height_branch]
      omega

/-- The way chooses the right turn. -/
theorem Grows.turn (side : Side) (a : α) (hx : x.height ≤ y.height + 1) (hy : Balanced y)
    (h : Grows way x.height t') (hHigh : y.height + 1 < t'.height) :
    Ready side (heads way side) (branch side a t' y) ∧
      Balanced (Avl.turn side (heads way side) (branch side a t' y)) ∧
      (Avl.turn side (heads way side) (branch side a t' y)).height = max x.height y.height + 1 := by
  obtain ⟨hBalanced, hHeight⟩ := h
  obtain ⟨hGrown, hLeans⟩ : t'.height = x.height + 1 ∧ (x.height = 0 ∨ Leans way t') := by
    rcases hHeight with hSame | hGrown
    · omega
    · exact hGrown
  obtain ⟨side', q, p, o, rfl, hq, hp⟩ : Leans way t' := by
    apply hLeans.resolve_left
    omega
  have hSingle : heads way side (branch side' q p o) = true ↔ side' = side := by
    rw [heads_branch, hq, Option.some.injEq]
  have hMax : max x.height y.height + 1 = y.height + 2 := by omega
  rw [hMax]
  exact turn_leaning a hy hBalanced hp (by omega) hSingle

theorem Grows.mend (hWay : way a = some side) (hBalanced : Balanced (branch side a x y))
    (h : Grows way x.height t') : Ready side (heads way side) (branch side a t' y) ∧
      Grows way (branch side a x y).height (Avl.mend side (heads way side) (branch side a t' y)) := by
  obtain ⟨hxy, hyx, -, hy⟩ := balanced_branch.mp hBalanced
  by_cases hHigh : y.height + 1 < t'.height
  · obtain ⟨hReady, hTurned, hHeight⟩ := h.turn side a hxy hy hHigh
    refine ⟨hReady, ?_⟩
    rw [mend_of_lt (by rwa [part_branch, part_other_branch])]
    refine ⟨hTurned, .inl ?_⟩
    rw [hHeight, height_branch]
  · obtain ⟨hBalanced', hHeight⟩ := h
    refine ⟨fun hLess => absurd hLess ?_, ?_⟩
    · rwa [part_branch, part_other_branch]
    · rw [mend_of_le (by rw [part_branch, part_other_branch]; omega)]
      refine ⟨?_, ?_⟩
      · rw [balanced_branch]
        exact ⟨by omega, by omega, hBalanced', hy⟩
      · rw [height_branch, height_branch]
        by_cases hGrown : t'.height = y.height + 1 ∧ x.height = y.height
        · exact .inr ⟨by omega, .inr ⟨side, a, t', y, rfl, hWay, hGrown.1⟩⟩
        · left
          omega

theorem grows_insert (new : α) (h : Balanced t) (hWay : ∀ a ∈ inorder t, way a ≠ none) :
    Grows way t.height (insert way new t) := by
  induction t using way_induction way with
  | nil => exact ⟨⟨by simp, by simp, trivial, trivial⟩, .inr ⟨rfl, .inl rfl⟩⟩
  | stop a l r hStop => exact absurd hStop (hWay a (by simp))
  | go side a x y hSide ih =>
    have hx := (balanced_branch.mp h).2.2.1
    have hGrows := ih hx fun b hb => hWay b (mem_branch.mpr (.inr (.inl hb)))
    rw [insert_branch hSide]
    exact (hGrows.mend hSide h).2

theorem inorder_insert_perm (new : α) (hWay : ∀ a ∈ inorder t, way a ≠ none) :
    (inorder (insert way new t)).Perm (new :: inorder t) := by
  induction t using way_induction way with
  | nil => exact List.Perm.refl _
  | stop a l r hStop => exact absurd hStop (hWay a (by simp))
  | go side a x y hSide ih =>
    have hPerm := ih fun b hb => hWay b (mem_branch.mpr (.inr (.inl hb)))
    rw [insert_branch hSide, inorder_mend]
    have hNew := inorder_branch_perm side a (insert way new x) y
    have hOld := inorder_branch_perm side a x y
    refine hNew.trans (((hPerm.append_right (inorder y)).cons a).trans ?_)
    exact (List.Perm.swap new a _).trans (hOld.symm.cons new)

end

/-! ### Search trees -/

section

variable {κ : Type*} [LinearOrder κ] {key : α → κ} {k : κ} {l r : BinaryTree α}

/-- The way to a key. -/
def towards (key : α → κ) (k : κ) (a : α) : Option Side :=
  if k < key a then some .left else if key a < k then some .right else none

/-- The keys strictly increase. -/
def Sorted (key : α → κ) (t : BinaryTree α) : Prop := ((inorder t).map key).Pairwise (· < ·)

instance (t : BinaryTree α) : Decidable (Sorted key t) :=
  inferInstanceAs (Decidable (List.Pairwise _ _))

theorem towards_left : towards key k a = some .left ↔ k < key a := by
  rw [towards]
  split_ifs with hLess hGreater
  · simp [hLess]
  · simp [hLess]
  · simp [hLess]

theorem towards_right : towards key k a = some .right ↔ key a < k := by
  rw [towards]
  split_ifs with hLess hGreater
  · simp [hLess.le]
  · simp [hGreater]
  · simp [hGreater]

theorem towards_none : towards key k a = none ↔ key a = k := by
  rw [towards]
  split_ifs with hLess hGreater
  · simp [hLess.ne']
  · simp [hGreater.ne]
  · simp [le_antisymm (not_lt.mp hLess) (not_lt.mp hGreater)]

theorem towards_congr {key' : α → κ} (h : key a = key' a) : towards key k a = towards key' k a := by
  simp only [towards, h]

theorem sorted_node : Sorted key (.node a l r) ↔
    Sorted key l ∧ Sorted key r ∧ (∀ b ∈ inorder l, key b < key a) ∧ ∀ b ∈ inorder r, key a < key b := by
  simp only [Sorted, inorder_node, List.map_append, List.map_cons, List.pairwise_append,
    List.pairwise_cons, List.forall_mem_map, List.mem_cons]
  constructor
  · rintro ⟨hl, ⟨ha, hr⟩, hlr⟩
    exact ⟨hl, hr, fun b hb => hlr b hb _ (.inl rfl), ha⟩
  · rintro ⟨hl, hr, hla, ha⟩
    refine ⟨hl, ⟨ha, hr⟩, fun b hb v hv => ?_⟩
    rcases hv with rfl | hv
    · exact hla b hb
    · obtain ⟨c, hc, rfl⟩ := List.mem_map.mp hv
      exact (hla b hb).trans (ha c hc)

theorem Sorted.insert (new : α) (h : Sorted key t) (hNew : ∀ a ∈ inorder t, key a ≠ key new) :
    Sorted key (Avl.insert (towards key (key new)) new t) := by
  induction t using way_induction (towards key (key new)) with
  | nil => simp [Avl.insert, Sorted]
  | stop a l r hStop => exact absurd (towards_none.mp hStop) (hNew a (by simp))
  | go side a x y hSide ih =>
    have hNew' : ∀ b ∈ inorder x, key b ≠ key new := fun b hb => hNew b (mem_branch.mpr (.inr (.inl hb)))
    have hMem : ∀ b ∈ inorder (Avl.insert (towards key (key new)) new x), b = new ∨ b ∈ inorder x := by
      intro b hb
      have hPerm := inorder_insert_perm new fun c hc hNone => hNew' c hc (towards_none.mp hNone)
      exact List.mem_cons.mp (hPerm.mem_iff.mp hb)
    rw [insert_branch hSide, Sorted, inorder_mend, ← Sorted]
    cases side with
    | left =>
      obtain ⟨hx, hy, hLess, hGreater⟩ := sorted_node.mp h
      refine sorted_node.mpr ⟨ih hx hNew', hy, fun b hb => ?_, hGreater⟩
      rcases hMem b hb with rfl | hIn
      · exact towards_left.mp hSide
      · exact hLess b hIn
    | right =>
      obtain ⟨hy, hx, hLess, hGreater⟩ := sorted_node.mp h
      refine sorted_node.mpr ⟨hy, ih hx hNew', hLess, fun b hb => ?_⟩
      rcases hMem b hb with rfl | hIn
      · exact towards_right.mp hSide
      · exact hGreater b hIn

end

end Avl
