import DemoCode.Lib.Trees

/-! Red-black trees: what makes the colours of a tree right, and the same of a tree with a hole. -/

namespace RedBlack

open Trees

inductive Color where
  | red
  | black
  deriving DecidableEq, Repr

section

variable {α : Type*} (color : α → Color)

/-- The root is red; a null link is black. -/
def isRed : BinaryTree α → Bool
  | .nil => false
  | .node a _ _ => color a = .red

/-- No red node has a red child. -/
def NoRedRed : BinaryTree α → Prop
  | .nil => True
  | .node a l r =>
    (color a = .red → isRed color l = false ∧ isRed color r = false) ∧ NoRedRed l ∧ NoRedRed r

/-- The paths from the root to the null links. -/
def paths : BinaryTree α → List (List α)
  | .nil => [[]]
  | .node a l r => (paths l ++ paths r).map (a :: ·)

/-- The black nodes of a path. -/
def blacks (path : List α) : ℕ := path.countP fun a => color a = .black

structure Valid (t : BinaryTree α) : Prop where
  root : isRed color t = false
  noRedRed : NoRedRed color t
  paths : ∃ n, ∀ path ∈ paths t, blacks color path = n

/-- The colours below the root are right, with `n` black nodes on each path. -/
inductive Balanced : BinaryTree α → ℕ → Prop
  | nil : Balanced .nil 0
  | red {a l r n} : color a = .red → isRed color l = false → isRed color r = false →
      Balanced l n → Balanced r n → Balanced (.node a l r) n
  | black {a l r n} : color a = .black → Balanced l n → Balanced r n → Balanced (.node a l r) (n + 1)

/-- The colours around a hole are right, once it is filled with a tree of black height `n` whose root
is red or not. -/
def Fits : List (Frame α) → Bool → ℕ → Prop
  | [], red, _ => red = false
  | f :: path, red, n =>
    Balanced color f.sibling n ∧
      match color f.parent with
      | .red => red = false ∧ isRed color f.sibling = false ∧ Fits path true n
      | .black => Fits path false (n + 1)

variable {color} {side : Side} {a b : α} {x y l r t : BinaryTree α} {n m : ℕ} {red red' : Bool}
  {f : Frame α} {path : List (Frame α)}

@[simp] theorem isRed_nil : isRed color .nil = false := rfl

theorem isRed_node : isRed color (.node a l r) = decide (color a = .red) := rfl

@[simp] theorem isRed_branch : isRed color (branch side a x y) = decide (color a = .red) := by
  cases side <;> rfl

theorem Color.ne_red {c : Color} : c ≠ .red ↔ c = .black := by
  cases c <;> decide

/-! ### Trees -/

@[simp] theorem balanced_nil : Balanced color .nil n ↔ n = 0 :=
  ⟨fun h => by cases h; rfl, fun h => h ▸ .nil⟩

theorem balanced_red (h : color a = .red) : Balanced color (branch side a x y) n ↔
    isRed color x = false ∧ isRed color y = false ∧ Balanced color x n ∧ Balanced color y n := by
  constructor
  · intro hBalanced
    cases side <;> cases hBalanced with
    | red _ hl hr hBl hBr => exact ⟨by assumption, by assumption, by assumption, by assumption⟩
    | black hBlack => cases h.symm.trans hBlack
  · rintro ⟨hx, hy, hBx, hBy⟩
    cases side
    · exact .red h hx hy hBx hBy
    · exact .red h hy hx hBy hBx

theorem balanced_black (h : color a = .black) : Balanced color (branch side a x y) n ↔
    ∃ m, n = m + 1 ∧ Balanced color x m ∧ Balanced color y m := by
  constructor
  · intro hBalanced
    cases side <;> cases hBalanced with
    | red hRed => cases h.symm.trans hRed
    | black _ hBl hBr => exact ⟨_, rfl, by assumption, by assumption⟩
  · rintro ⟨m, rfl, hBx, hBy⟩
    cases side
    · exact .black h hBx hBy
    · exact .black h hBy hBx

theorem balanced_black_succ (h : color a = .black) :
    Balanced color (branch side a x y) (n + 1) ↔ Balanced color x n ∧ Balanced color y n := by
  simp [balanced_black h]

theorem Balanced.unique (h : Balanced color t n) (h' : Balanced color t m) : n = m := by
  induction h generalizing m with
  | nil => exact (balanced_nil.mp h').symm
  | red hRed _ _ _ _ ihl =>
    cases h' with
    | red _ _ _ hl => exact ihl hl
    | black hBlack => cases hRed.symm.trans hBlack
  | black hBlack _ _ ihl =>
    cases h' with
    | red hRed => cases hRed.symm.trans hBlack
    | black _ hl => rw [ihl hl]

theorem paths_ne_nil (t : BinaryTree α) : paths t ≠ [] := by
  induction t with
  | nil => simp [paths]
  | node a l r ihl _ => simp [paths, ihl]

theorem paths_node_iff {k : ℕ} : (∀ path ∈ paths (.node a l r), blacks color path = k) ↔
    ∀ path ∈ paths l ++ paths r, blacks color path + (if color a = .black then 1 else 0) = k := by
  simp only [paths, List.forall_mem_map, blacks, List.countP_cons, decide_eq_true_eq]

theorem balanced_iff :
    Balanced color t n ↔ NoRedRed color t ∧ ∀ path ∈ paths t, blacks color path = n := by
  induction t generalizing n with
  | nil => simp [NoRedRed, paths, blacks, eq_comm]
  | node a l r ihl ihr =>
    have hNode := @paths_node_iff α color a l r n
    cases h : color a with
    | red =>
      rw [show BinaryTree.node a l r = branch .left a l r from rfl, balanced_red h, ihl, ihr]
      simp only [branch, hNode, NoRedRed, h, List.mem_append, or_imp, forall_and]
      simp
      tauto
    | black =>
      rw [show BinaryTree.node a l r = branch .left a l r from rfl, balanced_black h]
      simp only [branch, hNode, NoRedRed, h, List.mem_append, or_imp, forall_and, ihl, ihr]
      obtain ⟨path, hPath⟩ := List.exists_mem_of_ne_nil _ (paths_ne_nil l)
      constructor
      · rintro ⟨m, rfl, ⟨hl, hPl⟩, hr, hPr⟩
        exact ⟨⟨by simp, hl, hr⟩, fun p hp => by simp [hPl p hp], fun p hp => by simp [hPr p hp]⟩
      · rintro ⟨⟨-, hl, hr⟩, hPl, hPr⟩
        simp only [if_true] at hPl hPr
        have hn := hPl path hPath
        exact ⟨n - 1, by omega, ⟨hl, fun p hp => by have := hPl p hp; omega⟩,
          hr, fun p hp => by have := hPr p hp; omega⟩

theorem valid_iff : Valid color t ↔ isRed color t = false ∧ ∃ n, Balanced color t n := by
  constructor
  · rintro ⟨hRoot, hRed, n, hPaths⟩
    exact ⟨hRoot, n, balanced_iff.mpr ⟨hRed, hPaths⟩⟩
  · rintro ⟨hRoot, n, hBalanced⟩
    obtain ⟨hRed, hPaths⟩ := balanced_iff.mp hBalanced
    exact ⟨hRoot, hRed, n, hPaths⟩

theorem valid_nil : Valid color .nil := valid_iff.mpr ⟨rfl, 0, .nil⟩

/-- With a black root a balanced tree is valid. -/
theorem Balanced.valid (h : Balanced color (.node a l r) n) (hb : color b = .black) :
    Valid color (.node b l r) := by
  refine valid_iff.mpr ⟨by simp [isRed, hb], ?_⟩
  cases h with
  | red _ _ _ hl hr => exact ⟨_, .black hb hl hr⟩
  | black _ hl hr => exact ⟨_, .black hb hl hr⟩

/-! ### Trees with a hole -/

theorem fits_red (h : color f.parent = .red) : Fits color (f :: path) red n ↔
    Balanced color f.sibling n ∧ red = false ∧ isRed color f.sibling = false ∧
      Fits color path true n := by
  simp only [Fits, h]

theorem fits_black (h : color f.parent = .black) : Fits color (f :: path) red n ↔
    Balanced color f.sibling n ∧ Fits color path false (n + 1) := by
  simp only [Fits, h]

theorem Fits.of_red (h : Fits color path red n) : Fits color path false n := by
  cases path with
  | nil => rfl
  | cons f path =>
    cases hColor : color f.parent with
    | red =>
      rw [fits_red hColor] at h ⊢
      exact ⟨h.1, rfl, h.2.2⟩
    | black => exact (fits_black hColor).mpr ((fits_black hColor).mp h)

theorem Fits.sibling (h : Fits color (f :: path) red n) : Balanced color f.sibling n := h.1

/-- The black height that a hole asks for. -/
theorem Fits.unique (h : Fits color path red n) (h' : Fits color path red' m) (hPath : path ≠ []) :
    n = m := by
  cases path with
  | nil => exact absurd rfl hPath
  | cons f path => exact h.sibling.unique h'.sibling

theorem valid_plug : Valid color (plug path t) ↔
    ∃ n, Balanced color t n ∧ Fits color path (isRed color t) n := by
  induction path generalizing t with
  | nil =>
    rw [plug, valid_iff, and_comm]
    exact exists_and_right.symm
  | cons f path ih =>
    rw [plug, ih, isRed_branch]
    cases h : color f.parent with
    | red =>
      simp only [balanced_red h, fits_red h, decide_true]
      exact exists_congr fun n => by tauto
    | black =>
      simp only [balanced_black h, fits_black h, reduceCtorEq, decide_false]
      constructor
      · rintro ⟨n, ⟨m, rfl, ht, hSibling⟩, hFits⟩
        exact ⟨m, ht, hSibling, hFits⟩
      · rintro ⟨n, ht, hSibling, hFits⟩
        exact ⟨n + 1, ⟨n, rfl, ht, hSibling⟩, hFits⟩

/-- What is in the hole of a valid tree is balanced. -/
theorem Valid.balanced (h : Valid color (plug path t)) : ∃ n, Balanced color t n :=
  let ⟨n, hBalanced, _⟩ := valid_plug.mp h
  ⟨n, hBalanced⟩

end

end RedBlack
