import DemoCode.RBTree.AddNode

/-! The colours that `AddNode` leaves: they are right as long as no double rotation lifts the same node
twice. -/

namespace DemoCode.RBTree

open Trees RedBlack

variable {s : RbTree} {n : Node} {t : BinaryTree Node} {path : List (Frame Node)} {val : Int}
  {a : Addr}

/-- The fix-up may go on: where a double rotation is next, the node that it lifts is red. It is black
when it has been lifted once and its new parent is red. -/
def Settles : Color → List (Frame Node) → Prop
  | c, f :: f' :: path =>
    f.parent.color = .red →
      if isRed Node.color f'.sibling then Settles .red path
      else f.side = f'.side ∨ c = .red ∧ Settles .black path
  | _, _ => True

theorem balanced_plug {m : ℕ} (h : Balanced Node.color t m)
    (hFits : Fits Node.color path (isRed Node.color t) m) :
    ∃ m, Balanced Node.color (plug path t) m :=
  (valid_iff.mp (valid_plug.mpr ⟨m, h, hFits⟩)).2

/-- `AddFixUp` leaves a tree balanced below its root if it settles. -/
theorem balanced_addFix {c : Color} {m : ℕ} (ht : root? t = some n) (hc : n.color = c)
    (hBalanced : Balanced Node.color t m) (hFits : Fits Node.color path false m)
    (hSettles : Settles c path) : ∃ m, Balanced Node.color (addFix path t) m := by
  induction path using List.twoStepInduction generalizing t n c m with
  | nil => exact ⟨m, hBalanced⟩
  | singleton f =>
    cases hf : f.parent.color with
    | red => cases ((fits_red hf).mp hFits).2.2.2
    | black => exact balanced_plug hBalanced ((fits_black hf).mpr ((fits_black hf).mp hFits))
  | cons_cons f f' path ih =>
    obtain ⟨side', p, b⟩ := f
    obtain ⟨side, g, u⟩ := f'
    cases hp : p.color with
    | black =>
      rw [addFix_black hp]
      exact balanced_plug hBalanced ((fits_black hp).mpr ((fits_black hp).mp hFits))
    | red =>
      have hSettles' := hSettles hp
      obtain ⟨hb, -, hbRed, hAbove⟩ := (fits_red hp).mp hFits
      cases hg : g.color with
      | red => cases ((fits_red hg).mp hAbove).2.1
      | black =>
        obtain ⟨hu, hFits'⟩ := (fits_black hg).mp hAbove
        cases huRed : isRed Node.color u with
        | true =>
          rw [addFix_recolour hp huRed ht]
          simp only [huRed, if_true] at hSettles'
          refine ih (root?_branch ..) rfl ((balanced_red rfl).mpr ⟨by simp, isRed_paint_black u, ?_,
            balanced_paint_black hu huRed⟩) hFits' hSettles'
          exact (balanced_black_succ rfl).mpr ⟨hBalanced, hb⟩
        | false =>
          simp only [huRed, Bool.false_eq_true, if_false] at hSettles'
          by_cases hSide : side' = side
          · subst hSide
            rw [addFix_outer hp huRed ht]
            refine balanced_plug ((balanced_black_succ rfl).mpr ⟨hBalanced, ?_⟩) (by simpa using hFits')
            exact (balanced_red rfl).mpr ⟨hbRed, huRed, hb, hu⟩
          · obtain ⟨rfl, hRest⟩ := hSettles'.resolve_left hSide
            obtain rfl := Side.eq_other hSide
            cases t with
            | nil => cases ht
            | node m' l r =>
              obtain rfl := Option.some.inj ht
              obtain ⟨x, y, hNode⟩ := exists_branch side m' l r
              rw [hNode] at hBalanced ⊢
              obtain ⟨hxRed, hyRed, hx, hy⟩ := (balanced_red hc).mp hBalanced
              rw [addFix_inner hp huRed]
              refine ih (root?_branch ..) rfl ((balanced_black_succ rfl).mpr ⟨?_, ?_⟩) hFits' hRest
              · exact (balanced_red hp).mpr ⟨hbRed, hxRed, hb, hx⟩
              · exact (balanced_red rfl).mpr ⟨hyRed, huRed, hy, hu⟩

/-- Adding `val` meets no second double rotation. -/
def Mends (t : BinaryTree Node) (val : Int) : Prop :=
  (locate val [] t).2 = .nil → Settles .red (locate val [] t).1

theorem valid_insertVal (h : Valid Node.color t) (hMends : Mends t val) :
    Valid Node.color (insertVal a val t) := by
  have hPlug := plug_locate val [] t
  rw [Mends] at hMends
  rw [insertVal]
  cases hLocate : locate val [] t with
  | mk path sub =>
    rw [hLocate] at hPlug hMends
    cases sub with
    | nil =>
      rw [show t = plug path .nil from hPlug.symm] at h
      obtain ⟨m, hNil, hFits⟩ := valid_plug.mp h
      obtain rfl := balanced_nil.mp hNil
      have hLeaf : Balanced Node.color (.node ⟨a, val, .red⟩ .nil .nil) 0 :=
        .red rfl rfl rfl .nil .nil
      obtain ⟨m, hBalanced⟩ := balanced_addFix rfl rfl hLeaf hFits (hMends rfl)
      exact valid_paint_black hBalanced
    | node n l r => exact h

/-- **Balance**: the colours are right after a sequence of calls of `AddNode` if each of them met the
condition `Mends` in the tree that it found. -/
theorem addNode_balances {alloc : Allocator} {added : List Int}
    (h : Calls alloc (fun s val => ∃ t, Rep s t ∧ Mends t val) added s) :
    ∃ t, Rep s t ∧ Valid Node.color t := by
  induction h with
  | nil => exact ⟨.nil, rep_empty, valid_nil⟩
  | snoc hCalls hMends hReturns ih =>
    obtain ⟨t, hRep, hValid⟩ := ih
    obtain ⟨t', hRep', hMends⟩ := hMends
    obtain ⟨t₀, hRep₀, hSorted, hBlack, -⟩ := hCalls.rep
    obtain rfl := hRep.unique hRep'
    obtain rfl := hRep.unique hRep₀
    exact ⟨_, hRep.of_addNode hSorted hBlack hReturns, valid_insertVal hValid hMends⟩

/-- The third value takes a double rotation. -/
theorem addNode_balances_three : ∃ s,
    Calls nextFree (fun s val => ∃ t, Rep s t ∧ Mends t val) [100, 50, 75] s ∧
      ∃ t, Rep s t ∧ Valid Node.color t := by
  obtain ⟨s₁, hRep₁, hReturns₁⟩ := rep_empty.addNode nextFree List.Pairwise.nil rfl 100
  have hSorted₁ : Sorted .nil := List.Pairwise.nil
  have hCalls₁ : Calls nextFree (fun s val => ∃ t, Rep s t ∧ Mends t val) [100] s₁ :=
    Calls.nil.snoc ⟨.nil, rep_empty, fun _ => trivial⟩ hReturns₁
  have hSorted₂ := hSorted₁.insertVal (nextFree.pick RbTree.empty) 100
  obtain ⟨s₂, hRep₂, hReturns₂⟩ := hRep₁.addNode nextFree hSorted₂ rfl 50
  have hCalls₂ := hCalls₁.snoc ⟨_, hRep₁, fun _ => by simp [insertVal, locate, addFix, plug, paint,
    Settles]⟩ hReturns₂
  obtain ⟨s₃, -, hReturns₃⟩ := hRep₂.addNode nextFree (hSorted₂.insertVal _ 50) rfl 75
  have hCalls₃ := hCalls₂.snoc ⟨_, hRep₂, fun _ => by simp [insertVal, locate, addFix, plug, branch, paint,
    isRed, Settles]⟩ hReturns₃
  exact ⟨s₃, hCalls₃, addNode_balances hCalls₃⟩

/-- The seventh value of this sequence meets a second double rotation, which leaves a red node below
a red one. -/
theorem not_balances : ¬∀ (alloc : Allocator) (added : List Int) (s : RbTree),
    Calls alloc (fun _ _ => True) added s → ∃ t, Rep s t ∧ Valid Node.color t := by
  intro h
  obtain ⟨s, as, hLength, hCalls, hRep⟩ := exists_calls nextFree [100, 50, 150, 25, 75, 60, 70]
  obtain ⟨t, hRep', hValid⟩ := h _ _ _ hCalls
  obtain rfl := hRep.unique hRep'
  obtain ⟨a₁, a₂, a₃, a₄, a₅, a₆, a₇, rfl⟩ : ∃ a₁ a₂ a₃ a₄ a₅ a₆ a₇,
      as = [a₁, a₂, a₃, a₄, a₅, a₆, a₇] := by
    match as, hLength with
    | [a₁, a₂, a₃, a₄, a₅, a₆, a₇], _ => exact ⟨a₁, a₂, a₃, a₄, a₅, a₆, a₇, rfl⟩
  have hNot := hValid.noRedRed
  simp [insertVal, locate, addFix, plug, branch, part, paint, isRed, NoRedRed, root?] at hNot

end DemoCode.RBTree
