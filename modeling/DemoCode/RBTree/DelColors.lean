import DemoCode.RBTree.DelSafe

/-! The colours that `DelNode` leaves where it returns. -/

namespace DemoCode.RBTree

open Trees RedBlack

variable {s : RbTree} {side : Side} {p b : Node} {sub i o t t' : BinaryTree Node}
  {path : List (Frame Node)} {m : ℕ} {next : BinaryTree Node → Option (Option (BinaryTree Node))}

/-- One level above a black leaf that goes. -/
def KeepsAbove : List (Frame Node) → Prop
  | [] => True
  | f :: _ =>
    f.parent.color = .black ∧ isRed Node.color f.sibling = false ∧
      isRed Node.color (part f.side f.sibling) = true ∧
      (f.side = .right → isRed Node.color (part .left f.sibling) = false)

/-- Where the colours stay right when a black leaf that is not the root goes. -/
def Keeps : List (Frame Node) → Prop
  | [] => True
  | f :: path =>
    if isLeaf f.sibling then f.parent.color = .red ∨ KeepsAbove path
    else isRed Node.color f.sibling = false ∧
      (part f.side f.sibling = .nil ∨ f.side = .left ∧ f.parent.color = .black)

/-- Where `val` may be deleted without harm to the colours. -/
def DelKeeps (val : Int) (t : BinaryTree Node) : Prop :=
  match cut val t with
  | none => True
  | some (path, d, c) => d.color = .red ∨ c ≠ .nil ∨ Keeps path

theorem isRed_of_zero (h : Balanced Node.color t 0) (ht : t ≠ .nil) : isRed Node.color t = true := by
  cases h with
  | nil => exact absurd rfl ht
  | red hRed => simp [isRed_node, hRed]

/-- Every subtree of a balanced tree is balanced. -/
theorem balanced_near {n : Node} {x y : BinaryTree Node} (h : Balanced Node.color (branch side n x y) m) :
    ∃ k, Balanced Node.color x k := by
  cases hn : n.color with
  | red => exact ⟨m, ((balanced_red hn).mp h).2.2.1⟩
  | black =>
    obtain ⟨k, -, hx, -⟩ := (balanced_black hn).mp h
    exact ⟨k, hx⟩

theorem mend_eq_branch (side : Side) (p b : Node) (sub i o : BinaryTree Node) :
    ∃ n x y, mend side p b sub i o = branch side n (branch side (p.paint .black) sub x) y := by
  cases i with
  | nil => exact ⟨_, _, _, rfl⟩
  | node n l r =>
    obtain ⟨x, y, hNode⟩ := exists_branch side n l r
    rw [hNode, mend_inner]
    exact ⟨_, _, _, rfl⟩

theorem repairHalf_within_mend {l r : BinaryTree Node}
    (h : repairHalf next side path p sub (.node b l r) = some (some t'))
    (hNephew : ¬(l = .nil ∧ r = .nil)) (hValid : Valid Node.color t') :
    ∃ k, Balanced Node.color sub k := by
  obtain ⟨i, o, hNode⟩ := exists_branch side b l r
  have hNephew' : ¬(i = .nil ∧ o = .nil) := by
    rintro ⟨rfl, rfl⟩
    cases side <;> cases hNode <;> exact hNephew ⟨rfl, rfl⟩
  rw [hNode, repairHalf_branch hNephew'] at h
  split at h
  · cases h
  · cases h
    obtain ⟨k, hBalanced⟩ := hValid.balanced
    obtain ⟨n, x, y, hMend⟩ := mend_eq_branch side p b sub i o
    rw [hMend] at hBalanced
    obtain ⟨k', hBelow⟩ := balanced_near hBalanced
    exact balanced_near hBelow

/-- What is in the hole stays in the tree, so that it must be balanced. -/
theorem repairHalf_within
    (hNext : ∀ t₁ t₂, next t₁ = some (some t₂) → Valid Node.color t₂ → ∃ k, Balanced Node.color t₁ k)
    (h : repairHalf next side path p sub t = some (some t')) (hValid : Valid Node.color t') :
    ∃ k, Balanced Node.color sub k := by
  match t, h with
  | .node b .nil .nil, h =>
    rw [repairHalf] at h
    split at h
    · cases h
      have hIn : Valid Node.color (plug (⟨side, p.paint .black, _⟩ :: path) sub) := hValid
      exact hIn.balanced
    · obtain ⟨k, hBalanced⟩ := hNext _ _ h hValid
      exact balanced_near hBalanced
  | .node b (.node v x y) r, h => exact repairHalf_within_mend h (by simp) hValid
  | .node b .nil (.node v x y), h => exact repairHalf_within_mend h (by simp) hValid

theorem repair_within (h : repair path sub = some (some t')) (hValid : Valid Node.color t') :
    ∃ k, Balanced Node.color sub k := by
  induction path generalizing sub t' with
  | nil =>
    cases h
    exact (valid_iff.mp hValid).2
  | cons f path ih =>
    obtain ⟨side, p, t⟩ := f
    cases hRed : isRed Node.color t with
    | false =>
      rw [repair_black hRed] at h
      exact repairHalf_within (fun _ _ h hValid => ih h hValid) h hValid
    | true =>
      cases side with
      | left =>
        rw [repair_left_red hRed] at h
        cases h
      | right =>
        cases t with
        | nil => cases hRed
        | node b l r =>
          rw [repair_right_red (by simpa [isRed_node] using hRed)] at h
          obtain ⟨k, hBalanced⟩ := repairHalf_within (fun _ _ h hValid => ih h hValid) h hValid
          exact balanced_near hBalanced

/-- A red brother on the right leaves a red node above subtrees of different heights. -/
theorem not_valid_repair_red {k : ℕ} {l r : BinaryTree Node} (hb : b.color = .red)
    (h : repair (⟨.right, p, .node b l r⟩ :: path) sub = some (some t'))
    (hSub : Balanced Node.color sub m) (hr : Balanced Node.color r k) (hNe : m ≠ k) :
    ¬Valid Node.color t' := by
  intro hValid
  rw [repair_right_red hb] at h
  obtain ⟨k', hBalanced⟩ := repairHalf_within (fun _ _ h hValid => repair_within h hValid) h hValid
  obtain ⟨-, -, hSub', hr'⟩ := (balanced_red rfl).mp hBalanced
  exact hNe ((hSub.unique hSub').trans (hr'.unique hr))

/-! ### A black brother -/

theorem balanced_paint_of_black (h : isRed Node.color t = false) :
    Balanced Node.color (paint .black t) m ↔ Balanced Node.color t m := by
  cases t with
  | nil => rfl
  | node n l r =>
    have hn : n.color = .black := by simpa [isRed_node, Color.ne_red] using h
    have hNode : n.paint .black = n := by rw [Node.paint, ← hn]
    rw [paint, hNode]

theorem valid_mend_outer {f : Frame Node} (hSub : Balanced Node.color sub 0)
    (ho : Balanced Node.color o 0) (hNe : o ≠ .nil) (hFits : Fits Node.color (f :: path) false 1) :
    Valid Node.color (plug path (mend f.side f.parent b sub .nil o)) := by
  have hFar := balanced_paint_black ho (isRed_of_zero ho hNe)
  have hNear : Balanced Node.color (branch f.side (f.parent.paint .black) sub .nil) 1 :=
    (balanced_black_succ rfl).mpr ⟨hSub, .nil⟩
  rw [mend_outer]
  apply valid_plug.mpr
  rw [isRed_branch]
  cases hp : f.parent.color with
  | black =>
    exact ⟨2, (balanced_black_succ rfl).mpr ⟨hNear, hFar⟩, ((fits_black hp).mp hFits).2⟩
  | red =>
    exact ⟨1, (balanced_red rfl).mpr ⟨by simp, isRed_paint_black o, hNear, hFar⟩,
      ((fits_red hp).mp hFits).2.2.2⟩

theorem valid_mend_inner {f : Frame Node} (hb : b.color = .black) (hSub : Balanced Node.color sub m)
    (hi : Balanced Node.color i m) (ho : Balanced Node.color o m) (hNe : i ≠ .nil)
    (hFits : Fits Node.color (f :: path) false (m + 1)) :
    Valid Node.color (plug path (mend f.side f.parent b sub i o)) ↔
      f.parent.color = .black ∧ isRed Node.color i = true ∧
        (f.side = .right → isRed Node.color o = false) := by
  obtain ⟨side, p, t⟩ := f
  cases i with
  | nil => exact absurd rfl hNe
  | node n l r =>
    obtain ⟨x, y, hNode⟩ := exists_branch side n l r
    rw [hNode] at hi ⊢
    rw [isRed_branch, decide_eq_true_iff, mend_inner, valid_plug, isRed_branch]
    constructor
    · rintro ⟨k, hBalanced, hFits'⟩
      obtain ⟨k₁, rfl, hNear, hFar⟩ := (balanced_black rfl).mp hBalanced
      obtain ⟨k₂, rfl, hSub', hx⟩ := (balanced_black rfl).mp hNear
      obtain rfl := hSub'.unique hSub
      have hy := (balanced_black_succ hb).mp hFar
      have hp : p.color = .black := by
        cases hColor : p.color with
        | black => rfl
        | red =>
          have hAbove := ((fits_red hColor).mp hFits).2.2.2
          have hPath : path ≠ [] := by
            rintro rfl
            cases hAbove
          have := hAbove.unique hFits' hPath
          omega
      refine ⟨hp, ?_, ?_⟩
      · cases hn : n.color with
        | red => rfl
        | black =>
          obtain ⟨k', hk, hx', -⟩ := (balanced_black hn).mp hi
          have := hx.unique hx'
          omega
      · rintro rfl
        by_contra hRed
        have hTint : Balanced Node.color (paint p.color o) _ := hy.2
        rw [hp] at hTint
        have := (balanced_paint_black ho (by simpa using hRed)).unique hTint
        omega
    · rintro ⟨hp, hn, hSide⟩
      obtain ⟨hxRed, hyRed, hx, hy⟩ := (balanced_red hn).mp hi
      have hTint : Balanced Node.color (tint side p.color o) m := by
        cases side with
        | left => exact ho
        | right =>
          rw [tint, hp]
          exact (balanced_paint_of_black (hSide rfl)).mpr ho
      refine ⟨m + 2, (balanced_black_succ rfl).mpr ⟨(balanced_black_succ rfl).mpr ⟨hSub, hx⟩,
        (balanced_black_succ hb).mpr ⟨hy, hTint⟩⟩, ?_⟩
      simpa using ((fits_black hp).mp hFits).2

/-! ### The whole call -/

theorem part_left_branch (side : Side) (b : Node) (i o : BinaryTree Node) :
    part .left (branch side b i o) = if side = .left then i else o := by
  cases side <;> rfl

/-- One level up, where the subtree in the hole has a black root. -/
theorem valid_repair_above (hSub : Balanced Node.color sub 1) (hRed : isRed Node.color sub = false)
    (hFits : Fits Node.color path false 2) (h : repair path sub = some (some t')) :
    Valid Node.color t' ↔ KeepsAbove path := by
  cases path with
  | nil =>
    cases h
    exact iff_of_true (valid_iff.mpr ⟨hRed, 1, hSub⟩) trivial
  | cons f path =>
    obtain ⟨side, p, t⟩ := f
    cases ht : isRed Node.color t with
    | false =>
      have hSibling : Balanced Node.color t 2 := hFits.sibling
      obtain ⟨b, i, o, rfl, hb, hi, ho, hHalf⟩ :=
        @repairHalf_high side p sub t path 0 (fun t => repair path t) hSibling ht
      rw [repair_black ht, hHalf] at h
      cases h
      have hNe : i ≠ .nil := fun hNil => by cases balanced_nil.mp (hNil ▸ hi)
      rw [valid_mend_inner hb hSub hi ho hNe hFits]
      simp only [KeepsAbove, ht, part_branch, part_left_branch, true_and]
      refine and_congr_right fun _ => and_congr_right fun _ => forall_congr' fun hSide => ?_
      rw [if_neg (by simp [hSide])]
    | true =>
      cases side with
      | left =>
        rw [repair_left_red ht] at h
        cases h
      | right =>
        cases t with
        | nil => cases ht
        | node b l r =>
          have hb : b.color = .red := by simpa [isRed_node] using ht
          have hSibling : Balanced Node.color (branch .left b l r) 2 := hFits.sibling
          obtain ⟨-, -, -, hr⟩ := (balanced_red hb).mp hSibling
          refine iff_of_false (not_valid_repair_red hb h hSub hr (by decide)) ?_
          rintro ⟨-, hNot, -⟩
          rw [ht] at hNot
          cases hNot

theorem eq_of_isLeaf (h : isLeaf t = true) : ∃ b, t = .node b .nil .nil := by
  match t, h with
  | .node b .nil .nil, _ => exact ⟨b, rfl⟩

/-- Below a black leaf that goes: a brother without children. -/
theorem valid_repair_leaf (hFits : Fits Node.color (⟨side, p, t⟩ :: path) false 1)
    (hLeaf : isLeaf t = true) (h : repair (⟨side, p, t⟩ :: path) .nil = some (some t')) :
    Valid Node.color t' ↔ p.color = .red ∨ KeepsAbove path := by
  obtain ⟨b, rfl⟩ := eq_of_isLeaf hLeaf
  have hSibling : Balanced Node.color (branch .left b .nil .nil) 1 := hFits.sibling
  have hb : b.color = .black := by
    cases hColor : b.color with
    | black => rfl
    | red => cases balanced_nil.mp ((balanced_red hColor).mp hSibling).2.2.1
  have hRedLeaf : Balanced Node.color (.node (b.paint .red) .nil .nil) 0 :=
    .red rfl rfl rfl .nil .nil
  rw [repair_black (by simp [isRed_node, hb]), repairHalf] at h
  cases hp : p.color with
  | red =>
    rw [if_pos hp] at h
    cases h
    refine iff_of_true (valid_plug.mpr ⟨1, (balanced_black_succ rfl).mpr ⟨.nil, hRedLeaf⟩, ?_⟩)
      (.inl rfl)
    simpa using ((fits_red hp).mp hFits).2.2.2.of_red
  | black =>
    rw [if_neg (by rw [hp]; decide)] at h
    simp only [reduceCtorEq, false_or]
    refine valid_repair_above ((balanced_black_succ hp).mpr ⟨.nil, hRedLeaf⟩) ?_
      ((fits_black hp).mp hFits).2 h
    simp [hp]

/-- A brother with a nephew. -/
theorem valid_repair_nephew (hFits : Fits Node.color (⟨side, p, t⟩ :: path) false 1)
    (hLeaf : isLeaf t = false) (h : repair (⟨side, p, t⟩ :: path) .nil = some (some t')) :
    Valid Node.color t' ↔ isRed Node.color t = false ∧
      (part side t = .nil ∨ side = .left ∧ p.color = .black) := by
  cases t with
  | nil => cases balanced_nil.mp hFits.sibling
  | node b l r =>
    obtain ⟨i, o, hNode⟩ := exists_branch side b l r
    have hNephew : ¬(i = .nil ∧ o = .nil) := by
      rintro ⟨rfl, rfl⟩
      rw [hNode] at hLeaf
      cases side <;> cases hLeaf
    cases ht : isRed Node.color (.node b l r) with
    | true =>
      have hb : b.color = .red := by simpa [isRed_node] using ht
      have hSibling : Balanced Node.color (branch .left b l r) 1 := hFits.sibling
      obtain ⟨-, -, -, hr⟩ := (balanced_red hb).mp hSibling
      cases side with
      | left =>
        rw [repair_left_red ht] at h
        cases h
      | right =>
        refine iff_of_false (not_valid_repair_red hb h .nil hr (by decide)) ?_
        rintro ⟨hNot, -⟩
        cases hNot
    | false =>
      rw [hNode] at hFits ht h ⊢
      rw [isRed_branch, decide_eq_false_iff_not] at ht
      have hb := Color.ne_red.mp ht
      obtain ⟨hi, ho⟩ := (balanced_black_succ hb).mp hFits.sibling
      rw [repair_black (by simp [hb]), repairHalf_branch hNephew] at h
      split at h
      · cases h
      · next hNull =>
        cases h
        simp only [part_branch, true_and]
        by_cases hiNil : i = .nil
        · subst hiNil
          exact iff_of_true (valid_mend_outer .nil ho (fun hNil => hNephew ⟨rfl, hNil⟩) hFits)
            (.inl rfl)
        · rw [valid_mend_inner hb .nil hi ho hiNil hFits]
          simp only [hiNil, isRed_of_zero hi hiNil, false_or, true_and]
          rw [and_comm]
          refine and_congr_left fun _ => ?_
          cases side with
          | left => simp
          | right =>
            have hoRed := isRed_of_zero ho fun hNil => hNull ⟨rfl, hNil⟩
            simp [hoRed]

theorem valid_repair (hFits : Fits Node.color path false 1) (h : repair path .nil = some (some t')) :
    Valid Node.color t' ↔ Keeps path := by
  cases path with
  | nil =>
    cases h
    exact iff_of_true valid_nil trivial
  | cons f path =>
    cases hLeaf : isLeaf f.sibling with
    | true =>
      simp only [Keeps, hLeaf, if_true]
      exact valid_repair_leaf hFits hLeaf h
    | false =>
      simp only [Keeps, hLeaf, Bool.false_eq_true, if_false]
      exact valid_repair_nephew hFits hLeaf h

/-- Only a black leaf needs a repair. -/
theorem valid_delFix {d : Node} {c : BinaryTree Node}
    (hValid : Valid Node.color (plug path (branch side d c .nil)))
    (h : delFix path d c = some (some t')) :
    Valid Node.color t' ↔ d.color = .red ∨ c ≠ .nil ∨ Keeps path := by
  obtain ⟨k, hBalanced, hFits⟩ := valid_plug.mp hValid
  cases path with
  | nil =>
    cases h
    obtain ⟨k', hc⟩ := balanced_near hBalanced
    exact iff_of_true (valid_paint_black hc) (.inr (.inr trivial))
  | cons f path =>
    cases hd : d.color with
    | red =>
      simp only [delFix, hd] at h
      cases h
      obtain ⟨hcRed, -, hc, -⟩ := (balanced_red hd).mp hBalanced
      refine iff_of_true (valid_plug.mpr ⟨k, hc, ?_⟩) (.inl rfl)
      rw [hcRed]
      exact hFits.of_red
    | black =>
      cases c with
      | nil =>
        simp only [delFix, hd] at h
        simpa using valid_repair (fits_one hValid hd) h
      | node v x y =>
        simp only [delFix, hd] at h
        cases h
        obtain ⟨m, rfl, hc, hNil⟩ := (balanced_black hd).mp hBalanced
        obtain rfl := balanced_nil.mp hNil
        refine iff_of_true (valid_plug.mpr ⟨1,
          balanced_paint_black hc (isRed_of_zero hc (by simp)), ?_⟩) (.inr (.inl (by simp)))
        rw [isRed_paint_black]
        exact hFits.of_red

theorem valid_deleteVal {val : Int} (hValid : Valid Node.color t)
    (h : deleteVal val t = some (some t')) : Valid Node.color t' ↔ DelKeeps val t := by
  have hPlug := plug_locate val [] t
  cases hLocate : locate val [] t with
  | mk path sub =>
    rw [hLocate] at hPlug
    cases sub with
    | nil =>
      simp only [deleteVal, cut, hLocate] at h
      cases h
      simpa only [DelKeeps, cut, hLocate, iff_true] using hValid
    | node d l r =>
      have hPlug' : plug path (.node d l r) = t := hPlug
      rw [← hPlug'] at hValid
      obtain ⟨side, hValid'⟩ := valid_cutAt hValid
      simp only [deleteVal, DelKeeps, cut, hLocate] at h ⊢
      exact valid_delFix hValid' h

/-- **Colours of a deletion**: where `DelNode` returns from a valid tree, the colours are right again
exactly under the condition `DelKeeps`. -/
theorem delNode_keeps_iff {val : Int} {s' : RbTree} (h : Rep s t) (hSorted : Sorted t)
    (hValid : Valid Node.color t)
    (hReturns : Loop.Returns (fun fuel => s.delNode fuel val) (some s')) :
    (∃ t', Rep s' t' ∧ Valid Node.color t') ↔ DelKeeps val t := by
  have hOutcome := h.delNode hSorted hValid val
  match hRes : deleteVal val t, hOutcome with
  | none, hOutcome => exact absurd hReturns (hOutcome _)
  | some none, hOutcome => cases Loop.Steady.unique (steady_delNode s val) hReturns hOutcome
  | some (some t'), ⟨s₁, hRep, hReturns₁⟩ =>
    obtain rfl := Option.some.inj
      (Loop.Steady.unique (steady_delNode s val) hReturns hReturns₁)
    rw [← valid_deleteVal hValid hRes]
    constructor
    · rintro ⟨t₁, hRep₁, hValid₁⟩
      rwa [hRep.unique hRep₁]
    · exact fun hValid' => ⟨t', hRep, hValid'⟩

theorem delNode_keeps_iff_fourNodes : ∃ (s' : RbTree) (a b c d : Addr),
    (∃ t', Rep s' t' ∧ Valid Node.color t') ↔ DelKeeps 5 (fourNodes a b c d) := by
  obtain ⟨s, a, b, c, d, hRep⟩ := exists_fourNodes
  have hSorted := sorted_fourNodes a b c d
  have hValid := valid_fourNodes a b c d
  have hOutcome := hRep.delNode hSorted hValid 5
  have hDelete : deleteVal 5 (fourNodes a b c d) = some (some (.node ⟨a, 10, .black⟩
      (.node ⟨d, 7, .black⟩ .nil .nil) (.node ⟨c, 15, .black⟩ .nil .nil))) := rfl
  rw [hDelete] at hOutcome
  obtain ⟨s', -, hReturns⟩ := hOutcome
  exact ⟨s', a, b, c, d, delNode_keeps_iff hRep hSorted hValid hReturns⟩

/-- A valid tree that five calls of `AddNode` build. -/
def fiveNodes (a b c d e : Addr) : BinaryTree Node :=
  .node ⟨a, 10, .black⟩
    (.node ⟨b, 5, .black⟩ (.node ⟨d, 3, .red⟩ .nil .nil) (.node ⟨e, 7, .red⟩ .nil .nil))
    (.node ⟨c, 15, .black⟩ .nil .nil)

/-- Where the right child goes from this tree, the far nephew is painted black, which leaves the left
side with a black node more than the right one. -/
theorem not_keeps : ¬∀ s t val s', Rep s t → Sorted t → Valid Node.color t →
    Loop.Returns (fun fuel => s.delNode fuel val) (some s') →
      ∃ t', Rep s' t' ∧ Valid Node.color t' := by
  intro h
  obtain ⟨s, as, hLength, -, hRep⟩ := exists_calls nextFree [10, 5, 15, 3, 7]
  obtain ⟨a, b, c, d, e, hTree⟩ : ∃ a b c d e, Rep s (fiveNodes a b c d e) := by
    match as, hLength with
    | [a, b, c, d, e], _ => exact ⟨a, b, c, d, e, hRep⟩
  have hSorted : Sorted (fiveNodes a b c d e) := by simp [Sorted, vals, fiveNodes]
  have hValid : Valid Node.color (fiveNodes a b c d e) :=
    valid_iff.mpr ⟨rfl, 2, .black rfl (.black rfl (.red rfl rfl rfl .nil .nil)
      (.red rfl rfl rfl .nil .nil)) (.black rfl .nil .nil)⟩
  have hOutcome := hTree.delNode hSorted hValid 15
  have hDelete : deleteVal 15 (fiveNodes a b c d e) = some (some (.node ⟨e, 7, .black⟩
      (.node ⟨b, 5, .black⟩ (.node ⟨d, 3, .black⟩ .nil .nil) .nil)
      (.node ⟨a, 10, .black⟩ .nil .nil))) := rfl
  rw [hDelete] at hOutcome
  obtain ⟨s', hRep', hReturns⟩ := hOutcome
  obtain ⟨t', hRep₁, hValid'⟩ := h s _ 15 s' hTree hSorted hValid hReturns
  obtain rfl := hRep'.unique hRep₁
  have hNot := hValid'.paths
  simp [paths, blacks] at hNot

end DemoCode.RBTree
