import DemoCode.LockFreeQueue.FreeListRuns
import Mathlib.Data.Prod.Lex
import Mathlib.Data.Set.Card

/-! The calls on a `FreeList` keep returning, however their steps alternate.  A caller that finds the
head changed or a count changed has another caller to blame, and of those steps there are only so
many until a node is linked or unlinked, and of these only so many until a call returns. -/

namespace DemoCode.LockFreeQueue.FreeList

open Tally

variable {ι ν : Type*} [DecidableEq ν]

/-- Whether a caller can still call. -/
def Pc.rests : Pc ν → ℕ
  | .idle => 1
  | _ => 0

/-- Whether a caller may still unlink a node, or find the list empty. -/
def Pc.tries : Pc ν → ℕ
  | .linkLoad _ (.tryGet _) => 1
  | .storeNext _ _ (.tryGet _) => 1
  | .storeRefs _ _ (.tryGet _) => 1
  | .swapIn _ _ (.tryGet _) => 1
  | .addBack _ _ (.tryGet _) => 1
  | .getLoad => 1
  | .loadRefs _ => 1
  | .incRefs _ _ => 1
  | .loadNext _ => 1
  | .swapOut _ _ => 1
  | .unref _ _ => 1
  | _ => 0

/-- Whether a node is the caller's to link, without `SHOULD_BE_ON_FREELIST`. -/
def Pc.adds (n : ν) : Pc ν → ℕ
  | .addRefs node => if node = n then 1 else 0
  | .swapIn node _ _ => if node = n then 1 else 0
  | .addBack node _ _ => if node = n then 1 else 0
  | _ => 0

/-- A bound on the counts that a caller still writes while the head of the list stays what it is;
who has loaded another head finds it out at its next swap. -/
def Pc.budget (head : Option ν) : Pc ν → ℕ
  | .addRefs _ => 2
  | .linkLoad _ _ => 1
  | .storeNext _ seen _ => if seen = head then 1 else 5
  | .storeRefs _ seen _ => if seen = head then 1 else 5
  | .swapIn _ seen _ => if seen = head then 0 else 4
  | .addBack _ seen _ => if seen = head then 4 else 6
  | .getLoad => 1
  | .loadRefs seen => if some seen = head then 1 else 3
  | .incRefs seen _ => if some seen = head then 1 else 3
  | .loadNext seen => if some seen = head then 0 else 2
  | .swapOut seen _ => if some seen = head then 0 else 2
  | .checkRefs _ => 1
  | .subRefs _ => 1
  | .unref _ seen => if seen = head then 2 else 4
  | _ => 0

/-- A bound on the steps of a caller to its next write, while all counts stay what they are. -/
def Pc.distance (head : Option ν) (refs : ν → UInt32) : Pc ν → ℕ
  | .linkLoad _ _ => 2
  | .storeNext _ _ _ => 1
  | .swapIn _ _ _ => 1
  | .getLoad => 2
  | .loadRefs seen => if some seen = head then 1 else 3
  | .incRefs node seen => if refs node = seen then 0 else 3
  | .loadNext _ => 2
  | .swapOut _ _ => 1
  | .checkRefs _ => 1
  | _ => 0

variable [Fintype ι]

/-- The nodes that are still to be linked. -/
def unlinked (s : FreeList ι ν) : Set ν :=
  {n | 2 ^ 31 ≤ (s.freeListRefs n).toNat ∨ 0 < total (Pc.adds n) s.pc}

/-- What is left to do until a call returns: callers that can call, nodes to be linked or unlinked,
counts to be written, and steps to the next write. -/
noncomputable def rank (s : FreeList ι ν) : ℕ ×ₗ ℕ ×ₗ ℕ ×ₗ ℕ :=
  toLex (total Pc.rests s.pc, toLex ((unlinked s).ncard + total Pc.tries s.pc,
    toLex (total (Pc.budget s.freeListHead) s.pc,
      total (Pc.distance s.freeListHead s.freeListRefs) s.pc)))

variable [DecidableEq ι]
variable {s s' : FreeList ι ν} {l : List ν} {i : ι} {c : ν} {p : Pc ν} {k : Caller ν}

/-- A step of a caller to another place in its call that makes no node one to be linked. -/
structure Goes (s s' : FreeList ι ν) (i : ι) (p : Pc ν) : Prop where
  pc : s'.pc = Function.update s.pc i p
  rests : p.rests = 0
  tries : p.tries ≤ (s.pc i).tries
  unlinked : unlinked s' ⊆ unlinked s
  finite : (FreeList.unlinked s).Finite

theorem Goes.total_le (h : Goes s s' i p) {f : Pc ν → ℕ} (hf : f p ≤ f (s.pc i)) :
    total f s'.pc ≤ total f s.pc := by
  have hMove := total_update f s.pc i p
  rw [h.pc]
  omega

theorem Goes.total_lt (h : Goes s s' i p) {f : Pc ν → ℕ} (hf : f p < f (s.pc i)) :
    total f s'.pc < total f s.pc := by
  have hMove := total_update f s.pc i p
  rw [h.pc]
  omega

theorem Goes.rests_le (h : Goes s s' i p) : total Pc.rests s'.pc ≤ total Pc.rests s.pc :=
  h.total_le (by rw [h.rests]; exact Nat.zero_le _)

theorem Goes.calls_le (h : Goes s s' i p) :
    (FreeList.unlinked s').ncard + total Pc.tries s'.pc ≤
      (FreeList.unlinked s).ncard + total Pc.tries s.pc :=
  Nat.add_le_add (Set.ncard_le_ncard h.unlinked h.finite) (h.total_le h.tries)

/-- A node is linked, or a caller has its node. -/
theorem Goes.rank_lt_of_calls (h : Goes s s' i p)
    (hCalls : p.tries < (s.pc i).tries ∨ ∃ n ∈ FreeList.unlinked s, n ∉ FreeList.unlinked s') :
    rank s' < rank s := by
  have hLess : (FreeList.unlinked s').ncard + total Pc.tries s'.pc <
      (FreeList.unlinked s).ncard + total Pc.tries s.pc := by
    rcases hCalls with hTries | ⟨n, hIn, hOut⟩
    · exact Nat.add_lt_add_of_le_of_lt (Set.ncard_le_ncard h.unlinked h.finite) (h.total_lt hTries)
    · refine Nat.add_lt_add_of_lt_of_le (Set.ncard_lt_ncard ?_ h.finite) (h.total_le h.tries)
      exact (Set.ssubset_iff_of_subset h.unlinked).mpr ⟨n, hIn, hOut⟩
  refine Prod.Lex.toLex_lt_toLex'.mpr ⟨h.rests_le, fun _ => ?_⟩
  exact Prod.Lex.toLex_lt_toLex.mpr (.inl hLess)

/-- A count is written. -/
theorem Goes.rank_lt_of_budget (h : Goes s s' i p) (hHead : s'.freeListHead = s.freeListHead)
    (hBudget : p.budget s.freeListHead < (s.pc i).budget s.freeListHead) : rank s' < rank s := by
  refine Prod.Lex.toLex_lt_toLex'.mpr ⟨h.rests_le, fun _ => ?_⟩
  refine Prod.Lex.toLex_lt_toLex'.mpr ⟨h.calls_le, fun _ => ?_⟩
  refine Prod.Lex.toLex_lt_toLex.mpr (.inl ?_)
  rw [hHead]
  exact h.total_lt hBudget

/-- Nothing is written but a link. -/
theorem Goes.rank_lt_of_distance (h : Goes s s' i p) (hHead : s'.freeListHead = s.freeListHead)
    (hRefs : s'.freeListRefs = s.freeListRefs)
    (hBudget : p.budget s.freeListHead ≤ (s.pc i).budget s.freeListHead)
    (hDistance : p.distance s.freeListHead s.freeListRefs <
      (s.pc i).distance s.freeListHead s.freeListRefs) : rank s' < rank s := by
  refine Prod.Lex.toLex_lt_toLex'.mpr ⟨h.rests_le, fun _ => ?_⟩
  refine Prod.Lex.toLex_lt_toLex'.mpr ⟨h.calls_le, fun _ => ?_⟩
  rw [hHead, hRefs]
  exact Prod.Lex.toLex_lt_toLex'.mpr ⟨h.total_le hBudget, fun _ => h.total_lt hDistance⟩

/-! ### The nodes that are still to be linked -/

theorem unlinked_of_goto (hPc : s'.pc = Function.update s.pc i p)
    (hRefs : s'.freeListRefs = s.freeListRefs) (hAdds : ∀ n, p.adds n ≤ (s.pc i).adds n) :
    unlinked s' ⊆ unlinked s := by
  intro n hn
  have hMove := total_update (Pc.adds n) s.pc i p
  have hLe := hAdds n
  simp only [unlinked, Set.mem_ofPred_eq, hRefs, hPc] at hn ⊢
  omega

theorem Pc.adds_le_owns (n : ν) (p : Pc ν) : p.adds n ≤ p.owns n := by
  cases p <;> simp [adds, owns]

/-- A step that writes the count of the node `c`. -/
theorem unlinked_of_setRefs {refs : UInt32} (hNew : ∀ n, p.node = some n → n = c)
    (hHere : 2 ^ 31 ≤ refs.toNat ∨ 0 < total (Pc.adds c) (Function.update s.pc i p) →
      c ∈ unlinked s) :
    unlinked ((s.setRefs c refs).goto i p) ⊆ unlinked s := by
  intro n hn
  by_cases hnc : n = c
  · subst hnc
    exact hHere (by simpa [unlinked] using hn)
  · have hMove := total_update (Pc.adds n) s.pc i p
    have hZero : p.owns n = 0 := (Pc.elsewhere fun hAt => hnc (hNew n hAt)).1
    have hLe := Pc.adds_le_owns n p
    simp only [unlinked, Set.mem_ofPred_eq, goto_freeListRefs, setRefs_freeListRefs,
      Function.update_of_ne hnc, goto_pc, setRefs_pc] at hn ⊢
    omega

omit [DecidableEq ι] in
theorem mem_unlinked_of_adds (hi : 0 < (s.pc i).adds c) : c ∈ unlinked s :=
  .inr (hi.trans_le (le_total (Pc.adds c) s.pc i))

/-- A node that is linked is not to be linked any more. -/
theorem InvAt.not_mem_unlinked (h : InvAt s l) (hCard : Fintype.card ι + 3 < 2 ^ 31)
    {head : Option ν} (hi : s.pc i = .swapIn c head k) {p : Pc ν} (hp : p.Free) :
    c ∉ unlinked ({ s with freeListHead := some c }.goto i p) := by
  have hHere := h.balanced c
  have hRefs := hHere.refs
  obtain ⟨hBase, hOwns, hOut, hCount⟩ := hHere.total_base (i := i) (by simp [hi, Pc.owns])
  have hLe := total_held_le s c
  have hMove := total_update (Pc.adds c) s.pc i p
  have hAdds : p.adds c = 0 := by
    have hLess := Pc.adds_le_owns c p
    have hNone := (hp.elsewhere c).1
    omega
  have hAll : total (Pc.adds c) s.pc ≤ 1 * total (Pc.owns c) s.pc :=
    total_le_mul (fun q => by simpa using Pc.adds_le_owns c q) s.pc
  simp only [unlinked, Set.mem_ofPred_eq, goto_freeListRefs, goto_pc, not_or]
  simp only [hi, Pc.adds, Pc.base, owners, if_true] at *
  omega

/-- The count of the caller's own node. -/
theorem InvAt.mem_unlinked (h : InvAt s l) (hi : (s.pc i).owns c = 1)
    (hBase : (s.pc i).base c = 2 ^ 31) : c ∈ unlinked s := by
  have hRefs := (h.balanced c).refs
  obtain ⟨hTotal, -⟩ := (h.balanced c).total_base hi
  refine Or.inl ?_
  omega

theorem InvAt.unlinked_incRefs (h : InvAt s l) (hCard : Fintype.card ι + 3 < 2 ^ 31) {refs : UInt32}
    (hi : s.pc i = .incRefs c refs) (hSame : s.freeListRefs c = refs) :
    unlinked ((s.setRefs c (refs + 1)).goto i (.loadNext c)) ⊆ unlinked s := by
  refine unlinked_of_setRefs (by simp [Pc.node, eq_comm]) fun hIn => ?_
  have hMove := total_update (Pc.adds c) s.pc i (.loadNext c)
  have hOwner := (h.balanced c).owner
  have hRefs := (h.balanced c).refs
  have hCases := (h.balanced c).base_cases
  have hBase := total_base_le s c
  have hLe := total_held_le s c
  have hNew : (refs + 1).toNat ≤ refs.toNat + 1 := by
    rw [UInt32.toNat_add]
    exact Nat.mod_le _ _
  simp only [hi, Pc.adds, owners, hSame, unlinked, Set.mem_ofPred_eq] at *
  omega

theorem InvAt.unlinked_unref (h : InvAt s l) {head : Option ν} (hi : s.pc i = .unref c head)
    (hNew : ∀ n, p.node = some n → n = c) (hAdds : p.adds c = 0) :
    unlinked ((s.setRefs c (s.freeListRefs c - 1)).goto i p) ⊆ unlinked s := by
  refine unlinked_of_setRefs hNew fun hIn => ?_
  have hMove := total_update (Pc.adds c) s.pc i p
  have hRefs := (h.balanced c).refs
  have hHeld := le_total (Pc.held c) s.pc i
  simp only [hi, Pc.held, if_true] at hHeld
  have hLess := toNat_sub_one (r := s.freeListRefs c) (by omega)
  simp only [unlinked, Set.mem_ofPred_eq]
  omega

omit [DecidableEq ι] in
/-- The first node of the list has a reference. -/
theorem InvAt.counted (h : InvAt s (c :: l)) (hCard : Fintype.card ι + 3 < 2 ^ 31) :
    s.freeListRefs c &&& refsMask ≠ 0 := by
  intro hZero
  have hMod := and_refsMask.mp hZero
  have hOwner := (h.balanced c).owner
  have hRefs := (h.balanced c).refs
  have hBase := total_base_le s c
  have hLe := total_held_le s c
  simp only [owners, List.count_cons_self] at hOwner hRefs
  omega

/-- **Every step that is not the last one of its call lowers the rank.** -/
theorem InvAt.rank_lt (h : InvAt s l) (hFinite : (unlinked s).Finite)
    (hCard : Fintype.card ι + 3 < 2 ^ 31) (hStep : s.resume i = some (s', none)) :
    rank s' < rank s := by
  cases hi : s.pc i with
  | idle => simp [resume, hi] at hStep
  | aborted => simp [resume, hi] at hStep
  | addRefs node =>
    simp only [resume, hi] at hStep
    split at hStep
    · cases hStep
      have hIn : node ∈ unlinked s := mem_unlinked_of_adds (i := i) (by simp [hi, Pc.adds])
      refine Goes.rank_lt_of_budget ⟨rfl, rfl, by simp [hi, Pc.tries],
        unlinked_of_setRefs (by simp [Pc.node, eq_comm]) fun _ => hIn, hFinite⟩ rfl ?_
      simp [hi, Pc.budget]
    · simp at hStep
  | linkLoad node k =>
    simp only [resume, hi] at hStep
    cases hStep
    refine Goes.rank_lt_of_distance ⟨rfl, rfl, ?_, unlinked_of_goto rfl rfl (by simp [hi, Pc.adds]),
      hFinite⟩ rfl rfl (by simp [hi, Pc.budget]) (by simp [hi, Pc.distance])
    cases k <;> simp [hi, Pc.tries]
  | storeNext node head k =>
    simp only [resume, hi] at hStep
    cases hStep
    refine Goes.rank_lt_of_distance ⟨rfl, rfl, ?_, unlinked_of_goto rfl rfl (by simp [hi, Pc.adds]),
      hFinite⟩ rfl rfl (by simp [hi, Pc.budget]) (by simp [hi, Pc.distance])
    cases k <;> simp [hi, Pc.tries]
  | storeRefs node head k =>
    simp only [resume, hi] at hStep
    cases hStep
    have hIn : node ∈ unlinked s :=
      h.mem_unlinked (i := i) (by simp [hi, Pc.owns]) (by simp [hi, Pc.base])
    refine Goes.rank_lt_of_budget ⟨rfl, rfl, ?_,
      unlinked_of_setRefs (by simp [Pc.node, eq_comm]) fun _ => hIn, hFinite⟩ rfl ?_
    · cases k <;> simp [hi, Pc.tries]
    · simp only [hi, Pc.budget]
      split <;> decide
  | swapIn node head k =>
    simp only [resume, hi] at hStep
    split at hStep
    · rcases k with _ | _ | seen
      · simp [leave] at hStep
      · simp [leave, loop] at hStep
      · simp only [leave, loop] at hStep
        cases hStep
        have hIn : node ∈ unlinked s := mem_unlinked_of_adds (i := i) (by simp [hi, Pc.adds])
        refine Goes.rank_lt_of_calls (i := i) (p := .loadRefs seen) ⟨rfl, rfl, by simp [hi, Pc.tries],
          unlinked_of_goto (i := i) (p := .loadRefs seen) rfl rfl (by simp [Pc.adds]), hFinite⟩
          (.inr ⟨node, hIn, ?_⟩)
        exact h.not_mem_unlinked hCard hi ⟨rfl, rfl, trivial⟩
    · next hOther =>
      cases hStep
      refine Goes.rank_lt_of_distance ⟨rfl, rfl, ?_,
        unlinked_of_goto rfl rfl (by simp [hi, Pc.adds]), hFinite⟩ rfl rfl ?_ ?_
      · cases k <;> simp [hi, Pc.tries]
      · simp [hi, Pc.budget, Ne.symm hOther]
      · simp [hi, Pc.distance]
  | addBack node head k =>
    simp only [resume, hi] at hStep
    have hIn : node ∈ unlinked s := mem_unlinked_of_adds (i := i) (by simp [hi, Pc.adds])
    split at hStep
    · cases hStep
      refine Goes.rank_lt_of_budget ⟨rfl, rfl, ?_,
        unlinked_of_setRefs (by simp [Pc.node, eq_comm]) fun _ => hIn, hFinite⟩ rfl ?_
      · cases k <;> simp [hi, Pc.tries]
      · simp only [hi, Pc.budget]
        split <;> decide
    · rcases k with _ | _ | seen
      · simp [leave] at hStep
      · simp [leave, loop] at hStep
      · simp only [leave, loop] at hStep
        cases hStep
        refine Goes.rank_lt_of_budget ⟨rfl, rfl, by simp [hi, Pc.tries],
          unlinked_of_setRefs (by simp [Pc.node]) fun _ => hIn, hFinite⟩ rfl ?_
        simp only [hi, Pc.budget]
        split <;> split <;> decide
  | getLoad =>
    simp only [resume, hi] at hStep
    cases hHead : s.freeListHead with
    | none => simp [hHead, loop] at hStep
    | some head =>
      simp only [hHead, loop] at hStep
      cases hStep
      refine Goes.rank_lt_of_distance ⟨rfl, rfl, by simp [hi, Pc.tries],
        unlinked_of_goto rfl rfl (by simp [hi, Pc.adds]), hFinite⟩ rfl rfl ?_ ?_
      · simp [hi, Pc.budget, hHead]
      · simp [hi, Pc.distance, hHead]
  | loadRefs head =>
    simp only [resume, hi] at hStep
    split at hStep
    · next hZero =>
      cases hStep
      -- the head of the list has a reference
      have hOther : some head ≠ s.freeListHead := by
        intro hSame
        obtain ⟨rest, rfl⟩ := List.head?_eq_some_iff.mp (h.headEq.symm.trans hSame.symm)
        exact h.counted hCard hZero
      refine Goes.rank_lt_of_budget ⟨rfl, rfl, by simp [hi, Pc.tries],
        unlinked_of_goto rfl rfl (by simp [hi, Pc.adds]), hFinite⟩ rfl ?_
      simp [hi, Pc.budget, hOther]
    · cases hStep
      refine Goes.rank_lt_of_distance ⟨rfl, rfl, by simp [hi, Pc.tries],
        unlinked_of_goto rfl rfl (by simp [hi, Pc.adds]), hFinite⟩ rfl rfl ?_ ?_
      · simp [hi, Pc.budget]
      · simp only [hi, Pc.distance, if_true]
        split <;> decide
  | incRefs head refs =>
    simp only [resume, hi] at hStep
    split at hStep
    · next hSame =>
      cases hStep
      refine Goes.rank_lt_of_budget ⟨rfl, rfl, by simp [hi, Pc.tries],
        h.unlinked_incRefs hCard hi hSame, hFinite⟩ rfl ?_
      simp only [hi, Pc.budget]
      split <;> decide
    · next hOther =>
      cases hStep
      refine Goes.rank_lt_of_distance ⟨rfl, rfl, by simp [hi, Pc.tries],
        unlinked_of_goto rfl rfl (by simp [hi, Pc.adds]), hFinite⟩ rfl rfl ?_ ?_
      · simp only [hi, Pc.budget]
        split <;> decide
      · simp [hi, Pc.distance, hOther]
  | loadNext head =>
    simp only [resume, hi] at hStep
    cases hStep
    exact Goes.rank_lt_of_distance ⟨rfl, rfl, by simp [hi, Pc.tries],
      unlinked_of_goto rfl rfl (by simp [hi, Pc.adds]), hFinite⟩ rfl rfl (by simp [hi, Pc.budget])
      (by simp [hi, Pc.distance])
  | swapOut head next =>
    simp only [resume, hi] at hStep
    split at hStep
    · cases hStep
      exact Goes.rank_lt_of_calls (p := .checkRefs head) (i := i) ⟨rfl, rfl, by simp [hi, Pc.tries],
        unlinked_of_goto (i := i) (p := .checkRefs head) rfl rfl (by simp [hi, Pc.adds]), hFinite⟩
        (.inl (by simp [hi, Pc.tries]))
    · next hOther =>
      cases hStep
      refine Goes.rank_lt_of_distance ⟨rfl, rfl, by simp [hi, Pc.tries],
        unlinked_of_goto rfl rfl (by simp [hi, Pc.adds]), hFinite⟩ rfl rfl ?_ ?_
      · simp [hi, Pc.budget, Ne.symm hOther]
      · simp [hi, Pc.distance]
  | checkRefs head =>
    simp only [resume, hi] at hStep
    split at hStep
    · cases hStep
      exact Goes.rank_lt_of_distance ⟨rfl, rfl, by simp [hi, Pc.tries],
        unlinked_of_goto rfl rfl (by simp [hi, Pc.adds]), hFinite⟩ rfl rfl (by simp [hi, Pc.budget])
        (by simp [hi, Pc.distance])
    · cases hStep
      exact Goes.rank_lt_of_distance ⟨rfl, rfl, by simp [hi, Pc.tries],
        unlinked_of_goto rfl rfl (by simp [hi, Pc.adds]), hFinite⟩ rfl rfl (by simp [hi, Pc.budget])
        (by simp [hi, Pc.distance])
  | subRefs head => simp [resume, hi] at hStep
  | unref prevHead head =>
    simp only [resume, hi] at hStep
    split at hStep
    · cases hStep
      refine Goes.rank_lt_of_budget ⟨rfl, rfl, by simp [hi, Pc.tries],
        h.unlinked_unref hi (by simp [Pc.node, eq_comm]) (by simp [Pc.adds]), hFinite⟩ rfl ?_
      simp only [hi, Pc.budget]
      split <;> decide
    · cases head with
      | none => simp [loop] at hStep
      | some seen =>
        simp only [loop] at hStep
        cases hStep
        refine Goes.rank_lt_of_budget ⟨rfl, rfl, by simp [hi, Pc.tries],
          h.unlinked_unref hi (by simp [Pc.node]) (by simp [Pc.adds]), hFinite⟩ rfl ?_
        simp only [hi, Pc.budget]
        split <;> decide

/-! ### Endless runs -/

omit [DecidableEq ι] in
/-- A node that a client has is not to be linked. -/
theorem Inv.unlinked_subset (h : s.Inv) (hCard : Fintype.card ι + 3 < 2 ^ 31) :
    unlinked s ⊆ {n | s.out n = false} := by
  obtain ⟨l, h⟩ := h
  intro n hn
  by_contra hOut
  have hTrue : s.out n = true := Bool.eq_true_of_not_eq_false hOut
  have hOwner := (h.balanced n).owner
  have hRefs := (h.balanced n).refs
  have hBase := total_base_le s n
  have hLe := total_held_le s n
  have hAdds : total (Pc.adds n) s.pc ≤ 1 * total (Pc.owns n) s.pc :=
    total_le_mul (fun q => by simpa using Pc.adds_le_owns n q) s.pc
  simp only [unlinked, Set.mem_ofPred_eq, owners, hTrue, Bool.toNat_true] at *
  omega

/-- A call, or a step that is not the last one of its call. -/
theorem Inv.rank_lt (h : s.Inv) (hFinite : {n | s.out n = false}.Finite)
    (hCard : Fintype.card ι + 3 < 2 ^ 31) {ev : Event ι ν} (hStep : s.step ev = some (s', none)) :
    rank s' < rank s := by
  have hCalls : ∀ {i : ι} {p : Pc ν}, s.pc i = .idle → s'.pc = Function.update s.pc i p →
      p.rests = 0 → rank s' < rank s := by
    intro i p hi hPc hRests
    refine Prod.Lex.toLex_lt_toLex.mpr (.inl ?_)
    have hMove := total_update Pc.rests s.pc i p
    rw [hi, Pc.rests] at hMove
    simp only [hPc]
    omega
  cases ev with
  | add i node =>
    obtain ⟨⟨hi, -⟩, hEq⟩ := Option.ite_none_right_eq_some.mp hStep
    cases hEq
    exact hCalls hi rfl rfl
  | tryGet i =>
    obtain ⟨hi, hEq⟩ := Option.ite_none_right_eq_some.mp hStep
    cases hEq
    exact hCalls hi rfl rfl
  | step i =>
    have hUnlinked := hFinite.subset (h.unlinked_subset hCard)
    obtain ⟨l, h⟩ := h
    exact h.rank_lt hUnlinked hCard hStep

theorem out_finite (h : s.Inv) (hCard : Fintype.card ι + 3 < 2 ^ 31) {ev : Event ι ν}
    {ret : Option (Ret ν)} (hStep : s.step ev = some (s', ret))
    (hFinite : {n | s.out n = false}.Finite) : {n | s'.out n = false}.Finite := by
  obtain ⟨-, hOut⟩ := h.step (by omega) hStep
  have hAdded : {n | adds n ev ≠ 0}.Finite := by
    cases ev with
    | add i node => exact (Set.finite_singleton node).subset fun n hn => by simp_all [adds]
    | tryGet i => simp [adds]
    | step i => simp [adds]
  refine (hFinite.union hAdded).subset fun n hn => ?_
  by_contra hNot
  simp only [Set.mem_union, Set.mem_ofPred_eq, not_or, not_not] at hNot hn
  have hNow := hOut n
  simp only [hNot.2, hn, Bool.eq_true_of_not_eq_false hNot.1, Bool.toNat_false, Bool.toNat_true]
    at hNow
  omega

/-- In every endless run, however the steps of the callers alternate, there is always another call
that returns: a caller that is stopped anywhere stops no other one. -/
theorem calls_return (hCard : Fintype.card ι + 3 < 2 ^ 31) {f : ℕ → FreeList ι ν}
    {ev : ℕ → Event ι ν} {ret : ℕ → Option (Ret ν)} (hStart : f 0 = fresh)
    (hStep : ∀ k, (f k).step (ev k) = some (f (k + 1), ret k)) (m : ℕ) :
    ∃ k, m ≤ k ∧ ret k ≠ none := by
  have hInv : ∀ k, (f k).Inv ∧ {n | (f k).out n = false}.Finite := by
    intro k
    induction k with
    | zero =>
      rw [hStart]
      exact ⟨inv_fresh, by simp [fresh]⟩
    | succ k ih =>
      exact ⟨(ih.1.step (by omega) (hStep k)).1, out_finite ih.1 hCard (hStep k) ih.2⟩
  have hAll : ∀ r m, rank (f m) = r → ∃ k, m ≤ k ∧ ret k ≠ none := by
    intro r
    induction r using WellFoundedLT.induction with
    | ind r ih =>
      intro m hm
      cases hRet : ret m with
      | some res => exact ⟨m, le_rfl, by rw [hRet]; exact Option.some_ne_none res⟩
      | none =>
        have hLess : rank (f (m + 1)) < r :=
          hm ▸ (hInv m).1.rank_lt (hInv m).2 hCard (hRet ▸ hStep m)
        obtain ⟨k, hk, hSome⟩ := ih _ hLess (m + 1) rfl
        exact ⟨k, by omega, hSome⟩
  exact hAll _ m rfl

instance [Fintype ν] : DecidableEq (FreeList ι ν) := fun s t =>
  decidable_of_iff (s.freeListHead = t.freeListHead ∧ s.freeListRefs = t.freeListRefs ∧
    s.freeListNext = t.freeListNext ∧ s.out = t.out ∧ s.pc = t.pc) (by cases s; cases t; simp)

/-- A caller adds a node, and it and another one want it.  Both have read a count of 1; the second one finds
it changed when it swaps its own in, and in the end the list empty. -/
def twoWant (i j : ι) (n : ν) : List (Event ι ν) :=
  .add i n :: (List.replicate 5 (.step i) ++ [.tryGet i, .tryGet j, .step i, .step j, .step i, .step j,
    .step i, .step j] ++ List.replicate 4 (.step i) ++ [.step j])

/-- They do so again and again; after thirteen steps the second one's swap fails. -/
theorem calls_return_twoWant : ∃ (f : ℕ → FreeList (Fin 2) (Fin 1)) (ret : ℕ → Option (Ret (Fin 1))),
    f 0 = fresh ∧ (∀ k, (f k).step ((twoWant 0 1 0).getD (k % 19) (.step 0)) = some (f (k + 1), ret k)) ∧
      ((f 13).pc 1 = .incRefs 0 1 ∧ (f 13).freeListRefs 0 = 2) ∧ ∀ m, ∃ k, m ≤ k ∧ ret k ≠ none := by
  let ev : ℕ → Event (Fin 2) (Fin 1) := fun k => (twoWant 0 1 0).getD (k % 19) (.step 0)
  let f : ℕ → FreeList (Fin 2) (Fin 1) := fun k =>
    ((Machine.run FreeList.step fresh ((twoWant 0 1 0).take (k % 19))).map Prod.fst).getD fresh
  let ret : ℕ → Option (Ret (Fin 1)) := fun k => ((f k).step (ev k)).bind Prod.snd
  have hRound : ((f 13).pc 1 = .incRefs 0 1 ∧ (f 13).freeListRefs 0 = 2) ∧
      ∀ r < 19, (f r).step (ev r) = some (f (r + 1), ret r) := by decide +kernel
  have hStep : ∀ k, (f k).step (ev k) = some (f (k + 1), ret k) := by
    intro k
    have hNext : (k + 1) % 19 = (k % 19 + 1) % 19 := by omega
    have hHere := hRound.2 (k % 19) (Nat.mod_lt k (by decide))
    simp only [f, ev, ret, Nat.mod_mod] at hHere ⊢
    rw [hNext]
    exact hHere
  exact ⟨f, ret, rfl, hStep, hRound.1, fun m => calls_return (by decide) rfl hStep m⟩

end DemoCode.LockFreeQueue.FreeList
