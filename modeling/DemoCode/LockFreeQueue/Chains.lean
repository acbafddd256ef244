import DemoCode.LockFreeQueue.Queue

/-! The chains of nodes in the memory of a `RoughLockFreeQueue`: the list from `m_head`, cut where
`m_tail` points, and for each caller that has not linked its new node yet, the chain that starts with
this node. -/

namespace DemoCode.LockFreeQueue

open Links

variable {ι : Type*}

/-- The chains: `seg none` is the list from `m_tail` on, `seg (some i)` starts with the new node of
the caller `i`, and `before` has the nodes from `m_head` to `m_tail`. -/
structure Chains (next : Addr → Option Addr) (head : Option Addr) (tail : Addr)
    (before : List Addr) (seg : Option ι → List Addr) : Prop where
  headEq : head = (before ++ seg none).head?
  tailEq : (seg none).head? = some tail
  list : Linked next (before ++ seg none)
  priv : ∀ i, Linked next (seg (some i))
  nodupBefore : before.Nodup
  nodup : ∀ c, (seg c).Nodup
  apart : ∀ c, ∀ a ∈ before, a ∉ seg c
  disjoint : ∀ {c d a}, a ∈ seg c → a ∈ seg d → c = d

/-- The address is in one of the chains. -/
def Listed (before : List Addr) (seg : Option ι → List Addr) (a : Addr) : Prop :=
  a ∈ before ∨ ∃ c, a ∈ seg c

namespace Chains

variable {next : Addr → Option Addr} {head : Option Addr} {tail : Addr} {before : List Addr}
  {seg : Option ι → List Addr}

theorem linked (h : Chains next head tail before seg) (c : Option ι) : Linked next (seg c) := by
  cases c with
  | none => exact linked_of_append h.list
  | some i => exact h.priv i

theorem seg_none (h : Chains next head tail before seg) : ∃ rest, seg none = tail :: rest :=
  List.head?_eq_some_iff.mp h.tailEq

/-- The node that `m_tail` names can be reached from `m_head`. -/
theorem reaches_tail (h : Chains next head tail before seg) :
    ∃ first, head = some first ∧ Reaches next first tail := by
  obtain ⟨rest, hRest⟩ := h.seg_none
  have hTail : tail ∈ before ++ seg none := by simp [hRest]
  have hList := h.list
  rw [h.headEq]
  cases hAll : before ++ seg none with
  | nil => simp [hAll] at hTail
  | cons first others =>
    rw [hAll] at hList hTail
    exact ⟨first, rfl, reaches_of_mem hList hTail⟩

variable [DecidableEq ι]

/-- A new node of the caller. -/
theorem alloc (h : Chains next head tail before seg) {i : ι} {a : Addr} (hi : seg (some i) = [])
    (ha : ¬ Listed before seg a) : Chains (Function.update next a none) head tail before
      (Function.update seg (some i) [a]) := by
  rw [Listed, not_or, not_exists] at ha
  obtain ⟨haBefore, haSeg⟩ := ha
  have hSeg : ∀ c b, b ∈ Function.update seg (some i) [a] c →
      (c = some i ∧ b = a) ∨ b ∈ seg c := by
    intro c b hb
    by_cases hc : c = some i
    · subst hc
      left
      simpa using hb
    · right
      simpa [hc] using hb
  constructor
  · simpa using h.headEq
  · simpa using h.tailEq
  · have hNot : a ∉ before ++ seg none := by simp [haBefore, haSeg]
    simpa using linked_update h.list hNot
  · intro j
    by_cases hj : j = i
    · subst hj
      simp [Linked]
    · have hEq : Function.update seg (some i) [a] (some j) = seg (some j) := by simp [hj]
      rw [hEq]
      exact linked_update (h.priv j) (haSeg _)
  · exact h.nodupBefore
  · intro c
    by_cases hc : c = some i
    · subst hc
      simp
    · simpa [hc] using h.nodup c
  · intro c b hb hIn
    rcases hSeg c b hIn with ⟨-, rfl⟩ | hOld
    · exact haBefore hb
    · exact h.apart c b hb hOld
  · intro c d b hc hd
    rcases hSeg c b hc with ⟨rfl, rfl⟩ | hOldC <;> rcases hSeg d _ hd with ⟨rfl, hEq⟩ | hOldD
    · rfl
    · exact absurd hOldD (haSeg d)
    · exact absurd (hEq ▸ hOldC) (haSeg c)
    · exact h.disjoint hOldC hOldD

end Chains

/-- The chains after the chain of the caller is linked behind another one. -/
def linkSeg [DecidableEq ι] (seg : Option ι → List Addr) (c : Option ι) (i : ι) :
    Option ι → List Addr :=
  Function.update (Function.update seg c (seg c ++ seg (some i))) (some i) []

section linkSeg

variable [DecidableEq ι] {seg : Option ι → List Addr} {c : Option ι} {i : ι}

theorem linkSeg_self : linkSeg seg c i (some i) = [] := by simp [linkSeg]

theorem linkSeg_at (hc : c ≠ some i) : linkSeg seg c i c = seg c ++ seg (some i) := by
  simp [linkSeg, hc]

theorem linkSeg_of_ne {d : Option ι} (hd : d ≠ c) (hi : d ≠ some i) :
    linkSeg seg c i d = seg d := by
  simp [linkSeg, hd, hi]

theorem mem_linkSeg (hc : c ≠ some i) {d : Option ι} {a : Addr} :
    a ∈ linkSeg seg c i d ↔ d ≠ some i ∧ (a ∈ seg d ∨ d = c ∧ a ∈ seg (some i)) := by
  by_cases hd : d = some i
  · subst hd
    simp [linkSeg_self]
  · by_cases hdc : d = c
    · subst hdc
      simp [linkSeg_at hd, hd]
    · simp [linkSeg_of_ne hdc hd, hd, hdc]

theorem exists_mem_linkSeg (hc : c ≠ some i) {a : Addr} :
    (∃ d, a ∈ linkSeg seg c i d) ↔ ∃ d, a ∈ seg d := by
  constructor
  · rintro ⟨d, hd⟩
    rcases ((mem_linkSeg hc).mp hd).2 with hIn | ⟨-, hIn⟩
    · exact ⟨d, hIn⟩
    · exact ⟨some i, hIn⟩
  · rintro ⟨d, hd⟩
    by_cases hdi : d = some i
    · subst hdi
      exact ⟨c, (mem_linkSeg hc).mpr ⟨hc, .inr ⟨rfl, hd⟩⟩⟩
    · exact ⟨d, (mem_linkSeg hc).mpr ⟨hdi, .inl hd⟩⟩

theorem listed_linkSeg (hc : c ≠ some i) {before : List Addr} {a : Addr} :
    Listed before (linkSeg seg c i) a ↔ Listed before seg a := by
  rw [Listed, Listed, exists_mem_linkSeg hc]

end linkSeg

namespace Chains

variable [DecidableEq ι] {next : Addr → Option Addr} {head : Option Addr} {tail : Addr}
  {before : List Addr} {seg : Option ι → List Addr}

/-- The last node `t` of a chain gets the new node `p` of a caller as its next one. -/
theorem link (h : Chains next head tail before seg) {c : Option ι} {i : ι} {t p : Addr}
    {rest : List Addr} (hc : c ≠ some i) (ht : t ∈ seg c) (hNext : next t = none)
    (hp : seg (some i) = p :: rest) :
    Chains (Function.update next t (some p)) head tail before (linkSeg seg c i) := by
  have hHead : (seg (some i)).head? = some p := by rw [hp, List.head?_cons]
  have hOther : t ∉ seg (some i) := fun hIn => hc (h.disjoint ht hIn)
  have hBefore : t ∉ before := fun hIn => h.apart c t hIn ht
  obtain ⟨m, hm⟩ := last_of_next_none (h.linked c) ht hNext
  have hNot : t ∉ m := by
    have hNodup := h.nodup c
    rw [hm] at hNodup
    exact fun hIn => (List.nodup_append.mp hNodup).2.2 t hIn t (List.mem_singleton_self t) rfl
  obtain ⟨first, hFirst⟩ := h.seg_none
  constructor
  · by_cases hcn : c = none
    · subst hcn
      rw [linkSeg_at hc, h.headEq, ← List.append_assoc,
        List.head?_append_of_ne_nil (before ++ seg none) (by simp [hFirst])]
    · rw [linkSeg_of_ne (Ne.symm hcn) (by simp)]
      exact h.headEq
  · by_cases hcn : c = none
    · subst hcn
      rw [linkSeg_at hc, List.head?_append_of_ne_nil _ (by simp [hFirst])]
      exact h.tailEq
    · rw [linkSeg_of_ne (Ne.symm hcn) (by simp)]
      exact h.tailEq
  · by_cases hcn : c = none
    · subst hcn
      have hList := h.list
      rw [hm, ← List.append_assoc] at hList
      rw [linkSeg_at hc, ← List.append_assoc, hm, ← List.append_assoc, ← hHead]
      exact linked_link hList (by simp [hBefore, hNot]) (h.priv i) hOther
    · rw [linkSeg_of_ne (Ne.symm hcn) (by simp)]
      apply linked_update h.list
      rw [List.mem_append, not_or]
      exact ⟨hBefore, fun hIn => hcn (h.disjoint ht hIn)⟩
  · intro j
    by_cases hj : some j = some i
    · rw [hj, linkSeg_self]
      trivial
    · by_cases hcj : some j = c
      · subst hcj
        have hChain := h.linked (some j)
        rw [hm] at hChain
        rw [linkSeg_at hc, hm, ← hHead]
        exact linked_link hChain hNot (h.priv i) hOther
      · rw [linkSeg_of_ne hcj hj]
        exact linked_update (h.priv j) fun hIn => hcj (h.disjoint hIn ht)
  · exact h.nodupBefore
  · intro d
    by_cases hd : d = some i
    · rw [hd, linkSeg_self]
      exact List.nodup_nil
    · by_cases hdc : d = c
      · subst hdc
        rw [linkSeg_at hc]
        apply List.Nodup.append (h.nodup d) (h.nodup _)
        intro a ha hIn
        exact hc (h.disjoint ha hIn)
      · rw [linkSeg_of_ne hdc hd]
        exact h.nodup d
  · intro d a ha hIn
    rcases ((mem_linkSeg hc).mp hIn).2 with hOld | ⟨-, hOld⟩
    · exact h.apart d a ha hOld
    · exact h.apart _ a ha hOld
  · intro d e a hd he
    obtain ⟨hdi, hInD⟩ := (mem_linkSeg hc).mp hd
    obtain ⟨hei, hInE⟩ := (mem_linkSeg hc).mp he
    rcases hInD with hInD | ⟨rfl, hInD⟩ <;> rcases hInE with hInE | ⟨rfl, hInE⟩
    · exact h.disjoint hInD hInE
    · exact absurd (h.disjoint hInD hInE) hdi
    · exact absurd (h.disjoint hInE hInD) hei
    · rfl

/-- `m_tail` moves on by one node. -/
theorem swingTail (h : Chains next head tail before seg) {p : Addr} {rest : List Addr}
    (hSeg : seg none = tail :: p :: rest) :
    Chains next head p (before ++ [tail]) (Function.update seg none (p :: rest)) := by
  have hSub : ∀ c a, a ∈ Function.update seg none (p :: rest) c → a ∈ seg c ∧ a ≠ tail := by
    intro c a ha
    by_cases hc : c = none
    · subst hc
      have hIn : a ∈ p :: rest := by simpa using ha
      have hNodup := h.nodup none
      rw [hSeg] at hNodup
      rw [hSeg]
      exact ⟨List.mem_cons_of_mem tail hIn, fun hEq => (List.nodup_cons.mp hNodup).1 (hEq ▸ hIn)⟩
    · have hIn : a ∈ seg c := by simpa [hc] using ha
      refine ⟨hIn, fun hEq => hc (h.disjoint (hEq ▸ hIn) (d := none) ?_)⟩
      simp [hSeg]
  have hAll : before ++ [tail] ++ Function.update seg none (p :: rest) none = before ++ seg none := by
    simp [hSeg]
  have hTailIn : tail ∈ seg none := by simp [hSeg]
  constructor
  · rw [hAll]
    exact h.headEq
  · simp
  · rw [hAll]
    exact h.list
  · intro i
    simpa using h.priv i
  · refine List.Nodup.append h.nodupBefore (by simp) fun a ha hIn => ?_
    rw [List.mem_singleton.mp hIn] at ha
    exact h.apart none tail ha hTailIn
  · intro c
    by_cases hc : c = none
    · subst hc
      have hNodup := h.nodup none
      rw [hSeg] at hNodup
      simpa using (List.nodup_cons.mp hNodup).2
    · simpa [hc] using h.nodup c
  · intro c a ha hIn
    obtain ⟨hOld, hNe⟩ := hSub c a hIn
    rcases List.mem_append.mp ha with hBefore | hTail
    · exact h.apart c a hBefore hOld
    · exact hNe (List.mem_singleton.mp hTail)
  · intro c d a hc hd
    exact h.disjoint (hSub c a hc).1 (hSub d a hd).1

omit [DecidableEq ι] in
/-- `m_head` moves on by one node, when `m_tail` is not there. -/
theorem moveHead (h : Chains next head tail before seg) {first : Addr} (hHead : head = some first)
    (hTail : tail ≠ first) :
    ∃ before', before = first :: before' ∧ Chains next (next first) tail before' seg := by
  obtain ⟨rest, hRest⟩ := h.seg_none
  have hEq := h.headEq
  cases hBefore : before with
  | nil =>
    rw [hBefore, hRest, hHead] at hEq
    exact absurd (Option.some.inj hEq).symm hTail
  | cons a before' =>
    rw [hBefore, hHead] at hEq
    obtain rfl : first = a := Option.some.inj hEq
    have hList := h.list
    have hNodup := h.nodupBefore
    rw [hBefore] at hList hNodup
    refine ⟨before', rfl, ⟨hList.1, h.tailEq, hList.2, h.priv, (List.nodup_cons.mp hNodup).2,
      h.nodup, fun c b hb => h.apart c b ?_, h.disjoint⟩⟩
    rw [hBefore]
    exact List.mem_cons_of_mem first hb

end Chains

end DemoCode.LockFreeQueue
