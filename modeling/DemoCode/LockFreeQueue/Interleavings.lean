import DemoCode.LockFreeQueue.Chains

/-! Any interleaving of the callers of a `RoughLockFreeQueue`.  `EnQueue` links its node and moves
`m_tail` in two steps; as long as no dequeuer moves `m_head` away from the node that `m_tail` names,
or to a node that is not its next one any more, the tail stays on the list. -/

namespace DemoCode.LockFreeQueue

open Links

variable {ι V : Type*}

/-- The new node of a caller that has not linked it yet. -/
def Pc.newNode : Pc → Option Addr
  | .loadTail newNode => some newNode
  | .link newNode _ => some newNode
  | _ => none

/-- A node that a caller has for its own: the one it put its new node behind, or the one that it
removed. -/
def Pc.claim : Pc → Option Addr
  | .swingTail _ tail => some tail
  | .fetchSub head => some head
  | .deleteHead head => some head
  | _ => none

/-- What a caller knows of the node that it loaded from `m_tail`, which may be out of date: while
nothing follows this node, it is in the list, or else in the chain of a caller that allocated it
later. -/
def Holds (s : RoughLockFreeQueue ι V) (before : List Addr) (seg : Option ι → List Addr) : Pc → Prop
  | .link newNode tail => s.next tail = none →
      tail ∈ seg none ∨ (∃ j, tail ∈ seg (some j)) ∧ s.birth newNode < s.birth tail
  | .swingTail newNode tail => s.next tail = some newNode ∧ ∃ c, tail ∈ seg c
  | .fetchSub head => head ∈ s.live ∧ ¬ Listed before seg head
  | .deleteHead head => head ∈ s.live ∧ ¬ Listed before seg head
  | _ => True

/-- What holds of the callers other than `i`. -/
structure Others (s : RoughLockFreeQueue ι V) (before : List Addr) (seg : Option ι → List Addr)
    (i : ι) : Prop where
  newNode : ∀ j, j ≠ i → (seg (some j)).head? = (s.pc j).newNode
  holds : ∀ j, j ≠ i → Holds s before seg (s.pc j)
  claims : ∀ j, j ≠ i → ∀ k, k ≠ i → ∀ a, (s.pc j).claim = some a → (s.pc k).claim = some a → j = k

structure Callers (s : RoughLockFreeQueue ι V) (before : List Addr) (seg : Option ι → List Addr) :
    Prop where
  newNode : ∀ j, (seg (some j)).head? = (s.pc j).newNode
  holds : ∀ j, Holds s before seg (s.pc j)
  claims : ∀ j k a, (s.pc j).claim = some a → (s.pc k).claim = some a → j = k

/-- The order of the allocations: the nodes that are allocated have births of their own, no removed
one is in a chain, and a caller's chain goes from newer nodes to older ones. -/
structure Ages (s : RoughLockFreeQueue ι V) (before : List Addr) (seg : Option ι → List Addr) :
    Prop where
  live : ∀ a, Listed before seg a → a ∈ s.live
  birth_lt : ∀ a ∈ s.live, s.birth a < s.born
  birth_inj : ∀ a ∈ s.live, ∀ b ∈ s.live, s.birth a = s.birth b → a = b
  older : ∀ j, (seg (some j)).Pairwise fun a b => s.birth b < s.birth a
  removed_lt : ∀ n ∈ s.removed, n < s.born
  removed_nodup : s.removed.Nodup
  kept : ∀ a, Listed before seg a → s.birth a ∉ s.removed

/-- The invariant of the interleavings. -/
structure InvAt (s : RoughLockFreeQueue ι V) (before : List Addr) (seg : Option ι → List Addr) :
    Prop where
  chains : Chains s.next s.head s.tail before seg
  ages : Ages s before seg
  callers : Callers s before seg

def Inv (s : RoughLockFreeQueue ι V) : Prop := ∃ before seg, InvAt s before seg

/-- The condition on a step: a caller that moves `m_head` does not move it away from the node of
`m_tail`, and moves it to the node that is next now. -/
def Orderly (s : RoughLockFreeQueue ι V) : Event ι V → Prop
  | .step i => ∀ head next, s.pc i = .swingHead head next → s.head = some head →
      s.tail ≠ head ∧ next = s.next head
  | _ => True

variable {s : RoughLockFreeQueue ι V} {before : List Addr} {seg : Option ι → List Addr} {i : ι}

theorem Callers.others (h : Callers s before seg) (i : ι) : Others s before seg i :=
  ⟨fun j _ => h.newNode j, fun j _ => h.holds j, fun j _ k _ => h.claims j k⟩

variable [DecidableEq ι]

/-- One caller goes on, and the others stay where they are. -/
theorem Others.goto (h : Others s before seg i) {pc : Pc}
    (hNew : (seg (some i)).head? = pc.newNode) (hHolds : Holds s before seg pc)
    (hClaim : ∀ j, j ≠ i → ∀ a, pc.claim = some a → (s.pc j).claim ≠ some a) :
    Callers (s.goto i pc) before seg := by
  have hPc : ∀ j, j ≠ i → (s.goto i pc).pc j = s.pc j :=
    fun j hj => RoughLockFreeQueue.goto_pc_of_ne s pc hj
  have hSelf : (s.goto i pc).pc i = pc := RoughLockFreeQueue.goto_pc_self s i pc
  constructor
  · intro j
    by_cases hj : j = i
    · rw [hj, hSelf]
      exact hNew
    · rw [hPc j hj]
      exact h.newNode j hj
  · intro j
    by_cases hj : j = i
    · rw [hj, hSelf]
      exact hHolds
    · rw [hPc j hj]
      exact h.holds j hj
  · intro j k a hjClaim hkClaim
    by_cases hj : j = i <;> by_cases hk : k = i
    · rw [hj, hk]
    · rw [hj, hSelf] at hjClaim
      rw [hPc k hk] at hkClaim
      exact absurd hkClaim (hClaim k hk a hjClaim)
    · rw [hk, hSelf] at hkClaim
      rw [hPc j hj] at hjClaim
      exact absurd hjClaim (hClaim j hj a hkClaim)
    · rw [hPc j hj] at hjClaim
      rw [hPc k hk] at hkClaim
      exact h.claims j hj k hk a hjClaim hkClaim

omit [DecidableEq ι] in
theorem claim_ne (h : Callers s before seg) {a : Addr} (hi : (s.pc i).claim = some a) {j : ι}
    (hj : j ≠ i) : (s.pc j).claim ≠ some a :=
  fun hSame => hj (h.claims j i a hSame hi)

/-- A caller goes on without a write. -/
theorem InvAt.goto (h : InvAt s before seg) {pc : Pc} (hNew : pc.newNode = (s.pc i).newNode)
    (hHolds : Holds s before seg pc) (hClaim : pc.claim = none ∨ pc.claim = (s.pc i).claim) :
    Inv (s.goto i pc) := by
  refine ⟨before, seg, h.chains, ⟨h.ages.1, h.ages.2, h.ages.3, h.ages.4, h.ages.5, h.ages.6,
    h.ages.7⟩, (h.callers.others i).goto ?_ hHolds ?_⟩
  · rw [hNew]
    exact h.callers.newNode i
  · intro j hj a ha
    rcases hClaim with hNone | hSame
    · rw [hNone] at ha
      cases ha
    · exact claim_ne h.callers (hSame ▸ ha) hj

/-! ### A new node -/

theorem listed_alloc (hi : seg (some i) = []) {a b : Addr} :
    Listed before (Function.update seg (some i) [a]) b ↔ b = a ∨ Listed before seg b := by
  have hEx : (∃ c, b ∈ Function.update seg (some i) [a] c) ↔ b = a ∨ ∃ c, b ∈ seg c := by
    constructor
    · rintro ⟨c, hc⟩
      by_cases hci : c = some i
      · subst hci
        left
        simpa using hc
      · right
        exact ⟨c, by simpa [hci] using hc⟩
    · rintro (rfl | ⟨c, hc⟩)
      · exact ⟨some i, by simp⟩
      · refine ⟨c, ?_⟩
        have hci : c ≠ some i := by
          rintro rfl
          simp [hi] at hc
        simpa [hci] using hc
  rw [Listed, hEx, Listed]
  tauto

theorem Ages.alloc (h : Ages s before seg) (hi : seg (some i) = []) {a : Addr} (ha : a ∉ s.live)
    (t : Option V) : Ages (s.alloc a t) before (Function.update seg (some i) [a]) := by
  have hBirth := RoughLockFreeQueue.alloc_birth s a t
  have hSame : ∀ b ∈ s.live, (s.alloc a t).birth b = s.birth b := by
    intro b hb
    rw [hBirth, Function.update_of_ne (ne_of_mem_of_not_mem hb ha)]
  have hNew : (s.alloc a t).birth a = s.born := by rw [hBirth, Function.update_self]
  have hLive : ∀ b, b ∈ (s.alloc a t).live ↔ b = a ∨ b ∈ s.live := fun b => Finset.mem_insert
  have hBorn : (s.alloc a t).born = s.born + 1 := rfl
  constructor
  · intro b hb
    rw [hLive]
    exact ((listed_alloc hi).mp hb).imp_right (h.live b)
  · intro b hb
    rw [hBorn]
    rcases (hLive b).mp hb with rfl | hOld
    · rw [hNew]
      exact Nat.lt_succ_self s.born
    · rw [hSame b hOld]
      exact Nat.lt_succ_of_lt (h.birth_lt b hOld)
  · intro b hb c hc hEq
    rcases (hLive b).mp hb with rfl | hOldB <;> rcases (hLive c).mp hc with rfl | hOldC
    · rfl
    · rw [hNew, hSame c hOldC] at hEq
      have := h.birth_lt c hOldC
      omega
    · rw [hNew, hSame b hOldB] at hEq
      have := h.birth_lt b hOldB
      omega
    · rw [hSame b hOldB, hSame c hOldC] at hEq
      exact h.birth_inj b hOldB c hOldC hEq
  · intro j
    by_cases hj : j = i
    · subst hj
      simp
    · have hOld : Function.update seg (some i) [a] (some j) = seg (some j) := by simp [hj]
      rw [hOld]
      apply (h.older j).imp_of_mem
      intro b c hb hc hLt
      rwa [hSame b (h.live b (.inr ⟨_, hb⟩)), hSame c (h.live c (.inr ⟨_, hc⟩))]
  · intro n hn
    exact Nat.lt_succ_of_lt (h.removed_lt n hn)
  · exact h.removed_nodup
  · intro b hb
    rcases (listed_alloc hi).mp hb with rfl | hOld
    · rw [hNew]
      exact fun hIn => Nat.lt_irrefl _ (h.removed_lt _ hIn)
    · rw [hSame b (h.live b hOld)]
      exact h.kept b hOld

theorem Others.alloc (h : Callers s before seg) (hAges : Ages s before seg)
    (hi : seg (some i) = []) {a : Addr} (ha : a ∉ s.live) (t : Option V) :
    Others (s.alloc a t) before (Function.update seg (some i) [a]) i := by
  have hNext := RoughLockFreeQueue.alloc_next s a t
  have hBirth := RoughLockFreeQueue.alloc_birth s a t
  have hMem : ∀ c b, b ∈ seg c → b ∈ Function.update seg (some i) [a] c := by
    intro c b hb
    by_cases hci : c = some i
    · subst hci
      simp [hi] at hb
    · simpa [hci] using hb
  refine ⟨fun j hj => ?_, fun j hj => ?_, fun j _ k _ => h.claims j k⟩
  · have hOld : Function.update seg (some i) [a] (some j) = seg (some j) := by simp [hj]
    rw [hOld]
    exact h.newNode j
  · have hOld := h.holds j
    have hFirst := h.newNode j
    change Holds (s.alloc a t) before _ (s.pc j)
    cases hPc : s.pc j with
    | link newNode tail =>
      rw [hPc] at hOld hFirst
      intro hNone
      have hp : newNode ∈ s.live :=
        hAges.live newNode (.inr ⟨some j, List.mem_of_mem_head? hFirst⟩)
      have hpNe : newNode ≠ a := ne_of_mem_of_not_mem hp ha
      rw [hBirth, Function.update_of_ne hpNe]
      by_cases hta : tail = a
      · -- the address of the old tail is given out again
        subst hta
        right
        rw [Function.update_self]
        exact ⟨⟨i, by simp⟩, hAges.birth_lt newNode hp⟩
      · rw [hNext, Function.update_of_ne hta] at hNone
        rw [Function.update_of_ne hta]
        rcases hOld hNone with hList | ⟨⟨k, hk⟩, hLt⟩
        · exact .inl (hMem none tail hList)
        · exact .inr ⟨⟨k, hMem _ _ hk⟩, hLt⟩
    | swingTail newNode tail =>
      rw [hPc] at hOld
      obtain ⟨hLink, c, hc⟩ := hOld
      have hNe : tail ≠ a := ne_of_mem_of_not_mem (hAges.live tail (.inr ⟨c, hc⟩)) ha
      refine ⟨?_, c, hMem c tail hc⟩
      rw [hNext, Function.update_of_ne hNe]
      exact hLink
    | fetchSub head | deleteHead head =>
      rw [hPc] at hOld
      refine ⟨Finset.mem_insert_of_mem hOld.1, fun hIn => ?_⟩
      rcases (listed_alloc hi).mp hIn with rfl | hListed
      · exact ha hOld.1
      · exact hOld.2 hListed
    | idle | loadTail | fetchAdd | loadHead | testNext | loadNext | swingHead => trivial

theorem InvAt.alloc (h : InvAt s before seg) (hi : s.pc i = .idle) {a : Addr} (ha : a ∉ s.live)
    (t : Option V) : Inv ((s.alloc a t).goto i (.loadTail a)) := by
  have hSeg : seg (some i) = [] := by
    have hNone := h.callers.newNode i
    rw [hi] at hNone
    exact List.head?_eq_none_iff.mp hNone
  have hAges := h.ages.alloc hSeg ha t
  refine ⟨before, Function.update seg (some i) [a], ?_, ⟨hAges.1, hAges.2, hAges.3, hAges.4,
    hAges.5, hAges.6, hAges.7⟩, (Others.alloc h.callers h.ages hSeg ha t).goto ?_ trivial ?_⟩
  · rw [RoughLockFreeQueue.goto_next, RoughLockFreeQueue.alloc_next]
    exact h.chains.alloc hSeg fun hIn => ha (h.ages.live a hIn)
  · simp [Pc.newNode]
  · intro j _ b hb
    cases hb

/-! ### A link -/

omit [DecidableEq ι] in
/-- The first node of a caller's chain is its newest, and the last one its oldest. -/
theorem Ages.le_first (h : Ages s before seg) {p : Addr} {rest : List Addr}
    (hp : seg (some i) = p :: rest) {a : Addr} (ha : a ∈ seg (some i)) : s.birth a ≤ s.birth p := by
  have hOlder := h.older i
  rw [hp] at hOlder ha
  rcases List.mem_cons.mp ha with rfl | hIn
  · exact Nat.le_refl _
  · exact Nat.le_of_lt ((List.pairwise_cons.mp hOlder).1 a hIn)

omit [DecidableEq ι] in
theorem Ages.last_le (h : Ages s before seg) {t : Addr} {m : List Addr}
    (hm : seg (some i) = m ++ [t]) {a : Addr} (ha : a ∈ seg (some i)) : s.birth t ≤ s.birth a := by
  have hOlder := h.older i
  rw [hm] at hOlder ha
  rcases List.mem_append.mp ha with hIn | hIn
  · exact Nat.le_of_lt ((List.pairwise_append.mp hOlder).2.2 a hIn t (List.mem_singleton_self t))
  · rw [List.mem_singleton.mp hIn]

omit [DecidableEq ι] in
/-- Where a caller finds no node behind the tail it loaded, this tail is in the list or in the chain
of another caller, and older callers' chains stay out of it. -/
theorem InvAt.link_target (h : InvAt s before seg) {p t : Addr} (hPc : s.pc i = .link p t)
    (hNext : s.next t = none) : ∃ c rest, c ≠ some i ∧ t ∈ seg c ∧ seg (some i) = p :: rest ∧
      (c ≠ none → s.birth p < s.birth t) := by
  have hHolds := h.callers.holds i
  have hFirst := h.callers.newNode i
  rw [hPc] at hHolds hFirst
  obtain ⟨rest, hRest⟩ := List.head?_eq_some_iff.mp hFirst
  rcases hHolds hNext with hList | ⟨⟨j, hj⟩, hLt⟩
  · exact ⟨none, rest, by simp, hList, hRest, fun hNot => absurd rfl hNot⟩
  · refine ⟨some j, rest, fun hEq => ?_, hj, hRest, fun _ => hLt⟩
    have hLe := h.ages.le_first hRest (hEq ▸ hj)
    omega

theorem Ages.link (h : Ages s before seg) (hChains : Chains s.next s.head s.tail before seg)
    {c : Option ι} {p t : Addr} {rest : List Addr} (hc : c ≠ some i) (ht : t ∈ seg c)
    (hNext : s.next t = none) (hp : seg (some i) = p :: rest) (hLt : c ≠ none → s.birth p < s.birth t) :
    Ages (s.setNext t p) before (linkSeg seg c i) := by
  have hBirth := RoughLockFreeQueue.setNext_birth s t p
  constructor
  · intro a ha
    exact h.live a ((listed_linkSeg hc).mp ha)
  · rw [hBirth]
    exact h.birth_lt
  · rw [hBirth]
    exact h.birth_inj
  · intro j
    rw [hBirth]
    by_cases hji : some j = some i
    · rw [hji, linkSeg_self]
      exact List.Pairwise.nil
    · by_cases hjc : some j = c
      · subst hjc
        rw [linkSeg_at hc, List.pairwise_append]
        refine ⟨h.older j, h.older i, fun a ha b hb => ?_⟩
        obtain ⟨m, hm⟩ := last_of_next_none (hChains.linked _) ht hNext
        have hNewer := h.last_le hm ha
        have hOlder := h.le_first hp hb
        have := hLt (by simp)
        omega
      · rw [linkSeg_of_ne hjc hji]
        exact h.older j
  · exact h.removed_lt
  · exact h.removed_nodup
  · intro a ha
    rw [hBirth]
    exact h.kept a ((listed_linkSeg hc).mp ha)

theorem Others.link (h : Callers s before seg) {c : Option ι} {p t : Addr} (hc : c ≠ some i)
    (ht : t ∈ seg c) (hNext : s.next t = none) : Others (s.setNext t p) before (linkSeg seg c i) i := by
  have hNextEq := RoughLockFreeQueue.setNext_next s t p
  have hBirth := RoughLockFreeQueue.setNext_birth s t p
  refine ⟨fun j hj => ?_, fun j hj => ?_, fun j _ k _ => h.claims j k⟩
  · have hji : some j ≠ some i := by simpa using hj
    have hFirst := h.newNode j
    change (linkSeg seg c i (some j)).head? = (s.pc j).newNode
    by_cases hjc : some j = c
    · subst hjc
      rw [linkSeg_at hc, ← hFirst, List.head?_append_of_ne_nil _ (List.ne_nil_of_mem ht)]
    · rw [linkSeg_of_ne hjc hji]
      exact hFirst
  · have hOld := h.holds j
    change Holds (s.setNext t p) before _ (s.pc j)
    cases hPc : s.pc j with
    | link newNode tail =>
      rw [hPc] at hOld
      intro hNone
      have hTail : tail ≠ t := by
        rintro rfl
        simp [hNextEq] at hNone
      rw [hNextEq, Function.update_of_ne hTail] at hNone
      rw [hBirth]
      rcases hOld hNone with hList | ⟨⟨k, hk⟩, hLt⟩
      · exact .inl ((mem_linkSeg hc).mpr ⟨by simp, .inl hList⟩)
      · obtain ⟨d, hd⟩ := (exists_mem_linkSeg hc).mpr ⟨some k, hk⟩
        cases d with
        | none => exact .inl hd
        | some k' => exact .inr ⟨⟨k', hd⟩, hLt⟩
    | swingTail newNode tail =>
      rw [hPc] at hOld
      obtain ⟨hLink, hIn⟩ := hOld
      have hTail : tail ≠ t := by
        rintro rfl
        rw [hNext] at hLink
        cases hLink
      refine ⟨?_, (exists_mem_linkSeg hc).mpr hIn⟩
      rw [hNextEq, Function.update_of_ne hTail]
      exact hLink
    | fetchSub head | deleteHead head =>
      rw [hPc] at hOld
      exact ⟨hOld.1, fun hIn => hOld.2 ((listed_linkSeg hc).mp hIn)⟩
    | idle | loadTail | fetchAdd | loadHead | testNext | loadNext | swingHead => trivial

theorem InvAt.link (h : InvAt s before seg) {p t : Addr} (hPc : s.pc i = .link p t)
    (hNext : s.next t = none) : Inv ((s.setNext t p).goto i (.swingTail p t)) := by
  obtain ⟨c, rest, hc, ht, hp, hLt⟩ := h.link_target hPc hNext
  have hAges := h.ages.link h.chains hc ht hNext hp hLt
  refine ⟨before, linkSeg seg c i, ?_, ⟨hAges.1, hAges.2, hAges.3, hAges.4, hAges.5, hAges.6,
    hAges.7⟩, (Others.link h.callers hc ht hNext).goto ?_ ?_ ?_⟩
  · rw [RoughLockFreeQueue.goto_next, RoughLockFreeQueue.setNext_next]
    exact h.chains.link hc ht hNext hp
  · rw [linkSeg_self]
    rfl
  · refine ⟨?_, (exists_mem_linkSeg hc).mpr ⟨c, ht⟩⟩
    rw [RoughLockFreeQueue.setNext_next, Function.update_self]
  · intro j hj a ha hSame
    -- another caller that put its node behind `t` has done so before, when `t` had no link
    obtain rfl : t = a := Option.some.inj ha
    have hHolds := h.callers.holds j
    change (s.pc j).claim = some t at hSame
    cases hOther : s.pc j with
    | swingTail newNode tail =>
      rw [hOther] at hHolds hSame
      obtain rfl : tail = t := Option.some.inj hSame
      exact Option.some_ne_none newNode (hHolds.1.symm.trans hNext)
    | fetchSub head | deleteHead head =>
      rw [hOther] at hHolds hSame
      obtain rfl : head = t := Option.some.inj hSame
      exact hHolds.2 (.inr ⟨c, ht⟩)
    | idle | loadTail | link | fetchAdd | loadHead | testNext | loadNext | swingHead =>
      rw [hOther] at hSame
      cases hSame

/-! ### The tail moves -/

theorem listed_swingTail {p t : Addr} {rest : List Addr} (hSeg : seg none = t :: p :: rest)
    {a : Addr} : Listed (before ++ [t]) (Function.update seg none (p :: rest)) a ↔
      Listed before seg a := by
  have hEx : (∃ c, a ∈ Function.update seg none (p :: rest) c) ↔
      a ∈ p :: rest ∨ ∃ j, a ∈ seg (some j) := by
    simp [Option.exists]
  have hOld : (∃ c, a ∈ seg c) ↔ a ∈ t :: p :: rest ∨ ∃ j, a ∈ seg (some j) := by
    simp [Option.exists, hSeg]
  rw [Listed, Listed, hEx, hOld, List.mem_append, List.mem_singleton, List.mem_cons (b := t)]
  tauto

theorem Others.swingTail (h : Callers s before seg) {p t : Addr} {rest : List Addr}
    (hPc : s.pc i = .swingTail p t) (hNext : s.next t = some p)
    (hSeg : seg none = t :: p :: rest) :
    Others (s.setTail p) (before ++ [t])
      (Function.update seg none (p :: rest)) i := by
  have hMem : ∀ c a, a ∈ seg c → a ≠ t → a ∈ Function.update seg none (p :: rest) c := by
    intro c a ha hNe
    by_cases hc : c = none
    · subst hc
      rw [hSeg] at ha
      simpa using (List.mem_cons.mp ha).resolve_left hNe
    · simpa [hc] using ha
  refine ⟨fun j _ => ?_, fun j hj => ?_, fun j _ k _ => h.claims j k⟩
  · simpa using h.newNode j
  · have hOld := h.holds j
    have hOther : (s.pc j).claim ≠ some t := claim_ne h (by rw [hPc]; rfl) hj
    change Holds _ _ _ (s.pc j)
    cases hPcj : s.pc j with
    | link newNode tail =>
      rw [hPcj] at hOld
      intro hNone
      have hTail : tail ≠ t := by
        rintro rfl
        exact Option.some_ne_none p (hNext.symm.trans hNone)
      exact (hOld hNone).imp (fun hIn => hMem none tail hIn hTail)
        fun ⟨⟨k, hk⟩, hLt⟩ => ⟨⟨k, hMem _ tail hk hTail⟩, hLt⟩
    | swingTail newNode tail =>
      rw [hPcj] at hOld hOther
      obtain ⟨hLink, c, hc⟩ := hOld
      exact ⟨hLink, c, hMem c tail hc fun hEq => hOther (by rw [hEq]; rfl)⟩
    | fetchSub head | deleteHead head =>
      rw [hPcj] at hOld
      exact ⟨hOld.1, fun hIn => hOld.2 ((listed_swingTail hSeg).mp hIn)⟩
    | idle | loadTail | fetchAdd | loadHead | testNext | loadNext | swingHead => trivial

theorem InvAt.swingTail (h : InvAt s before seg) {p : Addr} (hPc : s.pc i = .swingTail p s.tail) :
    Inv ((s.setTail p).goto i .fetchAdd) := by
  have hHolds := h.callers.holds i
  rw [hPc] at hHolds
  obtain ⟨rest₀, hRest₀⟩ := h.chains.seg_none
  have hLinked := h.chains.linked none
  rw [hRest₀] at hLinked
  obtain ⟨rest, rfl⟩ := head_of_next hLinked hHolds.1
  have hNone : (seg (some i)).head? = none := by
    rw [h.callers.newNode i, hPc]
    rfl
  refine ⟨before ++ [s.tail], Function.update seg none (p :: rest), h.chains.swingTail hRest₀,
    ⟨fun a ha => h.ages.live a ((listed_swingTail hRest₀).mp ha), h.ages.birth_lt,
      h.ages.birth_inj, fun j => ?_, h.ages.removed_lt, h.ages.removed_nodup,
      fun a ha => h.ages.kept a ((listed_swingTail hRest₀).mp ha)⟩,
    (Others.swingTail h.callers hPc hHolds.1 hRest₀).goto ?_ trivial ?_⟩
  · have hSame : Function.update seg none (p :: rest) (some j) = seg (some j) := by simp
    rw [hSame]
    exact h.ages.older j
  · have hSame : Function.update seg none (p :: rest) (some i) = seg (some i) := by simp
    rw [hSame, hNone]
    rfl
  · intro j _ a ha
    cases ha

/-! ### The head moves, and its node is deleted -/

omit [DecidableEq ι] in
theorem listed_of_tail {before' : List Addr} {first a : Addr}
    (ha : Listed before' seg a) : Listed (first :: before') seg a :=
  ha.imp_left (List.mem_cons_of_mem first)

omit [DecidableEq ι] in
theorem Others.moveHead {before' : List Addr} {first : Addr} {next : Option Addr}
    (h : Callers s (first :: before') seg) :
    Others (s.moveHead first next) before' seg i := by
  refine ⟨fun j _ => h.newNode j, fun j _ => ?_, fun j _ k _ => h.claims j k⟩
  have hOld := h.holds j
  change Holds _ _ _ (s.pc j)
  cases hPc : s.pc j with
  | link newNode tail | swingTail newNode tail =>
    rw [hPc] at hOld
    exact hOld
  | fetchSub head | deleteHead head =>
    rw [hPc] at hOld
    exact ⟨hOld.1, fun hIn => hOld.2 (listed_of_tail hIn)⟩
  | idle | loadTail | fetchAdd | loadHead | testNext | loadNext | swingHead => trivial

omit [DecidableEq ι] in
theorem Ages.moveHead {before' : List Addr} {first : Addr} {next : Option Addr}
    (h : Ages s (first :: before') seg) (hNot : ¬ Listed before' seg first) :
    Ages (s.moveHead first next) before' seg := by
  have hFirst : Listed (first :: before') seg first := .inl List.mem_cons_self
  refine ⟨fun a ha => h.live a (listed_of_tail ha), h.birth_lt, h.birth_inj, h.older, ?_, ?_, ?_⟩
  · intro n hn
    rcases List.mem_cons.mp hn with rfl | hOld
    · exact h.birth_lt first (h.live first hFirst)
    · exact h.removed_lt n hOld
  · exact List.nodup_cons.mpr ⟨h.kept first hFirst, h.removed_nodup⟩
  · intro a ha hIn
    rcases List.mem_cons.mp hIn with hSame | hOld
    · have hEq : a = first :=
        h.birth_inj a (h.live a (listed_of_tail ha)) first (h.live first hFirst) hSame
      exact hNot (hEq ▸ ha)
    · exact h.kept a (listed_of_tail ha) hOld

theorem InvAt.moveHead (h : InvAt s before seg) {first : Addr} {next : Option Addr}
    (hPc : s.pc i = .swingHead first next) (hHead : s.head = some first) (hTail : s.tail ≠ first)
    (hNext : next = s.next first) : Inv ((s.moveHead first next).goto i (.fetchSub first)) := by
  subst hNext
  obtain ⟨before', rfl, hChains⟩ := h.chains.moveHead hHead hTail
  have hNot : ¬ Listed before' seg first := by
    rintro (hIn | ⟨c, hIn⟩)
    · exact (List.nodup_cons.mp h.chains.nodupBefore).1 hIn
    · exact h.chains.apart c first List.mem_cons_self hIn
  have hAges : Ages (s.moveHead first (s.next first)) before' seg := h.ages.moveHead hNot
  have hLive : first ∈ s.live := h.ages.live first (.inl List.mem_cons_self)
  refine ⟨before', seg, hChains, ⟨hAges.1, hAges.2, hAges.3, hAges.4, hAges.5, hAges.6, hAges.7⟩,
    (Others.moveHead h.callers).goto ?_ ⟨hLive, hNot⟩ ?_⟩
  · rw [h.callers.newNode i, hPc]
    rfl
  · intro j _ a ha hSame
    obtain rfl : first = a := Option.some.inj ha
    have hHolds := h.callers.holds j
    change (s.pc j).claim = some first at hSame
    cases hOther : s.pc j with
    | swingTail newNode tail =>
      -- a node that is still behind `m_tail` or in another chain
      rw [hOther] at hHolds hSame
      obtain rfl : tail = first := Option.some.inj hSame
      obtain ⟨c, hc⟩ := hHolds.2
      exact h.chains.apart c tail List.mem_cons_self hc
    | fetchSub head | deleteHead head =>
      rw [hOther] at hHolds hSame
      obtain rfl : head = first := Option.some.inj hSame
      exact hHolds.2 (.inl List.mem_cons_self)
    | idle | loadTail | link | fetchAdd | loadHead | testNext | loadNext | swingHead =>
      rw [hOther] at hSame
      cases hSame

omit [DecidableEq ι] in
theorem Others.deleteHead (h : Callers s before seg) {head : Addr}
    (hPc : s.pc i = .deleteHead head) :
    Others (s.free head) before seg i := by
  refine ⟨fun j _ => h.newNode j, fun j hj => ?_, fun j _ k _ => h.claims j k⟩
  have hOld := h.holds j
  have hOther : (s.pc j).claim ≠ some head := claim_ne h (by rw [hPc]; rfl) hj
  change Holds _ _ _ (s.pc j)
  cases hPcj : s.pc j with
  | link newNode tail | swingTail newNode tail =>
    rw [hPcj] at hOld
    exact hOld
  | fetchSub head' | deleteHead head' =>
    rw [hPcj] at hOld hOther
    refine ⟨Finset.mem_erase.mpr ⟨fun hEq => hOther (by rw [hEq]; rfl), hOld.1⟩, hOld.2⟩
  | idle | loadTail | fetchAdd | loadHead | testNext | loadNext | swingHead => trivial

theorem InvAt.deleteHead (h : InvAt s before seg) {head : Addr} (hPc : s.pc i = .deleteHead head) :
    Inv ((s.free head).goto i .idle) := by
  have hHolds := h.callers.holds i
  rw [hPc] at hHolds
  have hSub : ∀ a ∈ s.live.erase head, a ∈ s.live := fun a ha => Finset.mem_of_mem_erase ha
  refine ⟨before, seg, h.chains, ⟨fun a ha => ?_, fun a ha => h.ages.birth_lt a (hSub a ha),
    fun a ha b hb => h.ages.birth_inj a (hSub a ha) b (hSub b hb), h.ages.older,
    h.ages.removed_lt, h.ages.removed_nodup, h.ages.kept⟩,
    (Others.deleteHead h.callers hPc).goto ?_ trivial ?_⟩
  · exact Finset.mem_erase.mpr ⟨fun hEq => hHolds.2 (hEq ▸ ha), h.ages.live a ha⟩
  · rw [h.callers.newNode i, hPc]
    rfl
  · intro j _ a ha
    cases ha

/-! ### Every step -/

omit [DecidableEq ι] in
/-- The counter of the queue is none of the invariant's business. -/
theorem InvAt.size (h : InvAt s before seg) (size : UInt32) :
    InvAt (s.setSize size) before seg := by
  refine ⟨h.chains, ⟨h.ages.1, h.ages.2, h.ages.3, h.ages.4, h.ages.5, h.ages.6, h.ages.7⟩,
    h.callers.newNode, fun j => ?_, h.callers.claims⟩
  have hOld := h.callers.holds j
  change Holds _ _ _ (s.pc j)
  cases hPc : s.pc j <;> rw [hPc] at hOld <;> exact hOld

omit [DecidableEq ι] in
/-- The tail that is loaded now is on the list. -/
theorem InvAt.holds_tail (h : InvAt s before seg) (newNode : Addr) :
    Holds s before seg (.link newNode s.tail) := by
  intro _
  obtain ⟨rest, hRest⟩ := h.chains.seg_none
  left
  rw [hRest]
  exact List.mem_cons_self

theorem advance_inv {s' : RoughLockFreeQueue ι V} {out : Option (Ret V)} (h : Inv s)
    (hOrderly : Orderly s (.step i)) (hStep : s.advance i (s.pc i) = some (s', out)) : Inv s' := by
  obtain ⟨before, seg, hAt⟩ := h
  cases hPc : s.pc i with
  | idle =>
    rw [hPc] at hStep
    cases hStep
  | loadTail newNode =>
    rw [hPc] at hStep
    cases hStep
    exact hAt.goto (by rw [hPc]; rfl) (hAt.holds_tail newNode) (.inl rfl)
  | link newNode tail =>
    rw [hPc] at hStep
    simp only [RoughLockFreeQueue.advance] at hStep
    split at hStep
    · rename_i hNone
      cases hStep
      exact hAt.link hPc hNone
    · cases hStep
      exact hAt.goto (by rw [hPc]; rfl) trivial (.inl rfl)
  | swingTail newNode tail =>
    rw [hPc] at hStep
    cases hStep
    by_cases hTail : s.tail = tail
    · subst hTail
      simpa using hAt.swingTail hPc
    · rw [if_neg hTail]
      exact hAt.goto (by rw [hPc]; rfl) trivial (.inl rfl)
  | fetchAdd =>
    rw [hPc] at hStep
    cases hStep
    exact (hAt.size _).goto (by rw [RoughLockFreeQueue.setSize_pc, hPc]; rfl) trivial (.inl rfl)
  | loadHead =>
    rw [hPc] at hStep
    cases hStep
    exact hAt.goto (by rw [hPc]; rfl) trivial (.inl rfl)
  | testNext head =>
    rw [hPc] at hStep
    cases head with
    | none => cases hStep
    | some head =>
      simp only [RoughLockFreeQueue.advance] at hStep
      split at hStep <;> cases hStep <;>
        exact hAt.goto (by rw [hPc]; rfl) trivial (.inl rfl)
  | loadNext head =>
    rw [hPc] at hStep
    cases hStep
    exact hAt.goto (by rw [hPc]; rfl) trivial (.inl rfl)
  | swingHead head next =>
    rw [hPc] at hStep
    simp only [RoughLockFreeQueue.advance] at hStep
    split at hStep
    · rename_i hHead
      cases hStep
      obtain ⟨hTail, hNext⟩ := hOrderly head next hPc hHead
      exact hAt.moveHead hPc hHead hTail hNext
    · cases hStep
      exact hAt.goto (by rw [hPc]; rfl) trivial (.inl rfl)
  | fetchSub head =>
    rw [hPc] at hStep
    cases hStep
    have hHolds := (hAt.size (s.size - 1)).callers.holds i
    change Holds _ _ _ (s.pc i) at hHolds
    rw [hPc] at hHolds
    exact (hAt.size _).goto (by rw [RoughLockFreeQueue.setSize_pc, hPc]; rfl) hHolds
      (.inr (by rw [RoughLockFreeQueue.setSize_pc, hPc]; rfl))
  | deleteHead head =>
    rw [hPc] at hStep
    cases hStep
    exact hAt.deleteHead hPc

theorem step_inv {s' : RoughLockFreeQueue ι V} {ev : Event ι V} {out : Option (Ret V)} (h : Inv s)
    (hOrderly : Orderly s ev) (hStep : s.step ev = some (s', out)) : Inv s' := by
  cases ev with
  | enQueue i t newNode =>
    simp only [RoughLockFreeQueue.step] at hStep
    split at hStep
    · rename_i hGuard
      cases hStep
      obtain ⟨before, seg, hAt⟩ := h
      exact hAt.alloc hGuard.1 hGuard.2 t
    · cases hStep
  | deQueue i =>
    simp only [RoughLockFreeQueue.step] at hStep
    split at hStep
    · rename_i hIdle
      cases hStep
      obtain ⟨before, seg, hAt⟩ := h
      exact hAt.goto (by rw [hIdle]; rfl) trivial (.inl rfl)
    · cases hStep
  | empty i =>
    simp only [RoughLockFreeQueue.step] at hStep
    split at hStep
    · cases hStep
      exact h
    · cases hStep
  | step i => exact advance_inv h hOrderly hStep

omit [DecidableEq ι] in
theorem fresh_inv (node : Addr) : Inv (RoughLockFreeQueue.fresh node : RoughLockFreeQueue ι V) := by
  let seg : Option ι → List Addr := fun c => if c = none then [node] else []
  have hListed : ∀ a, Listed [] seg a → a = node := by
    rintro a (hIn | ⟨c, hIn⟩)
    · cases hIn
    · by_cases hc : c = none
      · simpa [seg, hc] using hIn
      · simp [seg, hc] at hIn
  refine ⟨[], seg, ⟨rfl, rfl, ⟨rfl, trivial⟩, fun _ => trivial, List.nodup_nil, fun c => ?_,
    fun c a ha => absurd ha List.not_mem_nil, ?_⟩, ⟨?_, ?_, ?_, fun _ => List.Pairwise.nil, ?_,
    List.nodup_nil, fun _ _ => List.not_mem_nil⟩, ⟨fun _ => rfl, fun _ => trivial, ?_⟩⟩
  · by_cases hc : c = none <;> simp [seg, hc]
  · intro c d a hc hd
    cases c <;> cases d <;> simp_all [seg]
  · intro a ha
    rw [hListed a ha]
    exact Finset.mem_singleton_self node
  · intro a _
    exact Nat.one_pos
  · intro a ha b hb _
    rw [Finset.mem_singleton.mp ha, Finset.mem_singleton.mp hb]
  · intro n hn
    cases hn
  · intro j k a ha
    cases ha

/-- In every interleaving of which all steps are orderly, the node that `m_tail` names can be reached
from `m_head`, and no node was removed twice. -/
theorem tail_on_list {node : Addr} {evs : List (Event ι V)} {t : RoughLockFreeQueue ι V}
    {outs : List (Option (Ret V))}
    (hAlong : Machine.Along RoughLockFreeQueue.step Orderly (.fresh node) evs)
    (hRun : Machine.run RoughLockFreeQueue.step (.fresh node) evs = some (t, outs)) :
    (∃ head, t.head = some head ∧ Reaches t.next head t.tail) ∧ t.removed.Nodup := by
  have hInv : Inv t := Machine.run_keeps step_inv (fresh_inv node) hAlong hRun
  obtain ⟨before, seg, hAt⟩ := hInv
  exact ⟨hAt.chains.reaches_tail, hAt.ages.removed_nodup⟩

/-- The steps of an `EnQueue` and of the `DeQueue` after it, up to the move of `m_head`. -/
def inOrder : List (Event Unit ℕ) :=
  .enQueue () (some 7) 1 :: List.replicate 4 (.step ()) ++ .deQueue () :: List.replicate 4 (.step ())

theorem inOrder_orderly :
    Machine.Along RoughLockFreeQueue.step Orderly (.fresh 0) inOrder := by
  refine Machine.along_cons trivial rfl (Machine.along_cons ?_ rfl (Machine.along_cons ?_ rfl
    (Machine.along_cons ?_ rfl (Machine.along_cons ?_ rfl (Machine.along_cons trivial rfl
    (Machine.along_cons ?_ rfl (Machine.along_cons ?_ rfl (Machine.along_cons ?_ rfl
    (Machine.along_cons ?_ rfl trivial)))))))))
  all_goals
    intro head next hPc hHead
    cases hPc
  exact ⟨by decide, rfl⟩

theorem tail_on_list_inOrder : ∃ (t : RoughLockFreeQueue Unit ℕ) (outs : List (Option (Ret ℕ))),
    Machine.run RoughLockFreeQueue.step (.fresh 0) inOrder = some (t, outs) ∧
    (∃ head, t.head = some head ∧ Reaches t.next head t.tail) ∧ t.removed.Nodup :=
  ⟨_, _, rfl, tail_on_list inOrder_orderly rfl⟩

/-- Between the link and the move of `m_tail`, another caller removes the node that `m_tail` still
names. -/
theorem tail_off_list : ∃ (t : RoughLockFreeQueue Bool ℕ) (outs : List (Option (Ret ℕ))),
    Machine.run RoughLockFreeQueue.step (.fresh 0) [.enQueue true (some 7) 1, .step true,
      .step true, .deQueue false, .step false, .step false, .step false, .step false] =
        some (t, outs) ∧
    ¬ ∃ head, t.head = some head ∧ Reaches t.next head t.tail := by
  refine ⟨_, _, rfl, ?_⟩
  rintro ⟨head, hHead, hReach⟩
  obtain rfl : 1 = head := Option.some.inj hHead
  rcases Relation.ReflTransGen.cases_head hReach with hEq | ⟨b, hNext, -⟩
  · exact absurd hEq (by decide)
  · cases hNext

end DemoCode.LockFreeQueue
