import DemoCode.LockFreeQueue.Sequential

/-! Calls of `EnQueue` in which a `compare_exchange_weak` may also fail spuriously.  The one on
`tail->next` is tried again, the one on `m_tail` is not: when it fails, `m_tail` stays behind the new
node and no later call can link its own. -/

namespace DemoCode.LockFreeQueue

open Links

variable {ι V : Type*} [DecidableEq ι]

/-- The steps that are a `compare_exchange_weak`. -/
def Pc.isWeak : Pc → Bool
  | .link _ _ => true
  | .swingTail _ _ => true
  | .swingHead _ _ => true
  | _ => false

namespace RoughLockFreeQueue

/-- A compare-exchange that fails although it finds what it expects: the two loops start again. -/
def failWeak (s : RoughLockFreeQueue ι V) (i : ι) : RoughLockFreeQueue ι V :=
  match s.pc i with
  | .link newNode _ => s.goto i (.loadTail newNode)
  | .swingTail _ _ => s.goto i .fetchAdd
  | .swingHead _ _ => s.goto i .loadHead
  | _ => s

/-- The steps of one caller until its call returns, where `fails` tells of each compare-exchange of the
call whether it fails spuriously; `n` of them are done. -/
def finishWeak (fails : ℕ → Bool) (i : ι) :
    ℕ → ℕ → RoughLockFreeQueue ι V → Option (RoughLockFreeQueue ι V × Ret V)
  | 0, _, _ => none
  | fuel + 1, n, s =>
    if (s.pc i).isWeak ∧ fails n then
      finishWeak fails i fuel (n + 1) (s.failWeak i)
    else
      match s.step (.step i) with
      | none => none
      | some (s', none) => finishWeak fails i fuel (if (s.pc i).isWeak then n + 1 else n) s'
      | some (s', some ret) => some (s', ret)

end RoughLockFreeQueue

/-- A call of `EnQueue`, with the spurious failures in it and a bound for its steps. -/
structure WeakCall (V : Type*) where
  t : Option V
  fails : ℕ → Bool
  fuel : ℕ

namespace RoughLockFreeQueue

/-- A whole `EnQueue` of one caller, nothing when it does not return within its bound. -/
def enQueueWeak (alloc : Allocator ι V) (i : ι) (s : RoughLockFreeQueue ι V) (c : WeakCall V) :
    Option (RoughLockFreeQueue ι V × Ret V) := do
  let (s', _) ← s.step (alloc.start s (.enQueue i c.t))
  finishWeak c.fails i c.fuel 0 s'

/-- `m_tail` names the last node of the list. -/
def TailLast (s : RoughLockFreeQueue ι V) : Prop :=
  ∃ first rest, s.head = some first ∧ Linked s.next (first :: rest) ∧
    (first :: rest).getLast? = some s.tail

/-- The compare-exchange after the first one that does not fail spuriously, which is the one on
`m_tail`, does not fail either. -/
def SwingHolds (fails : ℕ → Bool) : Prop :=
  ∀ k, (∀ j < k, fails j = true) → fails k = false → fails (k + 1) = false

/-- The queue after an `EnQueue` whose compare-exchange on `m_tail` failed. -/
def missed (s : RoughLockFreeQueue ι V) (i : ι) (newNode : Addr) (t : Option V) :
    RoughLockFreeQueue ι V :=
  (((s.alloc newNode t).setNext s.tail newNode).setSize (s.size + 1)).goto i .idle

variable {s s' : RoughLockFreeQueue ι V} {l : Lagging V} {first : Addr} {rest : List Addr} {i : ι}
  {pc : Pc} {fails : ℕ → Bool} {fuel n : ℕ} {ret : Ret V}

theorem finishWeak_fails (hWeak : (s.pc i).isWeak = true) (hFails : fails n = true) :
    finishWeak fails i (fuel + 1) n s = finishWeak fails i fuel (n + 1) (s.failWeak i) := by
  simp [finishWeak, hWeak, hFails]

theorem finishWeak_weak (hPc : s.pc i = pc) (hWeak : pc.isWeak = true) (hFails : fails n = false)
    (h : s.advance i pc = some (s', none)) :
    finishWeak fails i (fuel + 1) n s = finishWeak fails i fuel (n + 1) s' := by
  simp [finishWeak, step, hPc, hWeak, hFails, h]

theorem finishWeak_step (hPc : s.pc i = pc) (hWeak : pc.isWeak = false)
    (h : s.advance i pc = some (s', none)) :
    finishWeak fails i (fuel + 1) n s = finishWeak fails i fuel n s' := by
  simp [finishWeak, step, hPc, hWeak, h]

theorem finishWeak_done (hPc : s.pc i = pc) (hWeak : pc.isWeak = false)
    (h : s.advance i pc = some (s', some ret)) :
    finishWeak fails i (fuel + 1) n s = some (s', ret) := by
  simp [finishWeak, step, hPc, hWeak, h]

/-- From the last step of an `EnQueue` on, it returns. -/
theorem finishWeak_fetchAdd {t : RoughLockFreeQueue ι V}
    (h : finishWeak fails i fuel n (s.goto i .fetchAdd) = some (t, ret)) :
    t = (s.setSize (s.size + 1)).goto i .idle := by
  cases fuel with
  | zero => cases h
  | succ fuel =>
    rw [finishWeak_done (goto_pc_self s i .fetchAdd) rfl rfl] at h
    obtain ⟨rfl, -⟩ := Prod.mk.inj (Option.some.inj h)
    rw [goto_setSize, goto_goto]
    rfl

/-- An `EnQueue` that returns has linked its node at the first compare-exchange that did not fail
spuriously, and moved `m_tail` unless the next one did. -/
theorem finishWeak_enQueue {t : RoughLockFreeQueue ι V} {a : Addr} {v : Option V}
    (hNone : s.next s.tail = none) (hNe : s.tail ≠ a)
    (h : finishWeak fails i fuel n ((s.alloc a v).goto i (.loadTail a)) = some (t, ret)) :
    ∃ k, n ≤ k ∧ (∀ j, n ≤ j → j < k → fails j = true) ∧ fails k = false ∧
      t = if fails (k + 1) then s.missed i a v else s.enQueued i a v := by
  induction fuel using Nat.strong_induction_on generalizing n with
  | _ fuel ih =>
  let s₁ := (s.alloc a v).goto i (.link a s.tail)
  let s₂ := ((s.alloc a v).setNext s.tail a).goto i (.swingTail a s.tail)
  have hLoad : ((s.alloc a v).goto i (.loadTail a)).advance i (.loadTail a) = some (s₁, none) := by
    simp [advance, s₁]
  have hLink : s₁.advance i (.link a s.tail) = some (s₂, none) := by
    have hNext : s₁.next s.tail = none := by
      change (s.alloc a v).next s.tail = none
      rw [alloc_next, Function.update_of_ne hNe, hNone]
    simp [advance, hNext, s₂, s₁, goto_setNext]
  cases fuel with
  | zero => cases h
  | succ fuel =>
  rw [finishWeak_step (by simp) rfl hLoad] at h
  cases fuel with
  | zero => cases h
  | succ fuel =>
  cases hFails : fails n with
  | true =>
    -- back to the start of the loop
    have hBack : s₁.failWeak i = (s.alloc a v).goto i (.loadTail a) := by
      simp [failWeak, s₁]
    rw [finishWeak_fails (by simp [s₁, Pc.isWeak]) hFails, hBack] at h
    obtain ⟨k, hLe, hBefore, hHolds, hEnd⟩ := ih fuel (by omega) h
    refine ⟨k, by omega, fun j hFrom hTo => ?_, hHolds, hEnd⟩
    rcases Nat.eq_or_lt_of_le hFrom with rfl | hLater
    · exact hFails
    · exact hBefore j hLater hTo
  | false =>
    refine ⟨n, Nat.le_refl n, fun j hFrom hTo => absurd hTo (by omega), hFails, ?_⟩
    rw [finishWeak_weak (by simp [s₁]) rfl hFails hLink] at h
    cases fuel with
    | zero => cases h
    | succ fuel =>
    cases hSwing : fails (n + 1) with
    | true =>
      have hMissed : s₂.failWeak i = ((s.alloc a v).setNext s.tail a).goto i .fetchAdd := by
        simp [failWeak, s₂]
      rw [finishWeak_fails (by simp [s₂, Pc.isWeak]) hSwing, hMissed] at h
      exact finishWeak_fetchAdd h
    | false =>
      have hMoved : s₂.advance i (.swingTail a s.tail) =
          some ((((s.alloc a v).setNext s.tail a).setTail a).goto i .fetchAdd, none) := by
        simp [advance, s₂, goto_setTail]
      rw [finishWeak_weak (by simp [s₂]) rfl hSwing hMoved] at h
      exact finishWeak_fetchAdd h

end RoughLockFreeQueue

open RoughLockFreeQueue

variable {s : RoughLockFreeQueue ι V} {l : Lagging V} {first : Addr} {rest : List Addr}

omit [DecidableEq ι] in
theorem Stores.tailLast (h : Stores s l first rest) : s.TailLast :=
  ⟨first, rest, h.head, h.linked, h.tail⟩

omit [DecidableEq ι] in
/-- A node that is linked to another one is not the last. -/
theorem not_tailLast {a : Addr} (h : s.next s.tail = some a) : ¬ s.TailLast := by
  rintro ⟨first, rest, -, hLinked, hLast⟩
  obtain ⟨before, hEq⟩ := List.getLast?_eq_some_iff.mp hLast
  rw [hEq] at hLinked
  have hNone := (linked_of_append hLinked).1
  rw [h] at hNone
  cases hNone

theorem missed_next_tail (s : RoughLockFreeQueue ι V) (i : ι) (a : Addr) (t : Option V) :
    (s.missed i a t).next (s.missed i a t).tail = some a := by
  change ((s.alloc a t).setNext s.tail a).next s.tail = some a
  rw [setNext_next, Function.update_self]

/-- **Step lemma**: from a queue whose `m_tail` names the last node, an `EnQueue` that returns leaves a
queue of that kind exactly if its compare-exchange on `m_tail` does not fail. -/
theorem enQueueWeak_step (alloc : Allocator ι V) {i : ι} {s' : RoughLockFreeQueue ι V}
    {c : WeakCall V} {ret : Ret V} (h : Stores s l first rest)
    (hCall : enQueueWeak alloc i s c = some (s', ret)) :
    (s'.TailLast → ∃ l' rest', Stores s' l' first rest') ∧ (s'.TailLast ↔ SwingHolds c.fails) := by
  have hFree := alloc.pick_free s
  have hStart : s.step (alloc.start s (.enQueue i c.t)) =
      some ((s.alloc (alloc.pick s) c.t).goto i (.loadTail (alloc.pick s)), none) :=
    if_pos ⟨h.idle i, hFree⟩
  rw [enQueueWeak, hStart] at hCall
  obtain ⟨k, -, hBefore, hHolds, rfl⟩ :=
    finishWeak_enQueue h.next_tail (h.tail_ne hFree) hCall
  have hFirst : SwingHolds c.fails ↔ c.fails (k + 1) = false := by
    constructor
    · intro hSwing
      exact hSwing k (fun j hj => hBefore j (Nat.zero_le j) hj) hHolds
    · intro hSwing j hEarlier hNot
      have hSame : j = k := by
        by_contra hNe
        rcases Nat.lt_or_gt_of_ne hNe with hLt | hGt
        · rw [hBefore j (Nat.zero_le j) hLt] at hNot
          cases hNot
        · rw [hEarlier k hGt] at hHolds
          cases hHolds
      rw [hSame]
      exact hSwing
  rw [hFirst]
  cases hSwing : c.fails (k + 1) with
  | true =>
    have hNot : ¬ (s.missed i (alloc.pick s) c.t).TailLast := not_tailLast (missed_next_tail s i _ _)
    simp only [if_true, Bool.true_eq_false, iff_false]
    exact ⟨fun hLast => absurd hLast hNot, hNot⟩
  | false =>
    have hStores := h.enQueued i c.t hFree
    simp only [Bool.false_eq_true, if_false, iff_true]
    exact ⟨fun _ => ⟨_, _, hStores⟩, hStores.tailLast⟩

/-- While a node is linked behind the one that `m_tail` names, the loop of an `EnQueue` does not end. -/
theorem finishWeak_wedged {fails : ℕ → Bool} {i : ι} {a b : Addr} {v : Option V} {fuel n : ℕ}
    (hNe : s.tail ≠ a) (hNext : s.next s.tail = some b) :
    finishWeak fails i fuel n ((s.alloc a v).goto i (.loadTail a)) = none := by
  induction fuel using Nat.strong_induction_on generalizing n with
  | _ fuel ih =>
  let s₁ := (s.alloc a v).goto i (.link a s.tail)
  have hLoad : ((s.alloc a v).goto i (.loadTail a)).advance i (.loadTail a) = some (s₁, none) := by
    simp [advance, s₁]
  have hLink : s₁.advance i (.link a s.tail) =
      some ((s.alloc a v).goto i (.loadTail a), none) := by
    have hNode : s₁.next s.tail = some b := by
      change (s.alloc a v).next s.tail = some b
      rw [alloc_next, Function.update_of_ne hNe, hNext]
    simp [advance, hNode, s₁]
  cases fuel with
  | zero => rfl
  | succ fuel =>
  rw [finishWeak_step (by simp) rfl hLoad]
  cases fuel with
  | zero => rfl
  | succ fuel =>
  cases hFails : fails n with
  | true =>
    have hBack : s₁.failWeak i = (s.alloc a v).goto i (.loadTail a) := by
      simp [failWeak, s₁]
    rw [finishWeak_fails (by simp [s₁, Pc.isWeak]) hFails, hBack]
    exact ih fuel (by omega)
  | false =>
    rw [finishWeak_weak (by simp [s₁]) rfl hFails hLink]
    exact ih fuel (by omega)

/-- After an `EnQueue` whose compare-exchange on `m_tail` failed, no `EnQueue` returns. -/
theorem enQueueWeak_missed (alloc : Allocator ι V) {i : ι} {a : Addr} {v : Option V}
    (h : Stores s l first rest) (c : WeakCall V) :
    enQueueWeak alloc i (s.missed i a v) c = none := by
  have hLive : s.tail ∈ (s.missed i a v).live :=
    Finset.mem_insert_of_mem (h.live s.tail (List.mem_of_getLast? h.tail))
  have hNe : (s.missed i a v).tail ≠ alloc.pick (s.missed i a v) :=
    ne_of_mem_of_not_mem hLive (alloc.pick_free _)
  have hStart : (s.missed i a v).step (alloc.start (s.missed i a v) (.enQueue i c.t)) =
      some (((s.missed i a v).alloc (alloc.pick (s.missed i a v)) c.t).goto i
        (.loadTail (alloc.pick (s.missed i a v))), none) :=
    if_pos ⟨goto_pc_self _ i .idle, alloc.pick_free _⟩
  rw [enQueueWeak, hStart]
  exact finishWeak_wedged hNe (missed_next_tail s i a v)

/-- After every call of a run `m_tail` names the last node exactly if in no call the compare-exchange
on `m_tail` fails spuriously. -/
theorem tailLast_iff (alloc : Allocator ι V) (i : ι) (node : Addr) {calls : List (WeakCall V)}
    {t : RoughLockFreeQueue ι V} {outs : List (Ret V)}
    (hRun : Machine.run (enQueueWeak alloc i) (fresh node) calls = some (t, outs)) :
    Machine.Throughout (enQueueWeak alloc i) TailLast (fresh node) calls ↔
      ∀ c ∈ calls, SwingHolds c.fails := by
  rw [Machine.throughout_iff (I := fun s => s.TailLast → ∃ l first rest, Stores s l first rest)
    (R := fun _ c => SwingHolds c.fails) _ _ (fresh_stores node).tailLast hRun]
  · exact Machine.along_forall hRun
  · intro s c s' ret hI hHere hCall
    obtain ⟨l, first, rest, hStores⟩ := hI hHere
    obtain ⟨hKeeps, hIff⟩ := enQueueWeak_step alloc hStores hCall
    refine ⟨fun hLast => ?_, hIff⟩
    obtain ⟨l', rest', hNext⟩ := hKeeps hLast
    exact ⟨l', first, rest', hNext⟩
  · exact fun _ => ⟨_, _, _, fresh_stores node⟩

/-- Two calls with two spurious failures of the loop in the first one. -/
theorem tailLast_iff_retried : Machine.Throughout (enQueueWeak lastFit ()) TailLast (fresh 0)
      [⟨some 7, fun n => n < 2, 9⟩, ⟨some 8, fun _ => false, 9⟩] ↔
    ∀ c ∈ [(⟨some 7, fun n => n < 2, 9⟩ : WeakCall ℕ), ⟨some 8, fun _ => false, 9⟩],
      SwingHolds c.fails :=
  tailLast_iff lastFit () 0 rfl

/-- The compare-exchange on `m_tail` of the only call fails spuriously. -/
theorem not_tailLast_throughout : ¬ ∀ (calls : List (WeakCall ℕ)) t outs,
    Machine.run (enQueueWeak lastFit ()) (fresh 0) calls = some (t, outs) →
    Machine.Throughout (enQueueWeak lastFit ()) TailLast (fresh 0) calls := by
  intro h
  let calls : List (WeakCall ℕ) := [⟨some 7, fun n => n = 1, 9⟩]
  obtain ⟨t, outs, hRun⟩ : ∃ t outs,
      Machine.run (enQueueWeak lastFit ()) (fresh 0) calls = some (t, outs) := ⟨_, _, rfl⟩
  have hLast := h calls t outs hRun calls t outs (List.prefix_refl calls) hRun
  obtain ⟨rfl, -⟩ := Prod.mk.inj (Option.some.inj hRun)
  exact not_tailLast (a := 1) rfl hLast

end DemoCode.LockFreeQueue
