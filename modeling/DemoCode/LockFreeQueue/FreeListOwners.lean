import DemoCode.LockFreeQueue.FreeList

/-! Every interleaving of the callers of a `FreeList`.  At any time a node has one owner at most: a
client, the list, or a caller that is about to put it on the list or has just removed it.  A node
without an owner has `SHOULD_BE_ON_FREELIST` set, and the last caller that holds a reference to it
becomes its owner. -/

namespace DemoCode.LockFreeQueue.FreeList

open Links Tally

variable {ι ν : Type*} [DecidableEq ν]

/-- The references to a node that a caller of `try_get` took for itself. -/
def Pc.held (n : ν) : Pc ν → ℕ
  | .loadNext head => if head = n then 1 else 0
  | .swapOut head _ => if head = n then 1 else 0
  | .unref prevHead _ => if prevHead = n then 1 else 0
  | _ => 0

/-- Whether a node is the caller's own. -/
def Pc.owns (n : ν) : Pc ν → ℕ
  | .addRefs node => if node = n then 1 else 0
  | .linkLoad node _ => if node = n then 1 else 0
  | .storeNext node _ _ => if node = n then 1 else 0
  | .storeRefs node _ _ => if node = n then 1 else 0
  | .swapIn node _ _ => if node = n then 1 else 0
  | .addBack node _ _ => if node = n then 1 else 0
  | .checkRefs head => if head = n then 1 else 0
  | .subRefs head => if head = n then 1 else 0
  | _ => 0

/-- What `freeListRefs` of the caller's own node has besides the references that are held. -/
def Pc.base (n : ν) : Pc ν → ℕ
  | .linkLoad node _ => if node = n then 2 ^ 31 else 0
  | .storeNext node _ _ => if node = n then 2 ^ 31 else 0
  | .storeRefs node _ _ => if node = n then 2 ^ 31 else 0
  | .swapIn node _ _ => if node = n then 1 else 0
  | .addBack node _ _ => if node = n then 1 else 0
  | .checkRefs head => if head = n then 2 else 0
  | .subRefs head => if head = n then 2 else 0
  | _ => 0

/-- The node that a caller is at. -/
def Pc.node : Pc ν → Option ν
  | .addRefs node => some node
  | .linkLoad node _ => some node
  | .storeNext node _ _ => some node
  | .storeRefs node _ _ => some node
  | .swapIn node _ _ => some node
  | .addBack node _ _ => some node
  | .loadNext head => some head
  | .swapOut head _ => some head
  | .checkRefs head => some head
  | .subRefs head => some head
  | .unref prevHead _ => some prevHead
  | _ => none

/-- What a caller knows of the link of a node. -/
def Pc.link : Pc ν → Option (ν × Option ν)
  | .storeRefs node head _ => some (node, head)
  | .swapIn node head _ => some (node, head)
  | .swapOut head next => some (head, next)
  | _ => none

/-- A caller is not stopped by the assertion, and takes a reference only where it saw one. -/
def Pc.Sound : Pc ν → Prop
  | .aborted => False
  | .incRefs _ refs => refs &&& refsMask ≠ 0
  | _ => True

theorem Pc.held_le_one (n : ν) (p : Pc ν) : p.held n ≤ 1 := by
  cases p <;> simp only [held, Nat.zero_le] <;> split <;> omega

theorem Pc.base_le (n : ν) (p : Pc ν) : p.base n ≤ 2 ^ 31 * p.owns n := by
  cases p <;> simp only [base, owns, Nat.zero_le] <;> split <;> omega

theorem Pc.elsewhere {p : Pc ν} {n : ν} (h : p.node ≠ some n) :
    p.owns n = 0 ∧ p.base n = 0 ∧ p.held n = 0 := by
  cases p <;> simp_all [node, owns, base, held]

theorem Pc.owns_le_one (n : ν) (p : Pc ν) : p.owns n ≤ 1 := by
  cases p <;> simp only [owns, Nat.zero_le] <;> split <;> omega

theorem Pc.base_cases (n : ν) (p : Pc ν) : p.base n = 2 ^ 31 ∨ p.base n ≤ 2 := by
  cases p <;> simp only [base, Nat.zero_le, or_true] <;> split <;> omega

/-- A caller knows the link of a node that it holds or owns. -/
theorem Pc.link_held {p : Pc ν} {n : ν} {x : Option ν} (h : p.link = some (n, x)) :
    p.held n + p.owns n = 1 := by
  cases p <;> simp_all [link, held, owns]

variable [Fintype ι]

/-- The owners of a node. -/
def owners (s : FreeList ι ν) (l : List ν) (n : ν) : ℕ :=
  (s.out n).toNat + l.count n + total (Pc.owns n) s.pc

/-- The count of a node: one for each caller that holds it, one for the list, two for a caller that
has just removed it, and `SHOULD_BE_ON_FREELIST` as long as it waits or its link is being written,
when nobody holds it. -/
structure Balanced (s : FreeList ι ν) (l : List ν) (n : ν) : Prop where
  owner : owners s l n ≤ 1
  refs : (s.freeListRefs n).toNat = total (Pc.held n) s.pc + total (Pc.base n) s.pc + l.count n +
    2 ^ 31 * (1 - owners s l n)
  waiting : owners s l n = 0 → 0 < total (Pc.held n) s.pc
  quiet : total (Pc.base n) s.pc = 2 ^ 31 → total (Pc.held n) s.pc = 0

/-- The invariant, with the nodes of the list. -/
structure InvAt (s : FreeList ι ν) (l : List ν) : Prop where
  headEq : s.freeListHead = l.head?
  linked : Linked s.freeListNext l
  balanced : ∀ n, Balanced s l n
  knows : ∀ i n x, (s.pc i).link = some (n, x) → s.freeListNext n = x
  sound : ∀ i, (s.pc i).Sound

def Inv (s : FreeList ι ν) : Prop := ∃ l, InvAt s l

variable {s s' : FreeList ι ν} {l l' : List ν} {i : ι} {n : ν} {p : Pc ν}

theorem total_base_le (s : FreeList ι ν) (n : ν) :
    total (Pc.base n) s.pc ≤ 2 ^ 31 * total (Pc.owns n) s.pc :=
  total_le_mul (Pc.base_le n) s.pc

theorem total_held_le (s : FreeList ι ν) (n : ν) : total (Pc.held n) s.pc ≤ Fintype.card ι :=
  total_le_card (Pc.held_le_one n) s.pc

section Balanced

variable [DecidableEq ι]

/-- The owner of a node knows its base. -/
theorem Balanced.total_base (h : Balanced s l n) (hi : (s.pc i).owns n = 1) :
    total (Pc.base n) s.pc = (s.pc i).base n ∧ total (Pc.owns n) s.pc = 1 ∧
      (s.out n).toNat = 0 ∧ l.count n = 0 := by
  have hOwner := h.owner
  have hLe := le_total (Pc.owns n) s.pc i
  rw [owners] at hOwner
  refine ⟨total_eq_of_le_one (fun p hp => ?_) hi (by omega), by omega, by omega, by omega⟩
  have hBase := Pc.base_le n p
  omega

/-- A node is about to be linked, or has no more than two references besides those held. -/
theorem Balanced.base_cases (h : Balanced s l n) :
    total (Pc.base n) s.pc = 2 ^ 31 ∨ total (Pc.base n) s.pc ≤ 2 := by
  rcases Nat.eq_zero_or_pos (total (Pc.owns n) s.pc) with hNone | hPos
  · have hLe := total_base_le s n
    omega
  · obtain ⟨i, hi⟩ := exists_of_total_pos hPos
    have hOne := Pc.owns_le_one n (s.pc i)
    rw [(h.total_base (i := i) (by omega)).1]
    exact Pc.base_cases n (s.pc i)

/-- A node that a step does not concern. -/
theorem Balanced.frame (h : Balanced s l n) (hPc : s'.pc = Function.update s.pc i p)
    (hOut : s'.out n = s.out n) (hRefs : s'.freeListRefs n = s.freeListRefs n)
    (hCount : l'.count n = l.count n) (hOwns : p.owns n = (s.pc i).owns n)
    (hBase : p.base n = (s.pc i).base n) (hHeld : p.held n = (s.pc i).held n) :
    Balanced s' l' n := by
  have hTotals : ∀ f : Pc ν → ℕ, f p = f (s.pc i) → total f s'.pc = total f s.pc := by
    intro f hf
    have hMove := total_update f s.pc i p
    rw [hPc]
    omega
  have hOwners : owners s' l' n = owners s l n := by
    rw [owners, owners, hOut, hCount, hTotals _ hOwns]
  constructor
  · rw [hOwners]
    exact h.owner
  · rw [hRefs, hTotals _ hBase, hTotals _ hHeld, hCount, hOwners]
    exact h.refs
  · rw [hTotals _ hHeld, hOwners]
    exact h.waiting
  · rw [hTotals _ hHeld, hTotals _ hBase]
    exact h.quiet

/-- The totals after one caller has moved. -/
theorem totals_move (s : FreeList ι ν) (i : ι) (p : Pc ν) (n : ν) :
    total (Pc.owns n) (Function.update s.pc i p) + (s.pc i).owns n =
        total (Pc.owns n) s.pc + p.owns n ∧
      total (Pc.base n) (Function.update s.pc i p) + (s.pc i).base n =
        total (Pc.base n) s.pc + p.base n ∧
      total (Pc.held n) (Function.update s.pc i p) + (s.pc i).held n =
        total (Pc.held n) s.pc + p.held n :=
  ⟨total_update _ _ _ _, total_update _ _ _ _, total_update _ _ _ _⟩

end Balanced

section Steps

variable [DecidableEq ι]

/-- A step of a caller that writes no link. -/
theorem InvAt.move (h : InvAt s l) (hPc : s'.pc = Function.update s.pc i p)
    (hNext : s'.freeListNext = s.freeListNext) (hHead : s'.freeListHead = l'.head?)
    (hLinked : Linked s.freeListNext l') (hBalanced : ∀ n, Balanced s' l' n)
    (hKnows : ∀ n x, p.link = some (n, x) → s.freeListNext n = x) (hSound : p.Sound) :
    InvAt s' l' := by
  refine ⟨hHead, hNext ▸ hLinked, hBalanced, fun j n x hj => ?_, fun j => ?_⟩
  · rw [hPc] at hj
    rw [hNext]
    by_cases hji : j = i
    · rw [hji, Function.update_self] at hj
      exact hKnows n x hj
    · rw [Function.update_of_ne hji] at hj
      exact h.knows j n x hj
  · rw [hPc]
    by_cases hji : j = i
    · rw [hji, Function.update_self]
      exact hSound
    · rw [Function.update_of_ne hji]
      exact h.sound j

/-- A caller goes on without a write. -/
theorem InvAt.goto (h : InvAt s l)
    (hSame : ∀ n, p.owns n = (s.pc i).owns n ∧ p.base n = (s.pc i).base n ∧
      p.held n = (s.pc i).held n)
    (hKnows : ∀ n x, p.link = some (n, x) → s.freeListNext n = x) (hSound : p.Sound) :
    InvAt (s.goto i p) l := by
  refine h.move rfl rfl h.headEq h.linked (fun n => ?_) hKnows hSound
  obtain ⟨hOwns, hBase, hHeld⟩ := hSame n
  exact (h.balanced n).frame rfl rfl rfl rfl hOwns hBase hHeld

/-- A step of a caller that concerns the node `c` alone and writes no link. -/
theorem InvAt.moveAt (h : InvAt s l) (c : ν) (hPc : s'.pc = Function.update s.pc i p)
    (hNext : s'.freeListNext = s.freeListNext) (hHead : s'.freeListHead = l'.head?)
    (hLinked : Linked s.freeListNext l') (hOut : ∀ n, n ≠ c → s'.out n = s.out n)
    (hRefs : ∀ n, n ≠ c → s'.freeListRefs n = s.freeListRefs n)
    (hCount : ∀ n, n ≠ c → l'.count n = l.count n) (hOld : ∀ n, (s.pc i).node = some n → n = c)
    (hNew : ∀ n, p.node = some n → n = c) (hHere : Balanced s' l' c)
    (hKnows : ∀ n x, p.link = some (n, x) → s.freeListNext n = x) (hSound : p.Sound) :
    InvAt s' l' := by
  refine h.move hPc hNext hHead hLinked (fun n => ?_) hKnows hSound
  by_cases hn : n = c
  · rw [hn]
    exact hHere
  · obtain ⟨hOwns, hBase, hHeld⟩ := Pc.elsewhere fun hAt => hn (hOld n hAt)
    obtain ⟨hOwns', hBase', hHeld'⟩ := Pc.elsewhere fun hAt => hn (hNew n hAt)
    exact (h.balanced n).frame hPc (hOut n hn) (hRefs n hn) (hCount n hn) (hOwns'.trans hOwns.symm)
      (hBase'.trans hBase.symm) (hHeld'.trans hHeld.symm)

/-- A step of a caller that concerns the node `c` alone and writes its count. -/
theorem InvAt.setRefs (h : InvAt s l) {c : ν} {refs : UInt32}
    (hOld : (s.pc i).node = some c) (hNew : ∀ n, p.node = some n → n = c)
    (hHere : Balanced ((s.setRefs c refs).goto i p) l c)
    (hKnows : ∀ n x, p.link = some (n, x) → s.freeListNext n = x) (hSound : p.Sound) :
    InvAt ((s.setRefs c refs).goto i p) l := by
  refine h.moveAt c rfl rfl h.headEq h.linked (fun _ _ => rfl) (fun n hn => ?_) (fun _ _ => rfl)
    (fun n hn => ?_) hNew hHere hKnows hSound
  · exact Function.update_of_ne hn _ _
  · exact Option.some.inj (hn.symm.trans hOld)

end Steps

end DemoCode.LockFreeQueue.FreeList
