import DemoCode.LockFreeQueue.FreeListOwners
import Mathlib.Data.Nat.Bitwise

/-! The steps of the callers of a `FreeList` keep its invariant. -/

namespace DemoCode.LockFreeQueue.FreeList

open Links Tally

variable {ι ν : Type*} [DecidableEq ι]
variable {s : FreeList ι ν} {l : List ν} {i : ι} {c : ν} {k : Caller ν} {head : Option ν}

/-! ### Numbers of 32 bits -/

@[simp] theorem shouldBe_toNat : shouldBeOnFreelist.toNat = 2 ^ 31 := rfl

theorem add_shouldBe {r : UInt32} (h : r.toNat < 2 ^ 31) :
    (r + shouldBeOnFreelist).toNat = r.toNat + 2 ^ 31 := by
  simp only [UInt32.toNat_add, shouldBeOnFreelist, UInt32.reduceToNat]
  omega

theorem add_shouldBe_sub_one {r : UInt32} (h : r.toNat ≤ 2 ^ 31) :
    (r + (shouldBeOnFreelist - 1)).toNat = r.toNat + 2147483647 := by
  simp only [UInt32.toNat_add, shouldBeOnFreelist, UInt32.reduceSub, UInt32.reduceToNat]
  omega

theorem toNat_add_one {r : UInt32} (h : r.toNat < 2 ^ 32 - 1) : (r + 1).toNat = r.toNat + 1 := by
  simp only [UInt32.toNat_add, UInt32.reduceToNat]
  omega

theorem toNat_sub_one {r : UInt32} (h : 1 ≤ r.toNat) : (r - 1).toNat = r.toNat - 1 :=
  UInt32.toNat_sub_of_le r 1 (UInt32.le_iff_toNat_le.mpr h)

theorem toNat_sub_two {r : UInt32} (h : 2 ≤ r.toNat) : (r - 2).toNat = r.toNat - 2 :=
  UInt32.toNat_sub_of_le r 2 (UInt32.le_iff_toNat_le.mpr h)

/-- No reference is counted. -/
theorem and_refsMask {r : UInt32} : r &&& refsMask = 0 ↔ r.toNat % 2 ^ 31 = 0 := by
  rw [← UInt32.toNat_inj, UInt32.toNat_and, show refsMask.toNat = 2 ^ 31 - 1 from rfl,
    Nat.and_two_pow_sub_one_eq_mod]
  rfl

/-- `SHOULD_BE_ON_FREELIST` is not set. -/
theorem and_shouldBe {r : UInt32} (h : r.toNat < 2 ^ 31) : r &&& shouldBeOnFreelist = 0 := by
  rw [← UInt32.toNat_inj, UInt32.toNat_and, show shouldBeOnFreelist.toNat = 2 ^ 31 from rfl,
    Nat.and_two_pow, Nat.testBit_lt_two_pow h]
  rfl

/-! ### Places without a node -/

/-- The place of a caller that holds and owns no node. -/
def Pc.Free (p : Pc ν) : Prop := p.node = none ∧ p.link = none ∧ p.Sound

theorem loop_goto (s : FreeList ι ν) (i : ι) (head : Option ν) :
    ∃ p, p.Free ∧ (s.loop i head).1 = s.goto i p := by
  cases head with
  | none => exact ⟨.idle, ⟨rfl, rfl, trivial⟩, rfl⟩
  | some head => exact ⟨.loadRefs head, ⟨rfl, rfl, trivial⟩, rfl⟩

theorem leave_goto (s : FreeList ι ν) (i : ι) (k : Caller ν) :
    ∃ p, p.Free ∧ (s.leave i k).1 = s.goto i p := by
  cases k with
  | add => exact ⟨.idle, ⟨rfl, rfl, trivial⟩, rfl⟩
  | tryGet head => exact loop_goto s i head

theorem Pc.Free.no_link {p : Pc ν} {x : Option ν} {n : ν} (h : p.Free) :
    p.link ≠ some (n, x) := by
  rw [h.2.1]
  exact (Option.some_ne_none _).symm

variable [DecidableEq ν]

theorem Pc.Free.elsewhere {p : Pc ν} (h : p.Free) (n : ν) :
    p.owns n = 0 ∧ p.base n = 0 ∧ p.held n = 0 :=
  Pc.elsewhere (by rw [h.1]; exact (Option.some_ne_none n).symm)

variable [Fintype ι]

/-! ### A caller adds a node -/

theorem InvAt.add (h : InvAt s l) (hi : s.pc i = .idle) (hOut : s.out c = true) :
    InvAt ({ s with out := Function.update s.out c false }.goto i (.addRefs c)) l := by
  have hHere := h.balanced c
  have hOwner := hHere.owner
  have hRefs := hHere.refs
  obtain ⟨hO, hB, hH⟩ := totals_move s i (.addRefs c) c
  refine h.moveAt (i := i) (p := .addRefs c) c rfl rfl h.headEq h.linked
    (fun n hn => Function.update_of_ne hn _ _) (fun _ _ => rfl) (fun _ _ => rfl)
    (by simp [hi, Pc.node]) (by simp [Pc.node, eq_comm]) ?_ (by simp [Pc.link]) trivial
  have hBase := total_base_le s c
  simp only [hi, Pc.owns, Pc.base, Pc.held, owners, hOut, if_true, Bool.toNat_true] at *
  constructor <;> simp [owners] <;> omega

/-- The first writer of `SHOULD_BE_ON_FREELIST` finds no references. -/
theorem InvAt.addRefs_last (h : InvAt s l) (hi : s.pc i = .addRefs c)
    (hZero : s.freeListRefs c = 0) :
    InvAt ((s.setRefs c (s.freeListRefs c + shouldBeOnFreelist)).goto i (.linkLoad c .add)) l := by
  have hHere := h.balanced c
  have hRefs := hHere.refs
  obtain ⟨hBase, hOwns, hOut, hCount⟩ := hHere.total_base (i := i) (by simp [hi, Pc.owns])
  obtain ⟨hO, hB, hH⟩ := totals_move s i (.linkLoad c .add) c
  refine h.setRefs (by simp [hi, Pc.node]) (by simp [Pc.node, eq_comm]) ?_ (by simp [Pc.link])
    trivial
  simp only [hi, Pc.owns, Pc.base, Pc.held, owners, if_true, hZero, UInt32.toNat_zero] at *
  constructor <;> simp [owners] <;> omega

/-- Somebody still holds the node, and is to put it on the list. -/
theorem InvAt.addRefs_held (h : InvAt s l) (hCard : Fintype.card ι < 2 ^ 31)
    (hi : s.pc i = .addRefs c) (hNe : s.freeListRefs c ≠ 0) :
    InvAt ((s.setRefs c (s.freeListRefs c + shouldBeOnFreelist)).goto i .idle) l := by
  have hHere := h.balanced c
  have hRefs := hHere.refs
  obtain ⟨hBase, hOwns, hOut, hCount⟩ := hHere.total_base (i := i) (by simp [hi, Pc.owns])
  obtain ⟨hO, hB, hH⟩ := totals_move s i .idle c
  have hLe := total_held_le s c
  have hPos : (s.freeListRefs c).toNat ≠ 0 := fun hEq => hNe (UInt32.toNat_inj.mp hEq)
  refine h.setRefs (by simp [hi, Pc.node]) (by simp [Pc.node]) ?_ (by simp [Pc.link]) trivial
  simp only [hi, Pc.owns, Pc.base, Pc.held, owners, if_true] at *
  have hNew := add_shouldBe (r := s.freeListRefs c) (by omega)
  constructor <;> simp [owners, hNew] <;> omega

/-! ### A caller puts its node on the list -/

/-- The link of a node is written while nobody else knows of it. -/
theorem InvAt.storeNext (h : InvAt s l) (hi : s.pc i = .storeNext c head k) :
    InvAt ((s.setNext c head).goto i (.storeRefs c head k)) l := by
  have hHere := h.balanced c
  obtain ⟨hBase, hOwns, hOut, hCount⟩ := hHere.total_base (i := i) (by simp [hi, Pc.owns])
  have hQuiet := hHere.quiet (by simp [hBase, hi, Pc.base])
  refine ⟨h.headEq, linked_update h.linked (List.count_eq_zero.mp hCount), fun n => ?_,
    fun j n x hj => ?_, fun j => ?_⟩
  · refine (h.balanced n).frame (i := i) (p := .storeRefs c head k) rfl rfl rfl rfl ?_ ?_ ?_ <;>
      simp [hi, Pc.owns, Pc.base, Pc.held]
  · by_cases hji : j = i
    · simp only [hji, goto_pc, Function.update_self, Pc.link, Option.some.injEq, Prod.mk.injEq] at hj
      simp [← hj.1, ← hj.2]
    · simp only [goto_pc, Function.update_of_ne hji, setNext_pc] at hj
      have hKnown := h.knows j n x hj
      have hNode : n ≠ c := by
        rintro rfl
        have hHolds := Pc.link_held hj
        have hHeld := le_total (Pc.held n) s.pc j
        have hPair := add_le_total (Pc.owns n) s.pc hji
        have hOwn : (s.pc i).owns n = 1 := by simp [hi, Pc.owns]
        omega
      simpa [Function.update_of_ne hNode] using hKnown
  · by_cases hji : j = i
    · simp [hji, Pc.Sound]
    · simpa [Function.update_of_ne hji] using h.sound j

theorem InvAt.storeRefs (h : InvAt s l) (hi : s.pc i = .storeRefs c head k) :
    InvAt ((s.setRefs c 1).goto i (.swapIn c head k)) l := by
  have hHere := h.balanced c
  have hRefs := hHere.refs
  obtain ⟨hBase, hOwns, hOut, hCount⟩ := hHere.total_base (i := i) (by simp [hi, Pc.owns])
  have hQuiet := hHere.quiet (by simp [hBase, hi, Pc.base])
  obtain ⟨hO, hB, hH⟩ := totals_move s i (.swapIn c head k) c
  have hKnows := h.knows i c head (by simp [hi, Pc.link])
  refine h.setRefs (by simp [hi, Pc.node]) (by simp [Pc.node, eq_comm]) ?_
    (by rintro n x ⟨⟩; exact hKnows) trivial
  simp only [hi, Pc.owns, Pc.base, Pc.held, owners, if_true] at *
  constructor <;> simp [owners] <;> omega

theorem InvAt.swapIn (h : InvAt s l) (hi : s.pc i = .swapIn c head k)
    (hHead : s.freeListHead = head) :
    InvAt ({ s with freeListHead := some c }.leave i k).1 (c :: l) := by
  have hHere := h.balanced c
  have hRefs := hHere.refs
  obtain ⟨hBase, hOwns, hOut, hCount⟩ := hHere.total_base (i := i) (by simp [hi, Pc.owns])
  have hKnows := h.knows i c head (by simp [hi, Pc.link])
  obtain ⟨p, hFree, hLeave⟩ := leave_goto { s with freeListHead := some c } i k
  obtain ⟨hpOwns, hpBase, hpHeld⟩ := hFree.elsewhere c
  obtain ⟨hO, hB, hH⟩ := totals_move s i p c
  rw [hLeave]
  refine h.moveAt (i := i) c rfl rfl rfl ⟨?_, h.linked⟩ (fun _ _ => rfl) (fun _ _ => rfl)
    (fun n hn => List.count_cons_of_ne hn.symm) (by simp [hi, Pc.node, eq_comm])
    (by simp [hFree.1]) ?_ (fun n x hp => absurd hp hFree.no_link) hFree.2.2
  · rw [hKnows, ← hHead]
    exact h.headEq
  · simp only [hi, Pc.owns, Pc.base, Pc.held, owners, if_true] at *
    constructor <;> simp [owners, List.count_cons_self] <;> omega

theorem InvAt.addBack_last (h : InvAt s l) (hi : s.pc i = .addBack c head k)
    (hOne : s.freeListRefs c = 1) :
    InvAt ((s.setRefs c (s.freeListRefs c + (shouldBeOnFreelist - 1))).goto i
      (.storeNext c head k)) l := by
  have hHere := h.balanced c
  have hRefs := hHere.refs
  obtain ⟨hBase, hOwns, hOut, hCount⟩ := hHere.total_base (i := i) (by simp [hi, Pc.owns])
  obtain ⟨hO, hB, hH⟩ := totals_move s i (.storeNext c head k) c
  refine h.setRefs (by simp [hi, Pc.node]) (by simp [Pc.node, eq_comm]) ?_ (by simp [Pc.link])
    trivial
  simp only [hi, Pc.owns, Pc.base, Pc.held, owners, if_true, hOne, UInt32.toNat_one] at *
  have hLeft : (shouldBeOnFreelist - 1).toNat = 2 ^ 31 - 1 := rfl
  constructor <;> simp [owners] <;> omega

theorem InvAt.addBack_held (h : InvAt s l) (hCard : Fintype.card ι + 2 < 2 ^ 31)
    (hi : s.pc i = .addBack c head k) (hNe : s.freeListRefs c ≠ 1) :
    InvAt ((s.setRefs c (s.freeListRefs c + (shouldBeOnFreelist - 1))).leave i k).1 l := by
  have hHere := h.balanced c
  have hRefs := hHere.refs
  obtain ⟨hBase, hOwns, hOut, hCount⟩ := hHere.total_base (i := i) (by simp [hi, Pc.owns])
  have hLe := total_held_le s c
  have hOther : (s.freeListRefs c).toNat ≠ 1 := fun hEq => hNe (UInt32.toNat_inj.mp hEq)
  simp only [hi, Pc.base, owners, if_true] at hBase hRefs
  have hNew := add_shouldBe_sub_one (r := s.freeListRefs c) (by omega)
  generalize s.freeListRefs c + (shouldBeOnFreelist - 1) = refs at hNew ⊢
  obtain ⟨p, hFree, hLeave⟩ := leave_goto (s.setRefs c refs) i k
  obtain ⟨hpOwns, hpBase, hpHeld⟩ := hFree.elsewhere c
  obtain ⟨hO, hB, hH⟩ := totals_move s i p c
  rw [hLeave]
  refine h.setRefs (by simp [hi, Pc.node]) (by simp [hFree.1]) ?_
    (fun n x hp => absurd hp hFree.no_link) hFree.2.2
  rw [hpOwns] at hO
  rw [hpBase] at hB
  rw [hpHeld] at hH
  simp only [hi, Pc.owns, Pc.base, Pc.held, if_true] at hO hB hH
  constructor <;> simp [owners, hNew] <;> omega

/-! ### A caller takes a node -/

/-- A caller without a node goes on to a place without a node. -/
theorem InvAt.free (h : InvAt s l) {p : Pc ν} (hi : (s.pc i).node = none) (hNode : p.node = none)
    (hLink : p.link = none) (hSound : p.Sound) : InvAt (s.goto i p) l := by
  refine h.goto (fun n => ?_) (fun n x hp => absurd (hLink.symm.trans hp) ?_) hSound
  · have hOld := Pc.elsewhere (p := s.pc i) (n := n) (by rw [hi]; exact (Option.some_ne_none n).symm)
    have hNew := Pc.elsewhere (p := p) (n := n) (by rw [hNode]; exact (Option.some_ne_none n).symm)
    omega
  · exact (Option.some_ne_none _).symm

/-- A node with a reference is not one whose link is being written. -/
theorem InvAt.incRefs (h : InvAt s l) (hCard : Fintype.card ι + 2 < 2 ^ 31) {refs : UInt32}
    (hi : s.pc i = .incRefs c refs) (hSame : s.freeListRefs c = refs) :
    InvAt ((s.setRefs c (refs + 1)).goto i (.loadNext c)) l := by
  have hHere := h.balanced c
  have hOwner := hHere.owner
  have hRefs := hHere.refs
  have hWait := hHere.waiting
  have hQuiet := hHere.quiet
  have hLe := total_held_le s c
  have hBase := total_base_le s c
  obtain ⟨hO, hB, hH⟩ := totals_move s i (.loadNext c) c
  have hSound : refs.toNat % 2 ^ 31 ≠ 0 := by
    have hSeen := h.sound i
    rw [hi] at hSeen
    exact fun hZero => hSeen (and_refsMask.mpr hZero)
  refine h.moveAt (i := i) c rfl rfl h.headEq h.linked (fun _ _ => rfl)
    (fun n hn => Function.update_of_ne hn _ _) (fun _ _ => rfl) (by simp [hi, Pc.node])
    (by simp [Pc.node, eq_comm]) ?_ (by simp [Pc.link]) trivial
  simp only [hi, Pc.owns, Pc.base, Pc.held, owners, if_true, hSame] at *
  have hNew := toNat_add_one (r := refs) (by omega)
  constructor <;> simp [owners, hNew] <;> omega

theorem InvAt.loadNext (h : InvAt s l) (hi : s.pc i = .loadNext c) :
    InvAt (s.goto i (.swapOut c (s.freeListNext c))) l := by
  refine h.goto (fun n => ?_) (by rintro n x ⟨⟩; rfl) trivial
  simp [hi, Pc.owns, Pc.base, Pc.held]

theorem InvAt.swapOut (h : InvAt s l) {next : Option ν} (hi : s.pc i = .swapOut c next)
    (hHead : s.freeListHead = some c) :
    ∃ rest, l = c :: rest ∧
      InvAt ({ s with freeListHead := next }.goto i (.checkRefs c)) rest := by
  obtain ⟨rest, rfl⟩ := List.head?_eq_some_iff.mp (h.headEq.symm.trans hHead)
  have hHere := h.balanced c
  have hOwner := hHere.owner
  have hRefs := hHere.refs
  have hBase := total_base_le s c
  obtain ⟨hO, hB, hH⟩ := totals_move s i (.checkRefs c) c
  have hKnows := h.knows i c next (by simp [hi, Pc.link])
  refine ⟨rest, rfl, h.moveAt (i := i) c rfl rfl ?_ h.linked.2 (fun _ _ => rfl) (fun _ _ => rfl)
    (fun n hn => (List.count_cons_of_ne hn.symm).symm) (by simp [hi, Pc.node, eq_comm])
    (by simp [Pc.node, eq_comm]) ?_ (by simp [Pc.link]) trivial⟩
  · rw [← h.linked.1, hKnows]
    rfl
  · simp only [hi, Pc.owns, Pc.base, Pc.held, owners, if_true, List.count_cons_self] at *
    constructor <;> simp [owners] <;> omega

theorem InvAt.swapOut_fails (h : InvAt s l) {next : Option ν} (hi : s.pc i = .swapOut c next) :
    InvAt (s.goto i (.unref c s.freeListHead)) l := by
  refine h.goto (fun n => ?_) (by simp [Pc.link]) trivial
  simp [hi, Pc.owns, Pc.base, Pc.held]

/-- The assertion holds. -/
theorem InvAt.assertion (h : InvAt s l) (hCard : Fintype.card ι + 2 < 2 ^ 31)
    (hi : s.pc i = .checkRefs c) : s.freeListRefs c &&& shouldBeOnFreelist = 0 := by
  have hHere := h.balanced c
  have hRefs := hHere.refs
  obtain ⟨hBase, hOwns, hOut, hCount⟩ := hHere.total_base (i := i) (by simp [hi, Pc.owns])
  have hLe := total_held_le s c
  simp only [hi, Pc.base, if_true, owners] at hBase hRefs
  exact and_shouldBe (by omega)

theorem InvAt.checkRefs (h : InvAt s l) (hi : s.pc i = .checkRefs c) :
    InvAt (s.goto i (.subRefs c)) l := by
  refine h.goto (fun n => ?_) (by simp [Pc.link]) trivial
  simp [hi, Pc.owns, Pc.base, Pc.held]

theorem InvAt.subRefs (h : InvAt s l) (hi : s.pc i = .subRefs c) :
    s.out c = false ∧
      InvAt ({ s.setRefs c (s.freeListRefs c - 2) with
        out := Function.update s.out c true }.goto i .idle) l := by
  have hHere := h.balanced c
  have hRefs := hHere.refs
  obtain ⟨hBase, hOwns, hOut, hCount⟩ := hHere.total_base (i := i) (by simp [hi, Pc.owns])
  obtain ⟨hO, hB, hH⟩ := totals_move s i .idle c
  refine ⟨by simpa using hOut, h.moveAt (i := i) (p := .idle) c rfl rfl h.headEq h.linked
    (fun n hn => Function.update_of_ne hn _ _) (fun n hn => Function.update_of_ne hn _ _)
    (fun _ _ => rfl) (by simp [hi, Pc.node, eq_comm]) (by simp [Pc.node]) ?_ (by simp [Pc.link])
    trivial⟩
  simp only [hi, Pc.owns, Pc.base, Pc.held, owners, if_true] at *
  have hNew := toNat_sub_two (r := s.freeListRefs c) (by omega)
  constructor <;> simp [owners, hNew] <;> omega

/-- Who drops the last reference to a node that is to be put on the list becomes its owner. -/
theorem InvAt.unref_last (h : InvAt s l) (hCard : Fintype.card ι + 2 < 2 ^ 31)
    (hi : s.pc i = .unref c head) (hLast : s.freeListRefs c = shouldBeOnFreelist + 1) :
    InvAt ((s.setRefs c (s.freeListRefs c - 1)).goto i (.linkLoad c (.tryGet head))) l := by
  have hHere := h.balanced c
  have hOwner := hHere.owner
  have hRefs := hHere.refs
  have hQuiet := hHere.quiet
  have hLe := total_held_le s c
  have hHeld := le_total (Pc.held c) s.pc i
  obtain ⟨hO, hB, hH⟩ := totals_move s i (.linkLoad c (.tryGet head)) c
  have hNumber : (s.freeListRefs c).toNat = 2 ^ 31 + 1 := by rw [hLast]; rfl
  refine h.setRefs (by simp [hi, Pc.node]) (by simp [Pc.node, eq_comm]) ?_ (by simp [Pc.link])
    trivial
  have hCases := hHere.base_cases
  have hNew := toNat_sub_one (r := s.freeListRefs c) (by omega)
  simp only [hi, Pc.owns, Pc.base, Pc.held, owners, if_true] at *
  constructor <;> simp [owners, hNew] <;> omega

theorem InvAt.unref_held (h : InvAt s l) (hi : s.pc i = .unref c head)
    (hNot : s.freeListRefs c ≠ shouldBeOnFreelist + 1) :
    InvAt ((s.setRefs c (s.freeListRefs c - 1)).loop i head).1 l := by
  have hHere := h.balanced c
  have hOwner := hHere.owner
  have hRefs := hHere.refs
  have hWait := hHere.waiting
  have hQuiet := hHere.quiet
  have hHeld := le_total (Pc.held c) s.pc i
  have hLe := total_base_le s c
  have hNumber : (s.freeListRefs c).toNat ≠ 2 ^ 31 + 1 := fun hEq => hNot (UInt32.toNat_inj.mp hEq)
  simp only [hi, Pc.held, owners, if_true] at hOwner hRefs hWait hHeld
  have hNew := toNat_sub_one (r := s.freeListRefs c) (by omega)
  obtain ⟨p, hFree, hLoop⟩ := loop_goto (s.setRefs c (s.freeListRefs c - 1)) i head
  obtain ⟨hpOwns, hpBase, hpHeld⟩ := hFree.elsewhere c
  obtain ⟨hO, hB, hH⟩ := totals_move s i p c
  rw [hLoop]
  refine h.setRefs (by simp [hi, Pc.node]) (by simp [hFree.1]) ?_
    (fun n x hp => absurd hp hFree.no_link) hFree.2.2
  rw [hpOwns] at hO
  rw [hpBase] at hB
  rw [hpHeld] at hH
  simp only [hi, Pc.owns, Pc.base, Pc.held, if_true] at hO hB hH
  constructor <;> simp only [owners, goto_pc, goto_out, goto_freeListRefs, setRefs_pc, setRefs_out,
    setRefs_freeListRefs, Function.update_self, hNew] <;> omega

/-! ### Runs -/

/-- How often a call adds a node. -/
def adds (n : ν) : Event ι ν → ℕ
  | .add _ node => if node = n then 1 else 0
  | _ => 0

/-- How often a call that returns gets a node. -/
def gets (n : ν) : Option (Ret ν) → ℕ
  | some (.tryGet (some node)) => if node = n then 1 else 0
  | _ => 0

/-- How often a node was added. -/
def added (n : ν) (evs : List (Event ι ν)) : ℕ := (evs.map (adds n)).sum

/-- How often `try_get` has returned a node. -/
def returned (n : ν) (outs : List (Option (Ret ν))) : ℕ := (outs.map (gets n)).sum

omit [Fintype ι] in
theorem loop_out (s : FreeList ι ν) (i : ι) (head : Option ν) (n : ν) :
    ((s.loop i head).1.out n).toNat = (s.out n).toNat + gets n (s.loop i head).2 := by
  cases head <;> rfl

omit [Fintype ι] in
theorem leave_out (s : FreeList ι ν) (i : ι) (k : Caller ν) (n : ν) :
    ((s.leave i k).1.out n).toNat = (s.out n).toNat + gets n (s.leave i k).2 := by
  cases k with
  | add => rfl
  | tryGet head => exact loop_out s i head n

/-- Every step of a caller keeps the invariant, and gives a client no node but one that it returns
and that no client has. -/
theorem Inv.resume (h : s.Inv) (hCard : Fintype.card ι + 2 < 2 ^ 31) {s' : FreeList ι ν}
    {ret : Option (Ret ν)} (hStep : s.resume i = some (s', ret)) :
    s'.Inv ∧ ∀ n, (s'.out n).toNat = (s.out n).toNat + gets n ret := by
  obtain ⟨l, h⟩ := h
  cases hi : s.pc i with
  | idle => simp [FreeList.resume, hi] at hStep
  | aborted => simp [FreeList.resume, hi] at hStep
  | addRefs node =>
    simp only [FreeList.resume, hi] at hStep
    split at hStep
    · next hZero =>
      cases hStep
      exact ⟨⟨l, h.addRefs_last hi hZero⟩, fun _ => rfl⟩
    · next hNe =>
      cases hStep
      exact ⟨⟨l, h.addRefs_held (by omega) hi hNe⟩, fun _ => rfl⟩
  | linkLoad node k =>
    simp only [FreeList.resume, hi] at hStep
    cases hStep
    exact ⟨⟨l, h.goto (by simp [hi, Pc.owns, Pc.base, Pc.held]) (by simp [Pc.link]) trivial⟩, fun _ => rfl⟩
  | storeNext node head k =>
    simp only [FreeList.resume, hi] at hStep
    cases hStep
    exact ⟨⟨l, h.storeNext hi⟩, fun _ => rfl⟩
  | storeRefs node head k =>
    simp only [FreeList.resume, hi] at hStep
    cases hStep
    exact ⟨⟨l, h.storeRefs hi⟩, fun _ => rfl⟩
  | swapIn node head k =>
    simp only [FreeList.resume, hi] at hStep
    split at hStep
    · next hHead =>
      obtain ⟨rfl, rfl⟩ := Prod.ext_iff.mp (Option.some.inj hStep)
      exact ⟨⟨node :: l, h.swapIn hi hHead⟩, leave_out _ i k⟩
    · cases hStep
      exact ⟨⟨l, h.goto (by simp [hi, Pc.owns, Pc.base, Pc.held]) (by simp [Pc.link]) trivial⟩, fun _ => rfl⟩
  | addBack node head k =>
    simp only [FreeList.resume, hi] at hStep
    split at hStep
    · next hOne =>
      cases hStep
      exact ⟨⟨l, h.addBack_last hi hOne⟩, fun _ => rfl⟩
    · next hNe =>
      obtain ⟨rfl, rfl⟩ := Prod.ext_iff.mp (Option.some.inj hStep)
      exact ⟨⟨l, h.addBack_held hCard hi hNe⟩, leave_out _ i k⟩
  | getLoad =>
    simp only [FreeList.resume, hi] at hStep
    obtain ⟨rfl, rfl⟩ := Prod.ext_iff.mp (Option.some.inj hStep)
    obtain ⟨p, hFree, hLoop⟩ := loop_goto s i s.freeListHead
    refine ⟨⟨l, ?_⟩, loop_out s i s.freeListHead⟩
    rw [hLoop]
    exact h.free (by simp [hi, Pc.node]) hFree.1 hFree.2.1 hFree.2.2
  | loadRefs head =>
    simp only [FreeList.resume, hi] at hStep
    split at hStep
    · cases hStep
      exact ⟨⟨l, h.free (by simp [hi, Pc.node]) rfl rfl trivial⟩, fun _ => rfl⟩
    · next hSome =>
      cases hStep
      exact ⟨⟨l, h.free (by simp [hi, Pc.node]) rfl rfl hSome⟩, fun _ => rfl⟩
  | incRefs head refs =>
    simp only [FreeList.resume, hi] at hStep
    split at hStep
    · next hSame =>
      cases hStep
      exact ⟨⟨l, h.incRefs hCard hi hSame⟩, fun _ => rfl⟩
    · cases hStep
      exact ⟨⟨l, h.free (by simp [hi, Pc.node]) rfl rfl trivial⟩, fun _ => rfl⟩
  | loadNext head =>
    simp only [FreeList.resume, hi] at hStep
    cases hStep
    exact ⟨⟨l, h.loadNext hi⟩, fun _ => rfl⟩
  | swapOut head next =>
    simp only [FreeList.resume, hi] at hStep
    split at hStep
    · next hHead =>
      cases hStep
      obtain ⟨rest, -, hRest⟩ := h.swapOut hi hHead
      exact ⟨⟨rest, hRest⟩, fun _ => rfl⟩
    · cases hStep
      exact ⟨⟨l, h.swapOut_fails hi⟩, fun _ => rfl⟩
  | checkRefs head =>
    simp only [FreeList.resume, hi, h.assertion hCard hi, if_true] at hStep
    cases hStep
    exact ⟨⟨l, h.checkRefs hi⟩, fun _ => rfl⟩
  | subRefs head =>
    simp only [FreeList.resume, hi] at hStep
    cases hStep
    obtain ⟨hOut, hNext⟩ := h.subRefs hi
    refine ⟨⟨l, hNext⟩, fun n => ?_⟩
    by_cases hn : n = head
    · simp [hn, gets, hOut]
    · simp [gets, hn, Ne.symm hn]
  | unref prevHead head =>
    simp only [FreeList.resume, hi] at hStep
    split at hStep
    · next hLast =>
      cases hStep
      exact ⟨⟨l, h.unref_last hCard hi hLast⟩, fun _ => rfl⟩
    · next hNot =>
      obtain ⟨rfl, rfl⟩ := Prod.ext_iff.mp (Option.some.inj hStep)
      exact ⟨⟨l, h.unref_held hi hNot⟩, loop_out _ i head⟩

omit [DecidableEq ι] in
theorem inv_fresh : (fresh : FreeList ι ν).Inv := by
  have hNone : ∀ f : Pc ν → ℕ, f .idle = 0 → total f (fresh : FreeList ι ν).pc = 0 :=
    fun f hf => total_eq_zero fun _ => hf
  refine ⟨[], rfl, trivial, fun n => ?_, fun i n x hi => ?_, fun i => trivial⟩
  · have hOwns := hNone (Pc.owns n) rfl
    have hBase := hNone (Pc.base n) rfl
    have hHeld := hNone (Pc.held n) rfl
    constructor <;> simp only [owners, hOwns, hBase, hHeld] <;> simp [fresh]
  · exact absurd hi (Option.some_ne_none _).symm

/-- Every step keeps the invariant, and a client that adds a node has it no more. -/
theorem Inv.step (h : s.Inv) (hCard : Fintype.card ι + 2 < 2 ^ 31) {s' : FreeList ι ν}
    {ev : Event ι ν} {ret : Option (Ret ν)} (hStep : s.step ev = some (s', ret)) :
    s'.Inv ∧ ∀ n, (s'.out n).toNat + adds n ev = (s.out n).toNat + gets n ret := by
  cases ev with
  | add i node =>
    obtain ⟨⟨hi, hOut⟩, hEq⟩ := Option.ite_none_right_eq_some.mp hStep
    cases hEq
    obtain ⟨l, h⟩ := h
    refine ⟨⟨l, h.add hi hOut⟩, fun n => ?_⟩
    by_cases hn : n = node
    · simp [hn, adds, gets, hOut]
    · simp [adds, gets, hn, Ne.symm hn]
  | tryGet i =>
    obtain ⟨hi, hEq⟩ := Option.ite_none_right_eq_some.mp hStep
    cases hEq
    obtain ⟨l, h⟩ := h
    exact ⟨⟨l, h.free (by simp [hi, Pc.node]) rfl rfl trivial⟩, fun _ => rfl⟩
  | step i => exact h.resume hCard hStep

theorem inv_run (hCard : Fintype.card ι + 2 < 2 ^ 31) (h : s.Inv) {t : FreeList ι ν}
    {evs : List (Event ι ν)} {outs : List (Option (Ret ν))}
    (hRun : Machine.run FreeList.step s evs = some (t, outs)) :
    t.Inv ∧ ∀ n, (t.out n).toNat + added n evs = (s.out n).toNat + returned n outs := by
  induction evs generalizing s outs with
  | nil =>
    cases hRun
    exact ⟨h, fun _ => rfl⟩
  | cons ev evs ih =>
    obtain ⟨s', ret, outs', hStep, hRest, rfl⟩ := Machine.run_cons hRun
    obtain ⟨hNext, hHere⟩ := h.step hCard hStep
    obtain ⟨hEnd, hLater⟩ := ih hNext hRest
    refine ⟨hEnd, fun n => ?_⟩
    have hFirst := hHere n
    have hAll := hLater n
    simp only [added, returned, List.map_cons, List.sum_cons] at hAll ⊢
    omega

/-- The nodes of the list are linked, in whatever way the steps of the callers alternate; the
assertion of `try_get` holds; and no node is returned more often than it was added. -/
theorem tryGet_exclusive (hCard : Fintype.card ι + 2 < 2 ^ 31) {s : FreeList ι ν}
    {evs : List (Event ι ν)} {outs : List (Option (Ret ν))}
    (hRun : Machine.run FreeList.step fresh evs = some (s, outs)) :
    (∀ i, s.pc i ≠ .aborted) ∧ (∀ n, returned n outs ≤ added n evs) ∧
      ∃ l : List ν, l.Nodup ∧ s.freeListHead = l.head? ∧ Linked s.freeListNext l := by
  obtain ⟨⟨l, h⟩, hCount⟩ := inv_run hCard inv_fresh hRun
  refine ⟨fun i hi => ?_, fun n => ?_, l, ?_, h.headEq, h.linked⟩
  · have hSound := h.sound i
    rw [hi] at hSound
    exact hSound
  · have hn := hCount n
    have hLe := Bool.toNat_le (s.out n)
    simp only [fresh, Bool.toNat_true] at hn
    omega
  · rw [List.nodup_iff_count_le_one]
    intro n
    have hOwner := (h.balanced n).owner
    rw [owners] at hOwner
    omega

/-- One caller adds a node, and the other one takes it. -/
def handOver : List (Event (Fin 2) (Fin 1)) :=
  .add 0 0 :: (List.replicate 5 (.step 0) ++ .tryGet 1 :: List.replicate 7 (.step 1))

theorem tryGet_exclusive_handOver :
    ∃ s outs, Machine.run FreeList.step fresh handOver = some (s, outs) ∧ returned 0 outs = 1 ∧
      (∀ i, s.pc i ≠ .aborted) := by
  have hSome : ((Machine.run FreeList.step fresh handOver).map fun t => returned 0 t.2) = some 1 := by
    decide +kernel
  obtain ⟨⟨s, outs⟩, hRun, hGot⟩ := Option.map_eq_some_iff.mp hSome
  exact ⟨s, outs, hRun, hGot, (tryGet_exclusive (by decide) hRun).1⟩

/-- When no call is going on, the nodes that were added once more than they were returned are on
the list, each with one reference, and the others have none: no node is lost. -/
theorem kept_at_rest (hCard : Fintype.card ι + 2 < 2 ^ 31) {s : FreeList ι ν}
    {evs : List (Event ι ν)} {outs : List (Option (Ret ν))}
    (hRun : Machine.run FreeList.step fresh evs = some (s, outs)) (hRest : ∀ i, s.pc i = .idle) :
    ∃ l : List ν, l.Nodup ∧ s.freeListHead = l.head? ∧ Linked s.freeListNext l ∧
      ∀ n, (n ∈ l ↔ added n evs = returned n outs + 1) ∧
        (n ∉ l ↔ added n evs = returned n outs) ∧
        (s.freeListRefs n).toNat = if n ∈ l then 1 else 0 := by
  obtain ⟨⟨l, h⟩, hCount⟩ := inv_run hCard inv_fresh hRun
  have hNone : ∀ f : Pc ν → ℕ, f .idle = 0 → total f s.pc = 0 :=
    fun f hf => total_eq_zero fun i => by rw [hRest i, hf]
  have hOwner : ∀ n, (s.out n).toNat + l.count n = 1 := by
    intro n
    have hHere := (h.balanced n).owner
    have hWait := (h.balanced n).waiting
    simp only [owners, hNone (Pc.owns n) rfl, hNone (Pc.held n) rfl] at hHere hWait
    omega
  refine ⟨l, ?_, h.headEq, h.linked, fun n => ?_⟩
  · rw [List.nodup_iff_count_le_one]
    intro n
    have hn := hOwner n
    omega
  · have hn := hOwner n
    have hSum := hCount n
    have hRefs := (h.balanced n).refs
    simp only [owners, hNone (Pc.owns n) rfl, hNone (Pc.held n) rfl, hNone (Pc.base n) rfl] at hRefs
    simp only [fresh, Bool.toNat_true] at hSum
    by_cases hIn : n ∈ l
    · have hPos := List.count_pos_iff.mpr hIn
      rw [if_pos hIn]
      exact ⟨iff_of_true hIn (by omega), iff_of_false (not_not.mpr hIn) (by omega), by omega⟩
    · have hZero := List.count_eq_zero.mpr hIn
      rw [if_neg hIn]
      exact ⟨iff_of_false hIn (by omega), iff_of_true hIn (by omega), by omega⟩

/-- Two callers add a node each, the second one after a failed swap. -/
def twoAdds : List (Event (Fin 2) (Fin 2)) :=
  .add 0 0 :: .add 1 1 :: (List.replicate 4 (.step 0) ++ List.replicate 4 (.step 1) ++
    .step 0 :: List.replicate 5 (.step 1))

theorem kept_at_rest_twoAdds :
    ∃ s outs, Machine.run FreeList.step fresh twoAdds = some (s, outs) ∧
      ∃ l : List (Fin 2), l.Nodup ∧ s.freeListHead = l.head? ∧ 1 ∈ l := by
  have hSome : ((Machine.run FreeList.step fresh twoAdds).map fun t =>
      (decide (∀ i, t.1.pc i = .idle), added 1 twoAdds, returned 1 t.2)) = some (true, 1, 0) := by
    decide +kernel
  obtain ⟨⟨s, outs⟩, hRun, hRest⟩ := Option.map_eq_some_iff.mp hSome
  simp only [Prod.mk.injEq, decide_eq_true_eq] at hRest
  obtain ⟨hIdle, hAdded, hReturned⟩ := hRest
  obtain ⟨l, hNodup, hHead, -, hAll⟩ := kept_at_rest (by decide) hRun hIdle
  exact ⟨s, outs, hRun, l, hNodup, hHead, (hAll 1).1.mpr (by rw [hAdded, hReturned])⟩

end DemoCode.LockFreeQueue.FreeList
