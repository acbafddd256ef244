import Mathlib.Data.List.Nodup
import Mathlib.Data.List.Perm.Basic
import DemoCode.Oiwst.TimerCallback

/-! An order gets its status before its confirmation and its deals.  When one of these inserts fails, the
next ticks pass over the order, and the row is never written. -/

namespace DemoCode.Oiwst

variable {env : Env} {s s' t : Tables} {order : Ordwth} {f : Option Fault}

def Ordwth.sent (order : Ordwth) : Bool := order.status = "P"

/-- The confirmation of an order. -/
def Ordwth.confirmation (order : Ordwth) (time : String) : Ordwth2 :=
  { (judge order).1 with time, checkord := "0" }

/-- The deals of an order, but for their numbers and the clock. -/
def Ordwth.deals (env : Env) (order : Ordwth) : List Cjhb :=
  (judge order).2.map fun volume => dealRow env order (judge order).1 0 volume ""

/-- A deal but for its number and the clock. -/
def Cjhb.core (row : Cjhb) : Cjhb := { row with cjbh := 0, cjsj := "" }

/-- Each order that was sent has its one confirmation; the deals are those of the orders that were sent,
and have numbers of their own. -/
structure Settled (env : Env) (s : Tables) : Prop where
  confirmed : ∀ order ∈ s.ordwth, order.status = "P" →
    ∃ time, s.ordwth2.filter (·.recNum = order.recNum) = [order.confirmation time]
  deals : (s.cjhb.map Cjhb.core).Perm ((s.ordwth.filter Ordwth.sent).flatMap (Ordwth.deals env))
  numbers : (s.cjhb.map Cjhb.cjbh).Nodup

/-- What holds while no insert has failed. -/
structure Tidy (env : Env) (s : Tables) : Prop extends Settled env s where
  known : ∀ row ∈ s.ordwth2, ∃ order ∈ s.ordwth, order.status = "P" ∧ order.recNum = row.recNum
  below : ∀ row ∈ s.cjhb, row.cjbh < s.dealNumberSatrt

/-- How many rows the orders that were sent should have in excess of those that are there. -/
def missing (env : Env) (s : Tables) : Int :=
  (s.ordwth.filter Ordwth.sent).length + ((s.ordwth.filter Ordwth.sent).flatMap (Ordwth.deals env)).length -
    (s.ordwth2.length + s.cjhb.length)

/-! ### The status -/

def Ordwth.send (recNum : Int) (order : Ordwth) : Ordwth :=
  if order.recNum = recNum then { order with status := "P" } else order

theorem updateStatus_ordwth (recNum : Int) (s : Tables) :
    (s.updateStatus recNum).ordwth = s.ordwth.map (Ordwth.send recNum) := rfl

@[simp] theorem Ordwth.send_recNum (recNum : Int) (order : Ordwth) :
    (order.send recNum).recNum = order.recNum := by
  rw [Ordwth.send]
  split <;> rfl

theorem Ordwth.send_of_ne {recNum : Int} {order : Ordwth} (h : order.recNum ≠ recNum) :
    order.send recNum = order := if_neg h

theorem Ordwth.send_self (order : Ordwth) :
    order.send order.recNum = { order with status := "P" } := if_pos rfl

theorem Ordwth.deals_status (order : Ordwth) (status : String) :
    Ordwth.deals env { order with status } = order.deals env := rfl

theorem confirmation_recNum (order : Ordwth) (time : String) :
    (order.confirmation time).recNum = order.recNum := by
  simp only [Ordwth.confirmation, judge]
  split_ifs <;> rfl

theorem Ordwth.confirmation_status (order : Ordwth) (status time : String) :
    Ordwth.confirmation { order with status } time = order.confirmation time := rfl

/-- The orders that were sent, when one more is. -/
theorem sent_perm {orders : List Ordwth} (hNodup : (orders.map Ordwth.recNum).Nodup)
    (hIn : order ∈ orders) (hNot : order.status ≠ "P") :
    ((orders.map (Ordwth.send order.recNum)).filter Ordwth.sent).Perm
      ({ order with status := "P" } :: orders.filter Ordwth.sent) := by
  induction orders with
  | nil => cases hIn
  | cons o rest ih =>
    obtain ⟨hFirst, hRest⟩ := List.nodup_cons.mp hNodup
    by_cases hSame : o.recNum = order.recNum
    · have hOther : ∀ o' ∈ rest, o'.recNum ≠ order.recNum := by
        intro o' hLater hEq
        rw [hSame, ← hEq] at hFirst
        exact hFirst (List.mem_map_of_mem hLater)
      have hOthers : rest.map (Ordwth.send order.recNum) = rest := by
        have hEach : rest.map (Ordwth.send order.recNum) = rest.map id :=
          List.map_congr_left fun o' hLater => Ordwth.send_of_ne (hOther o' hLater)
        rw [hEach, List.map_id]
      obtain rfl : order = o := by
        rcases List.mem_cons.mp hIn with hHere | hLater
        · exact hHere
        · exact absurd rfl (hOther order hLater)
      have hSent : Ordwth.sent { order with status := "P" } = true := by simp [Ordwth.sent]
      have hUnsent : ¬ order.sent = true := by simpa [Ordwth.sent] using hNot
      rw [List.map_cons, Ordwth.send_self, hOthers, List.filter_cons_of_pos hSent,
        List.filter_cons_of_neg hUnsent]
    · have hLater : order ∈ rest := by
        rcases List.mem_cons.mp hIn with rfl | hLater
        · exact absurd rfl hSame
        · exact hLater
      have hPerm := ih hRest hLater
      rw [List.map_cons, Ordwth.send_of_ne hSame]
      cases hSent : o.sent with
      | true =>
        rw [List.filter_cons_of_pos hSent, List.filter_cons_of_pos hSent]
        exact (hPerm.cons o).trans (List.Perm.swap _ _ _)
      | false =>
        rw [List.filter_cons_of_neg (by simp [hSent]), List.filter_cons_of_neg (by simp [hSent])]
        exact hPerm

/-! ### The deals of one order -/

/-- What the loop over the volumes does: it inserts a row for each, or fewer when one fails. -/
structure Dealt (env : Env) (order : Ordwth) (confirm : Ordwth2) (volumes : List Int) (s s' : Tables)
    (f : Option Fault) (rows : List Cjhb) : Prop where
  ordwth : s'.ordwth = s.ordwth
  ordwth2 : s'.ordwth2 = s.ordwth2
  cjhb : s'.cjhb = s.cjhb ++ rows
  dealNumber : s.dealNumberSatrt ≤ s'.dealNumberSatrt
  range : ∀ row ∈ rows, s.dealNumberSatrt ≤ row.cjbh ∧ row.cjbh < s'.dealNumberSatrt
  nodup : (rows.map Cjhb.cjbh).Nodup
  result : f = none ∧ rows.map Cjhb.core =
        volumes.map (fun volume => dealRow env order confirm 0 volume "") ∨
      f = some .insert ∧ rows.length < volumes.length

theorem insertDeals_dealt {confirm : Ordwth2} {volumes : List Int}
    (h : Tables.insertDeals env order confirm s volumes = some (s', f)) :
    ∃ rows, Dealt env order confirm volumes s s' f rows := by
  induction volumes generalizing s with
  | nil =>
    cases h
    exact ⟨[], rfl, rfl, by simp, Int.le_refl _, by simp, by simp, .inl ⟨rfl, rfl⟩⟩
  | cons volume rest ih =>
    rw [Tables.insertDeals] at h
    split at h
    next => cases h
    next =>
      let row := dealRow env order confirm s.dealNumberSatrt volume
        (toString (env.curTime s.commands))
      cases hFails : env.fails s.commands with
      | true =>
        simp only [Tables.cmd_fails, hFails, Bool.false_eq_true, if_false, Option.some.injEq,
          Prod.mk.injEq] at h
        obtain ⟨rfl, rfl⟩ := h
        refine ⟨[], rfl, rfl, by simp, ?_, by simp, by simp, .inr ⟨rfl, by simp⟩⟩
        dsimp only
        omega
      | false =>
        simp only [Tables.cmd_succeeds, hFails, if_true] at h
        obtain ⟨rows, hRest⟩ := ih h
        have hGrows : s.dealNumberSatrt + 1 ≤ s'.dealNumberSatrt := hRest.dealNumber
        have hLater : ∀ r ∈ rows, s.dealNumberSatrt + 1 ≤ r.cjbh ∧ r.cjbh < s'.dealNumberSatrt :=
          hRest.range
        refine ⟨row :: rows, hRest.ordwth, hRest.ordwth2, ?_, by omega, ?_, ?_, ?_⟩
        · rw [hRest.cjhb]
          simp [Tables.insertCjhb, row]
        · intro r hr
          rcases List.mem_cons.mp hr with rfl | hIn
          · exact ⟨Int.le_refl _, hGrows⟩
          · have hBounds := hLater r hIn
            omega
        · rw [List.map_cons, List.nodup_cons]
          refine ⟨fun hIn => ?_, hRest.nodup⟩
          obtain ⟨r, hr, hEq⟩ := List.mem_map.mp hIn
          have hBounds := (hLater r hr).1
          have hNumber : row.cjbh = s.dealNumberSatrt := rfl
          omega
        · rcases hRest.result with ⟨hNone, hRows⟩ | ⟨hInsert, hFewer⟩
          · refine .inl ⟨hNone, ?_⟩
            rw [List.map_cons, List.map_cons, hRows]
            rfl
          · exact .inr ⟨hInsert, Nat.succ_lt_succ hFewer⟩

/-! ### One order -/

/-- What a step of the callback keeps: it loses no row unless an insert fails. -/
structure Keeps (env : Env) (s s' : Tables) (lost : Prop) : Prop where
  recNums : s'.ordwth.map Ordwth.recNum = s.ordwth.map Ordwth.recNum
  le : missing env s ≤ missing env s'
  iff : missing env s' = missing env s ↔ ¬ lost
  tidy : ¬ lost → Tidy env s → Tidy env s'

/-- A step that only counts commands. -/
theorem Keeps.counted (s : Tables) (n : ℕ) {lost : Prop} (hNot : ¬ lost) :
    Keeps env s { s with commands := n } lost :=
  ⟨rfl, Int.le_refl _, iff_of_true rfl hNot,
    fun _ hTidy => ⟨⟨hTidy.confirmed, hTidy.deals, hTidy.numbers⟩, hTidy.known, hTidy.below⟩⟩

theorem Keeps.trans {lost : Prop} (h : Keeps env s s' False) (h' : Keeps env s' t lost) :
    Keeps env s t lost := by
  have hSame := h.iff.mpr not_false
  refine ⟨h'.recNums.trans h.recNums, Int.le_trans h.le h'.le, ?_, fun hNot hTidy =>
    h'.tidy hNot (h.tidy not_false hTidy)⟩
  rw [← hSame]
  exact h'.iff

/-- The tables after the commands of one order: its status, its confirmation or none, and some rows. -/
structure Sent (env : Env) (order : Ordwth) (s s' : Tables) (confirms : List Ordwth2)
    (rows : List Cjhb) (lost : Prop) : Prop where
  ordwth : s'.ordwth = s.ordwth.map (Ordwth.send order.recNum)
  ordwth2 : s'.ordwth2 = s.ordwth2 ++ confirms
  cjhb : s'.cjhb = s.cjhb ++ rows
  dealNumber : s.dealNumberSatrt ≤ s'.dealNumberSatrt
  range : ∀ row ∈ rows, s.dealNumberSatrt ≤ row.cjbh ∧ row.cjbh < s'.dealNumberSatrt
  nodup : (rows.map Cjhb.cjbh).Nodup
  short : lost → confirms.length + rows.length < 1 + (order.deals env).length
  whole : ¬ lost → (∃ time, confirms = [order.confirmation time]) ∧
    rows.map Cjhb.core = order.deals env

theorem Sent.length {confirms : List Ordwth2} {rows : List Cjhb} {lost : Prop}
    (h : Sent env order s s' confirms rows lost) (hNot : ¬ lost) :
    confirms.length + rows.length = 1 + (order.deals env).length := by
  obtain ⟨⟨time, rfl⟩, hRows⟩ := h.whole hNot
  rw [← hRows, List.length_map, List.length_singleton]

variable {confirms : List Ordwth2} {rows : List Cjhb} {lost : Prop}

theorem Sent.missing_eq (h : Sent env order s s' confirms rows lost)
    (hNodup : (s.ordwth.map Ordwth.recNum).Nodup) (hIn : order ∈ s.ordwth)
    (hUnsent : order.status ≠ "P") :
    missing env s' = missing env s + (1 + (order.deals env).length - (confirms.length + rows.length)) := by
  have hPerm := sent_perm hNodup hIn hUnsent
  have hOrders := hPerm.length_eq
  have hDeals := (hPerm.flatMap_right (Ordwth.deals env)).length_eq
  rw [List.flatMap_cons, List.length_append, Ordwth.deals_status] at hDeals
  rw [List.length_cons] at hOrders
  rw [missing, missing, h.ordwth, h.ordwth2, h.cjhb, hOrders, hDeals, List.length_append,
    List.length_append]
  omega

theorem Tidy.not_confirmed (hTidy : Tidy env s) (hNodup : (s.ordwth.map Ordwth.recNum).Nodup)
    (hIn : order ∈ s.ordwth) (hUnsent : order.status ≠ "P") :
    s.ordwth2.filter (·.recNum = order.recNum) = [] := by
  apply List.filter_eq_nil_iff.mpr
  intro row hRow hSame
  obtain ⟨o, ho, hSent, hNum⟩ := hTidy.known row hRow
  obtain rfl : o = order :=
    List.inj_on_of_nodup_map hNodup ho hIn (hNum.trans (of_decide_eq_true hSame))
  exact hUnsent hSent

theorem Sent.confirmed (h : Sent env order s s' confirms rows lost) (hNot : ¬ lost)
    (hNodup : (s.ordwth.map Ordwth.recNum).Nodup) (hIn : order ∈ s.ordwth)
    (hUnsent : order.status ≠ "P") (hTidy : Tidy env s) {o : Ordwth} (ho : o ∈ s'.ordwth)
    (hSent : o.status = "P") :
    ∃ time, s'.ordwth2.filter (·.recNum = o.recNum) = [o.confirmation time] := by
  obtain ⟨⟨time, hConfirms⟩, -⟩ := h.whole hNot
  have hNone := hTidy.not_confirmed hNodup hIn hUnsent
  have hConfirmNum := confirmation_recNum order time
  rw [h.ordwth] at ho
  obtain ⟨o, hOld, rfl⟩ := List.mem_map.mp ho
  rw [h.ordwth2, hConfirms, List.filter_append, Ordwth.send_recNum]
  by_cases hSame : o.recNum = order.recNum
  · obtain rfl : o = order := List.inj_on_of_nodup_map hNodup hOld hIn hSame
    rw [hNone, List.nil_append, Ordwth.send_self]
    exact ⟨time, by simp [hConfirmNum, Ordwth.confirmation_status]⟩
  · rw [Ordwth.send_of_ne hSame] at hSent ⊢
    obtain ⟨time', hOne⟩ := hTidy.confirmed o hOld hSent
    refine ⟨time', ?_⟩
    rw [hOne]
    simp [hConfirmNum, Ne.symm hSame]

theorem Sent.known (h : Sent env order s s' confirms rows lost) (hNot : ¬ lost)
    (hIn : order ∈ s.ordwth) (hTidy : Tidy env s) {row : Ordwth2} (hRow : row ∈ s'.ordwth2) :
    ∃ o ∈ s'.ordwth, o.status = "P" ∧ o.recNum = row.recNum := by
  obtain ⟨⟨time, hConfirms⟩, -⟩ := h.whole hNot
  rw [h.ordwth2, hConfirms] at hRow
  rw [h.ordwth]
  rcases List.mem_append.mp hRow with hOld | hNew
  · obtain ⟨o, ho, hSent, hNum⟩ := hTidy.known row hOld
    refine ⟨o.send order.recNum, List.mem_map_of_mem ho, ?_, by rw [Ordwth.send_recNum, hNum]⟩
    rw [Ordwth.send]
    split
    next => rfl
    next => exact hSent
  · obtain rfl := List.mem_singleton.mp hNew
    refine ⟨order.send order.recNum, List.mem_map_of_mem hIn, ?_, ?_⟩
    · rw [Ordwth.send_self]
    · rw [Ordwth.send_recNum, confirmation_recNum]

theorem Sent.numbers (h : Sent env order s s' confirms rows lost) (hTidy : Tidy env s) :
    (s'.cjhb.map Cjhb.cjbh).Nodup := by
  rw [h.cjhb, List.map_append]
  apply List.Nodup.append hTidy.numbers h.nodup
  intro n hOld hNew
  obtain ⟨row, hRow, rfl⟩ := List.mem_map.mp hOld
  obtain ⟨row', hRow', hEq⟩ := List.mem_map.mp hNew
  have hLow := (h.range row' hRow').1
  have hHigh := hTidy.below row hRow
  omega

theorem Sent.tidy (h : Sent env order s s' confirms rows lost) (hNot : ¬ lost)
    (hNodup : (s.ordwth.map Ordwth.recNum).Nodup) (hIn : order ∈ s.ordwth)
    (hUnsent : order.status ≠ "P") (hTidy : Tidy env s) : Tidy env s' where
  confirmed _ ho hSent := h.confirmed hNot hNodup hIn hUnsent hTidy ho hSent
  deals := by
    rw [h.cjhb, List.map_append, (h.whole hNot).2, h.ordwth]
    have hPerm := (sent_perm hNodup hIn hUnsent).flatMap_right (Ordwth.deals env)
    rw [List.flatMap_cons, Ordwth.deals_status] at hPerm
    exact ((hTidy.deals.append_right _).trans List.perm_append_comm).trans hPerm.symm
  numbers := h.numbers hTidy
  known _ hRow := h.known hNot hIn hTidy hRow
  below row hRow := by
    rw [h.cjhb] at hRow
    rcases List.mem_append.mp hRow with hOld | hNew
    · exact Int.lt_of_lt_of_le (hTidy.below row hOld) h.dealNumber
    · exact (h.range row hNew).2

theorem Sent.keeps (h : Sent env order s s' confirms rows lost)
    (hNodup : (s.ordwth.map Ordwth.recNum).Nodup) (hIn : order ∈ s.ordwth)
    (hUnsent : order.status ≠ "P") : Keeps env s s' lost := by
  have hMissing := h.missing_eq hNodup hIn hUnsent
  have hRecNums : s'.ordwth.map Ordwth.recNum = s.ordwth.map Ordwth.recNum := by
    rw [h.ordwth, List.map_map]
    exact List.map_congr_left fun o _ => Ordwth.send_recNum order.recNum o
  by_cases hLost : lost
  · have hShort := h.short hLost
    exact ⟨hRecNums, by omega, iff_of_false (by omega) (not_not_intro hLost),
      fun hNot => absurd hLost hNot⟩
  · have hAll := h.length hLost
    exact ⟨hRecNums, by omega, iff_of_true (by omega) hLost,
      fun _ hTidy => h.tidy hLost hNodup hIn hUnsent hTidy⟩

/-- **Step lemma** for one order of the table. -/
theorem processOrder_keeps (hNodup : (s.ordwth.map Ordwth.recNum).Nodup) (hIn : order ∈ s.ordwth)
    (h : Tables.processOrder env s order = some (s', f)) :
    Keeps env s s' (f = some .insert) ∧
      ∀ o ∈ s.ordwth, o.recNum ≠ order.recNum → o ∈ s'.ordwth := by
  have hOthers : ∀ o ∈ s.ordwth, o.recNum ≠ order.recNum →
      o ∈ s.ordwth.map (Ordwth.send order.recNum) := by
    intro o ho hNe
    have hMem := List.mem_map_of_mem (f := Ordwth.send order.recNum) ho
    rwa [Ordwth.send_of_ne hNe] at hMem
  rw [Tables.processOrder] at h
  split at h
  next =>
    cases h
    exact ⟨Keeps.counted s s.commands nofun, fun o ho _ => ho⟩
  next hUnsent =>
    cases hUpdate : env.fails s.commands with
    | true =>
      simp only [Tables.cmd_fails hUpdate, Bool.false_eq_true, if_false, Option.some.injEq,
        Prod.mk.injEq] at h
      obtain ⟨rfl, rfl⟩ := h
      exact ⟨Keeps.counted s (s.commands + 1) nofun, fun o ho _ => ho⟩
    | false =>
      cases hConfirm : env.fails (s.commands + 1) with
      | true =>
        simp only [Tables.cmd_succeeds, hUpdate, Tables.cmd_fails, hConfirm, if_true,
          Bool.false_eq_true, if_false, Option.some.injEq, Prod.mk.injEq] at h
        obtain ⟨rfl, rfl⟩ := h
        have hSent : Sent env order s
            { s.updateStatus order.recNum with commands := s.commands + 1 + 1 } [] []
            (some Fault.insert = some Fault.insert) :=
          ⟨updateStatus_ordwth _ _, by simp [Tables.updateStatus], by simp [Tables.updateStatus],
            Int.le_refl _, nofun, List.nodup_nil, fun _ => Nat.lt_add_right _ Nat.one_pos,
            fun hNot => absurd rfl hNot⟩
        exact ⟨hSent.keeps hNodup hIn hUnsent, hOthers⟩
      | false =>
        simp only [Tables.cmd_succeeds, hUpdate, hConfirm, if_true] at h
        obtain ⟨rows, hDealt⟩ := insertDeals_dealt h
        have hSent : Sent env order s s'
            [order.confirmation (env.curTimeStr (s.commands + 1))] rows (f = some .insert) := by
          refine ⟨hDealt.ordwth, hDealt.ordwth2, hDealt.cjhb, hDealt.dealNumber, hDealt.range,
            hDealt.nodup, fun hInsert => ?_, fun hNot => ⟨⟨_, rfl⟩, ?_⟩⟩
          · rcases hDealt.result with ⟨rfl, -⟩ | ⟨-, hFewer⟩
            · cases hInsert
            · rw [List.length_singleton, Ordwth.deals, List.length_map]
              omega
          · rcases hDealt.result with ⟨-, hRows⟩ | ⟨hInsert, -⟩
            · exact hRows
            · exact absurd hInsert hNot
        refine ⟨hSent.keeps hNodup hIn hUnsent, fun o ho hNe => ?_⟩
        rw [hSent.ordwth]
        exact hOthers o ho hNe

/-! ### A tick -/

theorem processOrders_keeps {orders : List Ordwth} (hNodup : (s.ordwth.map Ordwth.recNum).Nodup)
    (hIn : ∀ order ∈ orders, order ∈ s.ordwth) (hApart : (orders.map Ordwth.recNum).Nodup)
    (h : Tables.processOrders env s orders = some (s', f)) :
    Keeps env s s' (f = some .insert) := by
  induction orders generalizing s with
  | nil =>
    cases h
    exact Keeps.counted s' s'.commands nofun
  | cons order rest ih =>
    obtain ⟨hFirst, hRest⟩ := List.nodup_cons.mp hApart
    rw [Tables.processOrders] at h
    split at h
    next => cases h
    next s₁ fault hOrder =>
      cases h
      exact (processOrder_keeps hNodup (hIn order List.mem_cons_self) hOrder).1
    next s₁ hOrder =>
      obtain ⟨hKeeps, hOthers⟩ := processOrder_keeps hNodup (hIn order List.mem_cons_self) hOrder
      have hClean : Keeps env s s₁ False := by simpa using hKeeps
      refine hClean.trans (ih (hKeeps.recNums ▸ hNodup) (fun o ho => ?_) hRest h)
      refine hOthers o (hIn o (List.mem_cons_of_mem order ho)) fun hEq => ?_
      rw [← hEq] at hFirst
      exact hFirst (List.mem_map_of_mem ho)

theorem timerCallback_keeps (hNodup : (s.ordwth.map Ordwth.recNum).Nodup)
    (h : Tables.timerCallback env s = some (s', f)) : Keeps env s s' (f = some .insert) := by
  rw [Tables.timerCallback] at h
  cases hFails : env.fails s.commands with
  | true =>
    simp only [Tables.cmd_fails hFails, Bool.false_eq_true, if_false, Option.some.injEq,
      Prod.mk.injEq] at h
    obtain ⟨rfl, rfl⟩ := h
    exact Keeps.counted s (s.commands + 1) nofun
  | false =>
    simp only [Tables.cmd_succeeds hFails, if_true, id_eq] at h
    have hSelect : Keeps env s { s with commands := s.commands + 1 } False :=
      Keeps.counted s (s.commands + 1) not_false
    exact hSelect.trans (processOrders_keeps hNodup (fun _ => id) hNodup h)

/-! ### Histories -/

/-- An event that loses a row: an order arrives that says it was sent, or an insert fails. -/
def Loses (ev : Event) (out : Option Fault) : Prop :=
  (∃ order, ev = .arrive order ∧ order.status = "P") ∨ out = some .insert

/-- **Step lemma** for an event. -/
theorem step_keeps {ev : Event} (hNodup : (s.ordwth.map Ordwth.recNum).Nodup)
    (h : s.step env ev = some (s', f)) :
    (s'.ordwth.map Ordwth.recNum).Nodup ∧ missing env s ≤ missing env s' ∧
      (missing env s' = missing env s ↔ ¬ Loses ev f) ∧ (¬ Loses ev f → Tidy env s → Tidy env s') := by
  cases ev with
  | arrive order =>
    simp only [Tables.step, Option.ite_none_left_eq_some, Option.some.injEq, Prod.mk.injEq] at h
    obtain ⟨hNew, rfl, rfl⟩ := h
    have hLoses : Loses (.arrive order) none ↔ order.status = "P" := by simp [Loses]
    have hDistinct : ((s.ordwth ++ [order]).map Ordwth.recNum).Nodup := by
      rw [List.map_append]
      exact List.Nodup.append hNodup (List.nodup_singleton _) (by simpa using hNew)
    refine ⟨hDistinct, ?_⟩
    rw [hLoses]
    by_cases hSent : order.status = "P"
    · have hFilter : (s.ordwth ++ [order]).filter Ordwth.sent = s.ordwth.filter Ordwth.sent ++ [order] := by
        simp [Ordwth.sent, hSent]
      have hMore : missing env { s with ordwth := s.ordwth ++ [order] } =
          missing env s + (1 + (order.deals env).length) := by
        simp only [missing, hFilter, List.flatMap_append, List.length_append, List.length_singleton,
          List.flatMap_singleton]
        omega
      exact ⟨by omega, iff_of_false (by omega) (not_not_intro hSent), fun hNot => absurd hSent hNot⟩
    · have hFilter : (s.ordwth ++ [order]).filter Ordwth.sent = s.ordwth.filter Ordwth.sent := by
        simp [Ordwth.sent, hSent]
      have hSame : missing env { s with ordwth := s.ordwth ++ [order] } = missing env s := by
        simp only [missing, hFilter]
      refine ⟨Int.le_of_eq hSame.symm, iff_of_true hSame hSent, fun _ hTidy => ⟨⟨?_, ?_, ?_⟩, ?_, ?_⟩⟩
      · intro o ho hStatus
        rcases List.mem_append.mp ho with hOld | hHere
        · exact hTidy.confirmed o hOld hStatus
        · rw [List.mem_singleton.mp hHere] at hStatus
          exact absurd hStatus hSent
      · rw [hFilter]
        exact hTidy.deals
      · exact hTidy.numbers
      · intro row hRow
        obtain ⟨o, ho, hStatus, hNum⟩ := hTidy.known row hRow
        exact ⟨o, List.mem_append_left _ ho, hStatus, hNum⟩
      · exact hTidy.below
  | tick =>
    have hKeeps := timerCallback_keeps hNodup h
    have hLoses : Loses .tick f ↔ f = some .insert := by simp [Loses]
    rw [hLoses, hKeeps.recNums]
    exact ⟨hNodup, hKeeps.le, hKeeps.iff, hKeeps.tidy⟩

/-- The condition on a history: no order arrives that says it was sent, and no insert failed. -/
def NoLoss (evs : List Event) (outs : List (Option Fault)) : Prop :=
  (∀ order, .arrive order ∈ evs → order.status ≠ "P") ∧ some .insert ∉ outs

theorem noLoss_cons {ev : Event} {evs : List Event} {outs : List (Option Fault)} :
    NoLoss (ev :: evs) (f :: outs) ↔ ¬ Loses ev f ∧ NoLoss evs outs := by
  simp only [NoLoss, Loses, List.mem_cons, not_or, not_exists, not_and]
  constructor
  · rintro ⟨hAll, hFirst, hRest⟩
    exact ⟨⟨fun order hEv => hAll order (.inl hEv.symm), fun hOut => hFirst hOut.symm⟩,
      fun order hIn => hAll order (.inr hIn), hRest⟩
  · rintro ⟨⟨hFirst, hOut⟩, hAll, hRest⟩
    refine ⟨fun order hIn => ?_, fun hEq => hOut hEq.symm, hRest⟩
    rcases hIn with hEv | hLater
    · exact hFirst order hEv.symm
    · exact hAll order hLater

/-- **Run lemma**. -/
theorem run_keeps {evs : List Event} {outs : List (Option Fault)}
    (hNodup : (s.ordwth.map Ordwth.recNum).Nodup)
    (hRun : Machine.run (Tables.step env) s evs = some (t, outs)) :
    (t.ordwth.map Ordwth.recNum).Nodup ∧ missing env s ≤ missing env t ∧
      (missing env t = missing env s ↔ NoLoss evs outs) ∧
      (NoLoss evs outs → Tidy env s → Tidy env t) := by
  induction evs generalizing s outs with
  | nil =>
    cases hRun
    have hNone : NoLoss [] [] := ⟨fun _ hIn => absurd hIn List.not_mem_nil, List.not_mem_nil⟩
    exact ⟨hNodup, Int.le_refl _, iff_of_true rfl hNone, fun _ hTidy => hTidy⟩
  | cons ev evs ih =>
    obtain ⟨s', out, outs', hFirst, hRest, rfl⟩ := Machine.run_cons hRun
    obtain ⟨hNext, hLe, hIff, hKeep⟩ := step_keeps hNodup hFirst
    obtain ⟨hEnd, hLe', hIff', hKeep'⟩ := ih hNext hRest
    rw [noLoss_cons]
    refine ⟨hEnd, Int.le_trans hLe hLe', ?_, fun hNone hTidy => hKeep' hNone.2 (hKeep hNone.1 hTidy)⟩
    rw [← hIff, ← hIff']
    omega

/-- Tables that are settled miss no row. -/
theorem Settled.missing_le (h : Settled env s) (hNodup : (s.ordwth.map Ordwth.recNum).Nodup) :
    missing env s ≤ 0 := by
  have hDeals := h.deals.length_eq
  rw [List.length_map] at hDeals
  have hSub : (s.ordwth.filter Ordwth.sent).map Ordwth.recNum ⊆ s.ordwth2.map Ordwth2.recNum := by
    intro n hn
    obtain ⟨order, hOrder, rfl⟩ := List.mem_map.mp hn
    obtain ⟨hIn, hSent⟩ := List.mem_filter.mp hOrder
    obtain ⟨time, hOne⟩ := h.confirmed order hIn (of_decide_eq_true hSent)
    have hRow : order.confirmation time ∈ s.ordwth2.filter (·.recNum = order.recNum) := by
      rw [hOne]
      exact List.mem_singleton_self _
    rw [← confirmation_recNum order time]
    exact List.mem_map_of_mem (List.mem_filter.mp hRow).1
  have hDistinct : ((s.ordwth.filter Ordwth.sent).map Ordwth.recNum).Nodup :=
    hNodup.sublist (List.filter_sublist.map _)
  have hLe := (List.subperm_of_subset hDistinct hSub).length_le
  rw [List.length_map, List.length_map] at hLe
  rw [missing]
  omega

theorem tidy_fresh : Tidy env {} where
  confirmed _ hIn := absurd hIn List.not_mem_nil
  deals := List.Perm.nil
  numbers := List.nodup_nil
  known _ hRow := absurd hRow List.not_mem_nil
  below _ hRow := absurd hRow List.not_mem_nil

/-- After any history, whatever its last tick did, each order that was sent has its confirmation and its
deals exactly if no order arrived that said it was sent and no insert failed. -/
theorem settled_iff (env : Env) {evs : List Event} {t : Tables} {outs : List (Option Fault)}
    (hRun : Machine.run (Tables.step env) {} evs = some (t, outs)) :
    Settled env t ↔ NoLoss evs outs := by
  have hFresh : (({} : Tables).ordwth.map Ordwth.recNum).Nodup := List.nodup_nil
  obtain ⟨hNodup, hLe, hIff, hKeep⟩ := run_keeps hFresh hRun
  have hZero : missing env {} = 0 := rfl
  constructor
  · intro hSettled
    have hNone := hSettled.missing_le hNodup
    exact hIff.mp (by omega)
  · intro hNone
    exact (hKeep hNone tidy_fresh).toSettled

/-- An order of 100 that was not sent. -/
def sampleOrder : Ordwth where
  recNum := 1
  date := "20200102"
  time := "09:30:00"
  reff := "R1"
  acc := "A1"
  stock := "600000"
  bs := "B"
  price := "10.0"
  qty := "100"
  status := "R"
  owflag := "ORD"
  ordrec := ""
  firmid := "1"
  branchid := "1"
  checkord := "0"

/-- Command `n` fails. -/
def failing (n : ℕ) : Env where
  fails := (· = n)
  curTimeStr _ := "09:30:01"
  curTime _ := 93001
  cjjg := id
  cjje price _ := price

/-- The first update of the status fails, and the next tick does all. -/
theorem settled_iff_update : ∃ t outs,
    Machine.run (Tables.step (failing 1)) {} [.arrive sampleOrder, .tick, .tick] = some (t, outs) ∧
    (Settled (failing 1) t ↔ NoLoss [.arrive sampleOrder, .tick, .tick] outs) :=
  ⟨_, _, rfl, settled_iff (failing 1) rfl⟩

/-- The first insert of the confirmation fails, and no command of the next tick. -/
theorem not_settled : ∃ t,
    Machine.run (Tables.step (failing 2)) {} [.arrive sampleOrder, .tick, .tick] =
      some (t, [none, some .insert, none]) ∧ ¬ Settled (failing 2) t := by
  refine ⟨_, rfl, fun h => ?_⟩
  obtain ⟨time, hOne⟩ := h.confirmed _ List.mem_cons_self rfl
  cases hOne

end DemoCode.Oiwst
