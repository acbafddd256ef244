import DemoCode.WebSocket.TimingWheel

/-! When the wheel shuts a connection down: at a tick that depends only on how long the connection has
been silent. -/

namespace DemoCode.WebSocket

open Countdown CRoughTimingWheel

/-- The ticks since the latest connection or message, after one more event. -/
def idleStep (ws : Ws) (idle : Option Nat) : UwsEvent → Option Nat
  | .connection w => if w = ws then some 0 else idle
  | .message w => if w = ws then idle.map fun _ => 0 else idle
  | .disconnection w => if w = ws then none else idle
  | .tick => idle.map (· + 1)

/-- The ticks since the latest connection or message of a connection, nothing without a connection. -/
def idle (ws : Ws) (evs : List UwsEvent) : Option Nat := evs.foldl (idleStep ws) none

/-- The connections that have been shut down. -/
def shutdowns (outs : List (List StWs)) : List Ws := outs.flatten.map StWs.ws

/-- No connection goes, and none comes twice. -/
structure Undisturbed (evs : List UwsEvent) : Prop where
  stays : ∀ ws, .disconnection ws ∉ evs
  once : ∀ ws, evs.count (.connection ws) ≤ 1

/-- Every run goes on, and a tick after it shuts down, once each, the connections that have been
silent for `k` ticks with it and have not been shut down. -/
def ShutsAt (maxHeartbeatTimeMs : Int) (k : Nat) : Prop :=
  ∀ evs, Undisturbed evs → ∃ s outs s' out,
    Machine.run UwsService.step (.init maxHeartbeatTimeMs) evs = some (s, outs) ∧
      s.step .tick = some (s', out) ∧ ∀ ws, (out.map StWs.ws).count ws =
        if ws ∉ shutdowns outs ∧ idle ws evs = some (k - 1) then 1 else 0

theorem ShutsAt.count {timeMs : Int} {k : Nat} (h : ShutsAt timeMs k) {evs : List UwsEvent}
    {s s' : UwsService} {outs : List (List StWs)} {out : List StWs} (hEvs : Undisturbed evs)
    (hRun : Machine.run UwsService.step (.init timeMs) evs = some (s, outs))
    (hStep : s.step .tick = some (s', out)) (ws : Ws) :
    (out.map StWs.ws).count ws =
      if ws ∉ shutdowns outs ∧ idle ws evs = some (k - 1) then 1 else 0 := by
  obtain ⟨t, outs', t', out', hRun', hStep', hCount⟩ := h evs hEvs
  rw [hRun] at hRun'
  cases hRun'
  rw [hStep] at hStep'
  cases hStep'
  exact hCount ws

/-! ### The invariant -/

/-- The ticks after which an addition to the wheel of the service is due. -/
def period (timeMs : Nat) : Nat := turn 60 (timeMs / 1000)

theorem period_pos (timeMs : Nat) : 0 < period timeMs := (turn_le (by decide) _).1

/-- The last reference to the `ST_WS` of a connection is due when the connection will have been silent
for `k` ticks, unless it has been shut down. -/
def Beats (k : Nat) (S : Set (StWs × ℕ)) (p : StWs) (silent : Option Nat) (shut : Prop) : Prop :=
  ∃ n, silent = some n ∧
    ((n < k ∧ IsGreatest (due S p) (k - n) ∧ ¬shut) ∨ (due S p = ∅ ∧ shut))

structure HeartbeatInv (timeMs : Nat) (s : UwsService) (silent : Ws → Option Nat) (shut : List Ws) :
    Prop where
  wheelSize : s.timeWheel.wheelSize = 60
  tickMs : s.timeWheel.tickMs = 1000
  heartbeat : s.maxHeartbeatTime = timeMs
  mapped : ∀ ws p, s.wsMap ws = some p → p.ws = ws
  owned : ∀ p, (due s.timeWheel.ahead p).Nonempty → s.wsMap p.ws = some p
  absent : ∀ ws, s.wsMap ws = none → silent ws = none ∧ ws ∉ shut
  beats : ∀ ws p, s.wsMap ws = some p →
    Beats (period timeMs) s.timeWheel.ahead p (silent ws) (ws ∈ shut)

theorem Beats.insert_of_ne {k d : Nat} {S : Set (StWs × ℕ)} {p q : StWs} {silent : Option Nat}
    {shut : Prop} (h : Beats k S p silent shut) (hOther : p ≠ q) :
    Beats k (insert (q, d) S) p silent shut := by
  rw [Beats, due_insert_of_ne hOther]
  exact h

/-- A message puts the end off, unless it comes too late. -/
theorem Beats.renew {k : Nat} {S : Set (StWs × ℕ)} {p : StWs} {silent : Option Nat} {shut : Prop}
    (hPos : 0 < k) (h : Beats k S p silent shut) (hHeld : (due S p).Nonempty) :
    Beats k (insert (p, k) S) p (some 0) shut := by
  obtain ⟨n, -, ⟨-, hLast, hOpen⟩ | ⟨hEmpty, -⟩⟩ := h
  · refine ⟨0, rfl, .inl ⟨hPos, ?_, hOpen⟩⟩
    apply isGreatest_insert
    intro j hIn
    have hLe := hLast.2 hIn
    omega
  · rw [hEmpty] at hHeld
    exact absurd hHeld Set.not_nonempty_empty

/-- A tick brings the end nearer, or is the end. -/
theorem Beats.tick {k : Nat} {S : Set (StWs × ℕ)} {p : StWs} {silent : Option Nat} {shut : Prop}
    (h : Beats k S p silent shut) :
    Beats k (tick S) p (silent.map (· + 1)) (Released S p ∨ shut) := by
  obtain ⟨n, rfl, ⟨hLess, hLast, hOpen⟩ | ⟨hEmpty, hShut⟩⟩ := h
  · refine ⟨n + 1, rfl, ?_⟩
    have hReleased := released_iff hLast (by omega)
    by_cases hEnd : k - n = 1
    · exact .inr ⟨due_tick_of_one (hEnd ▸ hLast), .inl (hReleased.mpr hEnd)⟩
    · refine .inl ⟨by omega, ?_, ?_⟩
      · apply isGreatest_tick _ (by omega)
        rwa [show k - (n + 1) + 1 = k - n by omega]
      · rintro (hNow | hBefore)
        · exact hEnd (hReleased.mp hNow)
        · exact hOpen hBefore
  · exact ⟨n + 1, rfl, .inr ⟨due_tick_of_empty hEmpty, .inr hShut⟩⟩

/-- A connection is released by the tick with which it has been silent for `k` ticks. -/
theorem Beats.released_iff {k : Nat} {S : Set (StWs × ℕ)} {p : StWs} {silent : Option Nat}
    {shut : Prop} (h : Beats k S p silent shut) :
    Released S p ↔ ¬shut ∧ silent = some (k - 1) := by
  obtain ⟨n, rfl, ⟨hLess, hLast, hOpen⟩ | ⟨hEmpty, hShut⟩⟩ := h
  · rw [Countdown.released_iff hLast (by omega), Option.some.injEq]
    constructor
    · exact fun hEnd => ⟨hOpen, by omega⟩
    · rintro ⟨-, rfl⟩
      omega
  · exact iff_of_false (not_released_of_empty hEmpty) fun hBoth => hBoth.1 hShut

namespace HeartbeatInv

variable {timeMs : Nat} {s : UwsService} {silent : Ws → Option Nat} {shut : List Ws}

theorem add_spec (h : HeartbeatInv timeMs s silent shut) (p : StWs) :
    ∃ w', s.timeWheel.add p s.maxHeartbeatTime = some w' ∧ w'.wheelSize = 60 ∧ w'.tickMs = 1000 ∧
      w'.ahead = insert (p, period timeMs) s.timeWheel.ahead := by
  have hAdd := s.timeWheel.add_spec p timeMs
  rw [h.wheelSize, h.tickMs, ← h.heartbeat] at hAdd
  exact hAdd

theorem init (timeMs : Nat) : HeartbeatInv timeMs (.init timeMs) (fun _ => none) [] where
  wheelSize := rfl
  tickMs := rfl
  heartbeat := rfl
  mapped ws p h := by cases h
  owned p h := by
    rw [← mem_held] at h
    simp [held, UwsService.init, ofSize] at h
  absent ws _ := ⟨rfl, List.not_mem_nil⟩
  beats ws p h := by cases h

theorem connection (h : HeartbeatInv timeMs s silent shut) {ws : Ws} (hNew : s.wsMap ws = none) :
    ∃ s', s.step (.connection ws) = some (s', []) ∧
      HeartbeatInv timeMs s' (fun v => idleStep v (silent v) (.connection ws)) shut ∧
      s'.wsMap = Function.update s.wsMap ws (some ⟨s.made, ws⟩) := by
  obtain ⟨w', hAdd, hSize, hTick, hAhead⟩ := h.add_spec ⟨s.made, ws⟩
  have hUnheld : ∀ p, (due s.timeWheel.ahead p).Nonempty → p.ws ≠ ws := by
    rintro p hHeld rfl
    rw [h.owned p hHeld] at hNew
    cases hNew
  simp only [UwsService.step, hAdd, Option.bind_eq_bind, Option.bind_some]
  refine ⟨_, rfl, ⟨hSize, hTick, h.heartbeat, ?_, ?_, ?_, ?_⟩, rfl⟩
  · intro v p hMapped
    dsimp only at hMapped
    by_cases hSame : v = ws
    · subst hSame
      rw [Function.update_self] at hMapped
      cases hMapped
      rfl
    · rw [Function.update_of_ne hSame] at hMapped
      exact h.mapped v p hMapped
  · intro p hHeld
    dsimp only at hHeld ⊢
    rw [hAhead] at hHeld
    by_cases hSame : p = ⟨s.made, ws⟩
    · rw [hSame, Function.update_self]
    · rw [due_insert_of_ne hSame] at hHeld
      rw [Function.update_of_ne (hUnheld p hHeld)]
      exact h.owned p hHeld
  · intro v hNone
    dsimp only at hNone
    by_cases hSame : v = ws
    · subst hSame
      rw [Function.update_self] at hNone
      cases hNone
    · rw [Function.update_of_ne hSame] at hNone
      show (if ws = v then some 0 else silent v) = none ∧ _
      rw [if_neg (Ne.symm hSame)]
      exact h.absent v hNone
  · intro v p hMapped
    dsimp only at hMapped
    show Beats _ w'.ahead p (if ws = v then some 0 else silent v) _
    rw [hAhead]
    by_cases hSame : v = ws
    · subst hSame
      rw [Function.update_self] at hMapped
      cases hMapped
      rw [if_pos rfl]
      refine ⟨0, rfl, .inl ⟨period_pos timeMs, ?_, (h.absent v hNew).2⟩⟩
      apply isGreatest_insert
      intro j hIn
      exact absurd rfl (hUnheld _ ⟨j, hIn⟩)
    · rw [Function.update_of_ne hSame] at hMapped
      rw [if_neg (Ne.symm hSame)]
      apply (h.beats v p hMapped).insert_of_ne
      rintro rfl
      exact hSame (h.mapped v _ hMapped).symm

/-- An address that is not mapped has not been connected, and stays so. -/
theorem absent_message (h : HeartbeatInv timeMs s silent shut) (ws : Ws) {v : Ws}
    (hNone : s.wsMap v = none) : idleStep v (silent v) (.message ws) = none ∧ v ∉ shut := by
  obtain ⟨hSilent, hShut⟩ := h.absent v hNone
  refine ⟨?_, hShut⟩
  show (if ws = v then (silent v).map (fun _ => 0) else silent v) = none
  rw [hSilent]
  exact ite_self none

/-- A message of a connection that is not mapped. -/
theorem message_unmapped (h : HeartbeatInv timeMs s silent shut) {ws : Ws}
    (hNone : s.wsMap ws = none) :
    HeartbeatInv timeMs s (fun v => idleStep v (silent v) (.message ws)) shut := by
  have hSilent : (fun v => idleStep v (silent v) (.message ws)) = silent := by
    funext v
    show (if ws = v then (silent v).map (fun _ => 0) else silent v) = silent v
    split
    · rename_i hSame
      rw [← hSame, (h.absent ws hNone).1]
      rfl
    · rfl
  rw [hSilent]
  exact h

/-- A message puts what the wheel holds to the end of the period once more. -/
theorem message_held (h : HeartbeatInv timeMs s silent shut) {ws : Ws} {p : StWs}
    {w' : CRoughTimingWheel} (hMapped : s.wsMap ws = some p)
    (hHeld : (due s.timeWheel.ahead p).Nonempty) (hSize : w'.wheelSize = 60) (hTick : w'.tickMs = 1000)
    (hAhead : w'.ahead = insert (p, period timeMs) s.timeWheel.ahead) :
    HeartbeatInv timeMs { s with timeWheel := w' }
      (fun v => idleStep v (silent v) (.message ws)) shut := by
  have hWs := h.mapped ws p hMapped
  refine ⟨hSize, hTick, h.heartbeat, h.mapped, ?_, fun v => h.absent_message ws, ?_⟩
  · intro q hDue
    dsimp only at hDue ⊢
    rw [hAhead] at hDue
    by_cases hSame : q = p
    · rw [hSame, hWs]
      exact hMapped
    · rw [due_insert_of_ne hSame] at hDue
      exact h.owned q hDue
  · intro v q hOther
    show Beats _ w'.ahead q (if ws = v then (silent v).map (fun _ => 0) else silent v) _
    rw [hAhead]
    by_cases hSame : ws = v
    · subst hSame
      obtain rfl : p = q := Option.some.inj (hMapped.symm.trans hOther)
      obtain ⟨n, hSilent, -⟩ := h.beats ws p hMapped
      rw [if_pos rfl, hSilent]
      exact (h.beats ws p hMapped).renew (period_pos timeMs) hHeld
    · rw [if_neg hSame]
      apply (h.beats v q hOther).insert_of_ne
      rintro rfl
      exact hSame (hWs.symm.trans (h.mapped v q hOther))

/-- A message of a connection that has been shut down. -/
theorem message_shut (h : HeartbeatInv timeMs s silent shut) {ws : Ws} {p : StWs}
    (hMapped : s.wsMap ws = some p) (hHeld : ¬(due s.timeWheel.ahead p).Nonempty) :
    HeartbeatInv timeMs s (fun v => idleStep v (silent v) (.message ws)) shut := by
  refine ⟨h.wheelSize, h.tickMs, h.heartbeat, h.mapped, h.owned, fun v => h.absent_message ws, ?_⟩
  intro v q hOther
  show Beats _ s.timeWheel.ahead q (if ws = v then (silent v).map (fun _ => 0) else silent v) _
  by_cases hSame : ws = v
  · subst hSame
    obtain rfl : p = q := Option.some.inj (hMapped.symm.trans hOther)
    obtain ⟨n, hSilent, ⟨-, hLast, -⟩ | hShut⟩ := h.beats ws p hMapped
    · exact absurd ⟨_, hLast.1⟩ hHeld
    · rw [if_pos rfl, hSilent]
      exact ⟨0, rfl, .inr hShut⟩
  · rw [if_neg hSame]
    exact h.beats v q hOther

theorem message (h : HeartbeatInv timeMs s silent shut) (ws : Ws) :
    ∃ s', s.step (.message ws) = some (s', []) ∧
      HeartbeatInv timeMs s' (fun v => idleStep v (silent v) (.message ws)) shut ∧
      s'.wsMap = s.wsMap := by
  rw [UwsService.step]
  rcases hMapped : s.wsMap ws with _ | p
  · exact ⟨s, rfl, h.message_unmapped hMapped, rfl⟩
  dsimp only
  by_cases hHeld : p ∈ s.timeWheel.held
  · obtain ⟨w', hAdd, hSize, hTick, hAhead⟩ := h.add_spec p
    rw [if_pos hHeld, hAdd]
    rw [mem_held] at hHeld
    exact ⟨_, rfl, h.message_held hMapped hHeld hSize hTick hAhead, rfl⟩
  · rw [if_neg hHeld]
    rw [mem_held] at hHeld
    exact ⟨_, rfl, h.message_shut hMapped hHeld, rfl⟩

/-- What a tick shuts down is the `ST_WS` that is mapped. -/
theorem released_mapped (h : HeartbeatInv timeMs s silent shut) {p : StWs}
    (hReleased : Released s.timeWheel.ahead p) : s.wsMap p.ws = some p :=
  h.owned p ⟨1, hReleased.1⟩

theorem mem_shut (h : HeartbeatInv timeMs s silent shut) {ws : Ws} {p : StWs}
    (hMapped : s.wsMap ws = some p) :
    ws ∈ s.timeWheel.advanceClock.2.map StWs.ws ↔ Released s.timeWheel.ahead p := by
  rw [List.mem_map]
  constructor
  · rintro ⟨q, hIn, rfl⟩
    rw [mem_advanceClock] at hIn
    obtain rfl : q = p := Option.some.inj ((h.released_mapped hIn).symm.trans hMapped)
    exact hIn
  · intro hReleased
    exact ⟨p, (mem_advanceClock _ p).mpr hReleased, h.mapped ws p hMapped⟩

theorem tick (h : HeartbeatInv timeMs s silent shut) :
    HeartbeatInv timeMs { s with timeWheel := s.timeWheel.advanceClock.1 }
      (fun v => idleStep v (silent v) .tick) (shut ++ s.timeWheel.advanceClock.2.map StWs.ws) := by
  refine ⟨h.wheelSize, h.tickMs, h.heartbeat, h.mapped, ?_, ?_, ?_⟩
  · intro p hDue
    dsimp only at hDue
    rw [ahead_advanceClock] at hDue
    apply h.owned p
    rw [Set.nonempty_iff_ne_empty] at hDue ⊢
    exact fun hEmpty => hDue (due_tick_of_empty hEmpty)
  · intro v hNone
    obtain ⟨hSilent, hShut⟩ := h.absent v hNone
    refine ⟨by show (silent v).map _ = none; rw [hSilent]; rfl, ?_⟩
    rw [List.mem_append]
    rintro (hBefore | hNow)
    · exact hShut hBefore
    · obtain ⟨q, hIn, rfl⟩ := List.mem_map.mp hNow
      rw [mem_advanceClock] at hIn
      rw [h.released_mapped hIn] at hNone
      cases hNone
  · intro v p hMapped
    show Beats _ s.timeWheel.advanceClock.1.ahead p ((silent v).map (· + 1)) _
    rw [ahead_advanceClock, List.mem_append, h.mem_shut hMapped, or_comm]
    exact (h.beats v p hMapped).tick

/-- **Tick**: a connection is shut down, once, by the tick with which it has been silent for the
period. -/
theorem count_tick (h : HeartbeatInv timeMs s silent shut) (ws : Ws) :
    (s.timeWheel.advanceClock.2.map StWs.ws).count ws =
      if ws ∉ shut ∧ silent ws = some (period timeMs - 1) then 1 else 0 := by
  have hNodup : (s.timeWheel.advanceClock.2.map StWs.ws).Nodup := by
    apply List.Nodup.map_on _ (advanceClock_nodup _)
    intro p hIn q hIn' hSame
    rw [mem_advanceClock] at hIn hIn'
    have hMapped := h.released_mapped hIn
    rw [hSame, h.released_mapped hIn'] at hMapped
    exact (Option.some.inj hMapped).symm
  rw [hNodup.count]
  congr 1
  apply propext
  rcases hMapped : s.wsMap ws with _ | p
  · apply iff_of_false
    · intro hNow
      obtain ⟨q, hIn, rfl⟩ := List.mem_map.mp hNow
      rw [mem_advanceClock] at hIn
      rw [h.released_mapped hIn] at hMapped
      cases hMapped
    · rw [(h.absent ws hMapped).1]
      exact fun hBoth => nomatch hBoth.2
  · rw [h.mem_shut hMapped, (h.beats ws p hMapped).released_iff]

/-- **Run**: from a state with the invariant, new connections, messages and ticks keep it. -/
theorem run (h : HeartbeatInv timeMs s silent shut) {evs : List UwsEvent} (hEvs : Undisturbed evs)
    (hNew : ∀ ws, .connection ws ∈ evs → s.wsMap ws = none) :
    ∃ t outs, Machine.run UwsService.step s evs = some (t, outs) ∧
      HeartbeatInv timeMs t (fun v => evs.foldl (idleStep v) (silent v)) (shut ++ shutdowns outs) := by
  induction evs generalizing s silent shut with
  | nil =>
    refine ⟨s, [], rfl, ?_⟩
    rw [shutdowns, List.flatten_nil, List.map_nil, List.append_nil]
    exact h
  | cons ev evs ih =>
    have hRest : Undisturbed evs := by
      refine ⟨fun ws hIn => hEvs.stays ws (List.mem_cons_of_mem ev hIn), fun ws => ?_⟩
      exact le_trans List.count_le_count_cons (hEvs.once ws)
    -- every event but a disconnection, which does not come, goes to the next state
    have hGo : ∃ s' out, s.step ev = some (s', out) ∧
        HeartbeatInv timeMs s' (fun v => idleStep v (silent v) ev) (shut ++ out.map StWs.ws) ∧
        ∀ ws, .connection ws ∈ evs → s'.wsMap ws = none := by
      cases ev with
      | connection ws =>
        obtain ⟨s', hStep, hInv, hMap⟩ := h.connection (hNew ws List.mem_cons_self)
        refine ⟨s', [], hStep, by rw [List.map_nil, List.append_nil]; exact hInv, ?_⟩
        intro v hIn
        have hOnce := hEvs.once v
        have hPos := List.count_pos_iff.mpr hIn
        have hOther : v ≠ ws := by
          rintro rfl
          rw [List.count_cons_self] at hOnce
          omega
        rw [hMap, Function.update_of_ne hOther]
        exact hNew v (List.mem_cons_of_mem _ hIn)
      | message ws =>
        obtain ⟨s', hStep, hInv, hMap⟩ := h.message ws
        refine ⟨s', [], hStep, by rw [List.map_nil, List.append_nil]; exact hInv, ?_⟩
        intro v hIn
        rw [hMap]
        exact hNew v (List.mem_cons_of_mem _ hIn)
      | disconnection ws => exact absurd List.mem_cons_self (hEvs.stays ws)
      | tick => exact ⟨_, _, rfl, h.tick, fun v hIn => hNew v (List.mem_cons_of_mem _ hIn)⟩
    obtain ⟨s', out, hStep, hInv, hNew'⟩ := hGo
    obtain ⟨t, outs, hRun, hLast⟩ := ih hInv hRest hNew'
    refine ⟨t, out :: outs, Machine.run_step hStep hRun, ?_⟩
    rw [shutdowns, List.flatten_cons, List.map_append, ← List.append_assoc]
    exact hLast

end HeartbeatInv

/-- The wheel shuts down after its period. -/
theorem shutsAt_period (timeMs : Nat) : ShutsAt timeMs (period timeMs) := by
  intro evs hEvs
  obtain ⟨s, outs, hRun, hInv⟩ := (HeartbeatInv.init timeMs).run hEvs fun _ _ => rfl
  exact ⟨s, outs, _, _, hRun, rfl, hInv.count_tick⟩

/-- One connection, and nothing but ticks from then on. -/
def ticked (j : Nat) : List UwsEvent := .connection 0 :: List.replicate j .tick

theorem ticked_succ (j : Nat) : ticked (j + 1) = ticked j ++ [.tick] := by
  rw [ticked, List.replicate_succ', ← List.cons_append]
  rfl

theorem idle_ticked (j : Nat) : idle 0 (ticked j) = some j := by
  induction j with
  | zero => rfl
  | succ j ih =>
    rw [ticked_succ, idle, List.foldl_append, ← idle, ih]
    rfl

theorem ticked_undisturbed (j : Nat) : Undisturbed (ticked j) := by
  constructor
  · intro ws hIn
    rcases List.mem_cons.mp hIn with hFirst | hTick
    · cases hFirst
    · cases List.eq_of_mem_replicate hTick
  · intro ws
    have hTicks : (List.replicate j UwsEvent.tick).count (.connection ws) = 0 := by
      rw [List.count_eq_zero]
      intro hIn
      cases List.eq_of_mem_replicate hIn
    rw [ticked, List.count_cons, hTicks]
    split <;> decide

/-- A connection that is only ticked is not shut down before the tick that is right. -/
theorem not_shut_early {timeMs : Int} {k : Nat} (h : ShutsAt timeMs k) {j : Nat} (hLess : j < k)
    {s : UwsService} {outs : List (List StWs)}
    (hRun : Machine.run UwsService.step (.init timeMs) (ticked j) = some (s, outs)) :
    0 ∉ shutdowns outs := by
  induction j generalizing s outs with
  | zero =>
    obtain ⟨s', out, outs', hStep, hNil, rfl⟩ := Machine.run_cons hRun
    cases hNil
    obtain ⟨w', -, hEq⟩ := Option.bind_eq_some_iff.mp hStep
    cases hEq
    exact List.not_mem_nil
  | succ j ih =>
    rw [ticked_succ] at hRun
    obtain ⟨s₁, outs₁, outs₂, hFirst, hLast, rfl⟩ := Machine.run_split hRun
    obtain ⟨s', out, outs', hStep, hNil, rfl⟩ := Machine.run_cons hLast
    cases hNil
    have hBefore := ih (by omega) hFirst
    have hCount := h.count (ticked_undisturbed j) hFirst hStep 0
    rw [idle_ticked, if_neg (fun hBoth => by have := Option.some.inj hBoth.2; omega)] at hCount
    rw [shutdowns, List.flatten_append, List.map_append, List.mem_append]
    rintro (hOld | hNew)
    · exact hBefore hOld
    · rw [List.flatten_cons, List.flatten_nil, List.append_nil] at hNew
      exact List.count_eq_zero.mp hCount hNew

/-- **Heartbeat**: connections are shut down on time exactly if the time is at most the span of the
wheel. -/
theorem shutsAt_iff {maxHeartbeatTimeMs : Int} (hRun : 1000 < maxHeartbeatTimeMs) :
    ShutsAt maxHeartbeatTimeMs (maxHeartbeatTimeMs.toNat / 1000) ↔
      maxHeartbeatTimeMs.toNat / 1000 ≤ 60 := by
  obtain ⟨timeMs, rfl⟩ := Int.eq_ofNat_of_zero_le (show 0 ≤ maxHeartbeatTimeMs by omega)
  rw [Int.toNat_natCast]
  have hPeriod := shutsAt_period timeMs
  constructor
  · intro hOnTime
    by_contra hOver
    have hLe : period timeMs ≤ 60 := (turn_le (by decide) _).2
    have hPos := period_pos timeMs
    obtain ⟨s, outs, hTicked, -⟩ := (HeartbeatInv.init timeMs).run
      (ticked_undisturbed (period timeMs - 1)) fun _ _ => rfl
    have hUnshut := not_shut_early hPeriod (by omega) hTicked
    have hRight := hPeriod.count (ticked_undisturbed _) hTicked rfl 0
    have hEarly := hOnTime.count (ticked_undisturbed _) hTicked rfl 0
    rw [idle_ticked, if_pos ⟨hUnshut, rfl⟩] at hRight
    rw [idle_ticked, if_neg (fun hBoth => by have := Option.some.inj hBoth.2; omega), hRight] at hEarly
    cases hEarly
  · intro hSpan
    have hTurn : period timeMs = timeMs / 1000 := turn_eq (by omega) hSpan
    rw [← hTurn]
    exact hPeriod

/-- A minute is not too long. -/
theorem shutsAt_iff_minute : ShutsAt 60000 ((60000 : Int).toNat / 1000) ↔
    (60000 : Int).toNat / 1000 ≤ 60 :=
  shutsAt_iff (by decide)

/-- With a second more, a connection is shut down by the first tick. -/
theorem shutsAt_wraps :
    ¬∀ maxHeartbeatTimeMs : Int, 1000 < maxHeartbeatTimeMs →
      ShutsAt maxHeartbeatTimeMs (maxHeartbeatTimeMs.toNat / 1000) := by
  intro h
  have hOnTime := h 61000 (by decide)
  have hCount := hOnTime.count (ticked_undisturbed 0) rfl rfl 0
  exact absurd hCount (by decide)

end DemoCode.WebSocket
