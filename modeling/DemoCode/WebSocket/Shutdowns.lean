import DemoCode.WebSocket.TimingWheel

/-! Which connections the wheel shuts down, when connections go and their addresses are used again. -/

namespace DemoCode.WebSocket

/-- The service, with what only the hub knows: the `ST_WS` made for the connection that is at each
address. -/
structure Hub where
  service : UwsService
  live : Ws → Option StWs := fun _ => none

/-- The events that the hub can deliver: a connection at an address without one, the rest at an
address with one. -/
def Hub.Delivers (w : Hub) : UwsEvent → Prop
  | .connection ws => w.live ws = none
  | .message ws => w.live ws ≠ none
  | .disconnection ws => w.live ws ≠ none
  | .tick => True

instance (w : Hub) : (ev : UwsEvent) → Decidable (w.Delivers ev)
  | .connection ws => inferInstanceAs (Decidable (w.live ws = none))
  | .message ws => inferInstanceAs (Decidable (w.live ws ≠ none))
  | .disconnection ws => inferInstanceAs (Decidable (w.live ws ≠ none))
  | .tick => inferInstanceAs (Decidable True)

def Hub.liveAfter (w : Hub) : UwsEvent → Ws → Option StWs
  | .connection ws => Function.update w.live ws (some ⟨w.service.made, ws⟩)
  | .disconnection ws => Function.update w.live ws none
  | _ => w.live

def Hub.step (w : Hub) (ev : UwsEvent) : Option (Hub × List StWs) :=
  if w.Delivers ev then
    (w.service.step ev).map fun x => (⟨x.1, w.liveAfter ev⟩, x.2)
  else
    none

/-- A connection goes only when the wheel has shut it down. -/
def GoesLate (w : Hub) : UwsEvent → Prop
  | .disconnection ws => ∀ p, w.live ws = some p → p ∉ w.service.timeWheel.held
  | _ => True

/-- What the buckets refer to belongs to the connections that are there. -/
structure Hub.Inv (w : Hub) : Prop where
  mapped : w.service.wsMap = w.live
  held : ∀ p ∈ w.service.timeWheel.held, w.live p.ws = some p

theorem CRoughTimingWheel.mem_held_add {w w' : CRoughTimingWheel} {p q : StWs} {timeMs : Int}
    (h : w.add q timeMs = some w') (hIn : p ∈ w'.held) : p ∈ w.held ∨ p = q := by
  simp only [add] at h
  split at h
  · cases h
  cases h
  obtain ⟨b, hBucket, hMem⟩ := List.mem_flatten.mp hIn
  obtain ⟨i, hGet⟩ := List.mem_iff_getElem?.mp hBucket
  rw [List.getElem?_modify, Option.map_eq_map, Option.map_eq_some_iff] at hGet
  obtain ⟨old, hOld, rfl⟩ := hGet
  have hFlat : ∀ r ∈ old, r ∈ w.held :=
    fun r hOldIn => List.mem_flatten.mpr ⟨old, List.mem_of_getElem? hOld, hOldIn⟩
  split at hMem
  · rcases List.mem_append.mp hMem with hBefore | hNew
    · exact .inl (hFlat p hBefore)
    · exact .inr (List.mem_singleton.mp hNew)
  · exact .inl (hFlat p hMem)

theorem CRoughTimingWheel.mem_held_advanceClock {w : CRoughTimingWheel} {p : StWs}
    (hIn : p ∈ w.advanceClock.1.held) : p ∈ w.held := by
  rw [mem_held, ahead_advanceClock] at hIn
  obtain ⟨d, -, hDue⟩ := hIn
  exact mem_held.mpr ⟨d + 1, hDue⟩

/-- What the clock destroys was held. -/
theorem CRoughTimingWheel.held_of_advanceClock {w : CRoughTimingWheel} {p : StWs}
    (hIn : p ∈ w.advanceClock.2) : p ∈ w.held :=
  mem_held.mpr ⟨1, ((mem_advanceClock w p).mp hIn).1⟩

/-- **Step**: the buckets refer only to what is there. -/
theorem Hub.Inv.step {w w' : Hub} {ev : UwsEvent} {out : List StWs} (hInv : w.Inv)
    (hLate : GoesLate w ev) (h : w.step ev = some (w', out)) : w'.Inv := by
  rw [Hub.step] at h
  split at h
  swap
  · cases h
  rename_i hDelivers
  obtain ⟨x, hStep, hEq⟩ := Option.map_eq_some_iff.mp h
  cases hEq
  cases ev with
  | connection ws =>
    obtain ⟨timeWheel, hAdd, hEq⟩ := Option.bind_eq_some_iff.mp hStep
    cases hEq
    refine ⟨congrArg (Function.update · ws _) hInv.mapped, ?_⟩
    intro p hIn
    show Function.update w.live ws _ p.ws = some p
    rcases CRoughTimingWheel.mem_held_add hAdd hIn with hOld | rfl
    · have hLive := hInv.held p hOld
      have hOther : p.ws ≠ ws := by
        rintro rfl
        rw [hDelivers] at hLive
        cases hLive
      rw [Function.update_of_ne hOther]
      exact hLive
    · exact Function.update_self ..
  | message ws =>
    rw [UwsService.step, hInv.mapped] at hStep
    rcases hLive : w.live ws with _ | wsPtr
    · exact absurd hLive hDelivers
    rw [hLive] at hStep
    dsimp only at hStep
    split at hStep
    · obtain ⟨timeWheel, hAdd, hEq⟩ := Option.bind_eq_some_iff.mp hStep
      cases hEq
      refine ⟨rfl, ?_⟩
      intro p hIn
      rcases CRoughTimingWheel.mem_held_add hAdd hIn with hOld | rfl
      · exact hInv.held p hOld
      · rename_i hHeld
        exact hInv.held p hHeld
    · cases hStep
      exact hInv
  | disconnection ws =>
    cases hStep
    refine ⟨congrArg (Function.update · ws none) hInv.mapped, ?_⟩
    intro p hIn
    show Function.update w.live ws none p.ws = some p
    have hLive := hInv.held p hIn
    have hOther : p.ws ≠ ws := by
      rintro rfl
      exact hLate p hLive hIn
    rw [Function.update_of_ne hOther]
    exact hLive
  | tick =>
    cases hStep
    exact ⟨hInv.mapped, fun p hIn => hInv.held p (CRoughTimingWheel.mem_held_advanceClock hIn)⟩

/-- What is destroyed at an event. -/
theorem UwsService.held_of_step {s s' : UwsService} {ev : UwsEvent} {out : List StWs}
    (h : s.step ev = some (s', out)) : ∀ p ∈ out, p ∈ s.timeWheel.held := by
  cases ev with
  | connection ws =>
    obtain ⟨timeWheel, -, hEq⟩ := Option.bind_eq_some_iff.mp h
    cases hEq
    exact fun p hIn => absurd hIn List.not_mem_nil
  | message ws =>
    rw [UwsService.step] at h
    split at h
    · cases h
      exact fun p hIn => absurd hIn List.not_mem_nil
    split at h
    · obtain ⟨timeWheel, -, hEq⟩ := Option.bind_eq_some_iff.mp h
      cases hEq
      exact fun p hIn => absurd hIn List.not_mem_nil
    · cases h
      exact fun p hIn => absurd hIn List.not_mem_nil
  | disconnection ws =>
    cases h
    exact fun p hIn => absurd hIn List.not_mem_nil
  | tick =>
    cases h
    exact fun p hIn => CRoughTimingWheel.held_of_advanceClock hIn

/-- **Shutdowns**: when connections go only after the wheel has shut them down, whatever it shuts down
is there, and is the connection that it was made for. -/
theorem run_shutdowns {maxHeartbeatTimeMs : Int} {w w' : Hub} {evs : List UwsEvent} {ev : UwsEvent}
    {outs : List (List StWs)} {out : List StWs}
    (hLate : Machine.Along Hub.step GoesLate ⟨.init maxHeartbeatTimeMs, fun _ => none⟩ evs)
    (hRun : Machine.run Hub.step ⟨.init maxHeartbeatTimeMs, fun _ => none⟩ evs = some (w, outs))
    (h : w.step ev = some (w', out)) : ∀ p ∈ out, w.live p.ws = some p := by
  have hFirst : Hub.Inv ⟨.init maxHeartbeatTimeMs, fun _ => none⟩ := by
    refine ⟨rfl, ?_⟩
    intro p hIn
    simp [CRoughTimingWheel.held, UwsService.init, CRoughTimingWheel.ofSize] at hIn
  have hInv : w.Inv :=
    Machine.run_keeps (fun hKept hP hStep => Hub.Inv.step hKept hP hStep) hFirst hLate hRun
  rw [Hub.step] at h
  split at h
  · obtain ⟨x, hStep, hEq⟩ := Option.map_eq_some_iff.mp h
    cases hEq
    exact fun p hIn => hInv.held p (UwsService.held_of_step hStep p hIn)
  · cases h

/-- A connection that stays silent for two ticks, goes then, and is followed by another one at its address,
which the wheel shuts down in its turn. -/
theorem run_shutdowns_silent :
    ∃ w outs w' out, Machine.run Hub.step ⟨.init 2000, fun _ => none⟩
        [.connection 7, .tick, .tick, .disconnection 7, .connection 7, .tick] = some (w, outs) ∧
      w.step .tick = some (w', out) ∧ out = [⟨1, 7⟩] ∧ ∀ p ∈ out, w.live p.ws = some p := by
  refine ⟨_, _, _, _, rfl, rfl, rfl, ?_⟩
  refine @run_shutdowns 2000 _ _ [.connection 7, .tick, .tick, .disconnection 7, .connection 7, .tick]
    .tick _ _ ?_ rfl rfl
  refine Machine.along_cons trivial rfl (Machine.along_cons trivial rfl (Machine.along_cons trivial rfl ?_))
  refine Machine.along_cons (fun p _ => ?_) rfl
    (Machine.along_cons trivial rfl (Machine.along_cons trivial rfl trivial))
  exact List.not_mem_nil

/-- A connection goes, and two ticks later it is shut down. -/
theorem run_shutdowns_gone :
    ¬∀ (maxHeartbeatTimeMs : Int) (w w' : Hub) (evs : List UwsEvent) (ev : UwsEvent)
      (outs : List (List StWs)) (out : List StWs),
      Machine.run Hub.step ⟨.init maxHeartbeatTimeMs, fun _ => none⟩ evs = some (w, outs) →
      w.step ev = some (w', out) → ∀ p ∈ out, w.live p.ws = some p := by
  intro h
  have hLive := h 2000 _ _ [.connection 7, .disconnection 7, .tick] .tick _ _ rfl rfl ⟨0, 7⟩
    (by decide)
  exact absurd hLive (by decide)

end DemoCode.WebSocket
