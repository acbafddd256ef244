import Mathlib.Data.List.Dedup
import Mathlib.Data.List.GetD
import Mathlib.Data.Nat.ModEq
import DemoCode.Lib.Countdown
import DemoCode.Lib.Machine

/-! `CRoughTimingWheel` and the callbacks of `UwsService` in `uws_service.hpp`: the buckets hold
references to the `ST_WS` of the connections, and an `ST_WS` shuts its connection down when the last
of them is dropped. -/

namespace DemoCode.WebSocket

/-- A connection, known by its address. -/
abbrev Ws := Nat

/-- An `ST_WS`, the `made`-th one that is made; where it stands in a list it is a `shared_ptr` to
it. -/
structure StWs where
  made : Nat
  ws : Ws
  deriving DecidableEq, Repr

structure CRoughTimingWheel where
  wheelSize : Nat
  tickMs : Nat
  currentTime : Nat
  bucketVec : List (List StWs)
  sized : bucketVec.length = wheelSize
  current : currentTime < wheelSize

namespace CRoughTimingWheel

def ofSize (size : Nat) (tickMs : Nat) (hSize : 0 < size) : CRoughTimingWheel where
  wheelSize := size
  tickMs
  currentTime := 0
  bucketVec := List.replicate size []
  sized := List.length_replicate
  current := hSize

def bucket (w : CRoughTimingWheel) (i : Nat) : List StWs := w.bucketVec.getD i []

/-- The references in all buckets. -/
def held (w : CRoughTimingWheel) : List StWs := w.bucketVec.flatten

/-- `Add`; a negative place is outside of the buckets. -/
def add (w : CRoughTimingWheel) (ptr : StWs) (timeMs : Int) : Option CRoughTimingWheel :=
  let advanceTimes := timeMs.tdiv w.tickMs
  let nextTime := (w.currentTime + advanceTimes).tmod w.wheelSize
  if nextTime < 0 then
    none
  else
    some { w with
      bucketVec := w.bucketVec.modify nextTime.toNat (· ++ [ptr])
      sized := by rw [List.length_modify, w.sized] }

/-- `AdvanceClock`, with each `ST_WS` that is destroyed, in the order of the bucket. -/
def advanceClock (w : CRoughTimingWheel) : CRoughTimingWheel × List StWs :=
  let currentTime := (w.currentTime + 1) % w.wheelSize
  let w' : CRoughTimingWheel :=
    { w with
      currentTime
      bucketVec := w.bucketVec.set currentTime []
      sized := by rw [List.length_set, w.sized]
      current := Nat.mod_lt _ (Nat.zero_lt_of_lt w.current) }
  (w', (w.bucket currentTime).dedup.filter (· ∉ w'.held))

end CRoughTimingWheel

/-- `UwsService`, as far as the wheel is concerned; `m_wsMap` holds weak references. -/
structure UwsService where
  maxHeartbeatTime : Int
  timeWheel : CRoughTimingWheel
  wsMap : Ws → Option StWs := fun _ => none
  made : Nat := 0

/-- `Init`. -/
def UwsService.init (maxHeartbeatTimeMs : Int) : UwsService where
  maxHeartbeatTime := maxHeartbeatTimeMs
  timeWheel := .ofSize 60 1000 (by decide)

inductive UwsEvent where
  | connection (ws : Ws)
  | message (ws : Ws)
  | disconnection (ws : Ws)
  | tick
  deriving DecidableEq, Repr

/-- The callbacks of the hub and of the timer, with each `ST_WS` that shuts its connection down. -/
def UwsService.step (s : UwsService) : UwsEvent → Option (UwsService × List StWs)
  | .connection ws => do
    let wsPtr : StWs := ⟨s.made, ws⟩
    let timeWheel ← s.timeWheel.add wsPtr s.maxHeartbeatTime
    some ({ s with
      timeWheel
      wsMap := Function.update s.wsMap ws (some wsPtr)
      made := s.made + 1 }, [])
  | .message ws =>
    match s.wsMap ws with
    | none => some (s, [])
    | some wsPtr =>
      -- `expired()`: no bucket refers to it any more
      if wsPtr ∈ s.timeWheel.held then do
        let timeWheel ← s.timeWheel.add wsPtr s.maxHeartbeatTime
        some ({ s with timeWheel }, [])
      else
        some (s, [])
  | .disconnection ws => some ({ s with wsMap := Function.update s.wsMap ws none }, [])
  | .tick => some ({ s with timeWheel := s.timeWheel.advanceClock.1 }, s.timeWheel.advanceClock.2)

/-! ### The wheel counts down -/

namespace CRoughTimingWheel

open Countdown

/-- The references ahead of the current time, each with the ticks until its bucket is cleared. -/
def ahead (w : CRoughTimingWheel) : Set (StWs × ℕ) :=
  {x | 0 < x.2 ∧ x.2 ≤ w.wheelSize ∧ x.1 ∈ w.bucket ((w.currentTime + x.2) % w.wheelSize)}

/-- The ticks until the bucket is cleared that is some places further on. -/
def turn (wheelSize advanceTimes : Nat) : Nat :=
  if advanceTimes % wheelSize = 0 then wheelSize else advanceTimes % wheelSize

theorem turn_le {wheelSize : Nat} (hPos : 0 < wheelSize) (advanceTimes : Nat) :
    0 < turn wheelSize advanceTimes ∧ turn wheelSize advanceTimes ≤ wheelSize := by
  have hLess := Nat.mod_lt advanceTimes hPos
  rw [turn]
  split <;> omega

theorem turn_eq {wheelSize advanceTimes : Nat} (hPos : 0 < advanceTimes)
    (hLe : advanceTimes ≤ wheelSize) : turn wheelSize advanceTimes = advanceTimes := by
  rw [turn]
  rcases Nat.lt_or_eq_of_le hLe with hLess | rfl
  · rw [Nat.mod_eq_of_lt hLess, if_neg (Nat.ne_of_gt hPos)]
  · rw [Nat.mod_self, if_pos rfl]

/-- The place of an addition is met first after its turn. -/
theorem place_iff {wheelSize current advanceTimes d : Nat} (hPos : 0 < d) (hLe : d ≤ wheelSize) :
    (current + d) % wheelSize = (current + advanceTimes) % wheelSize ↔
      d = turn wheelSize advanceTimes := by
  have hCancel : (current + d) % wheelSize = (current + advanceTimes) % wheelSize ↔
      d % wheelSize = advanceTimes % wheelSize :=
    ⟨fun h => Nat.ModEq.add_left_cancel' current h, fun h => Nat.ModEq.add_left current h⟩
  rw [hCancel, turn]
  rcases Nat.lt_or_eq_of_le hLe with hLess | rfl
  · rw [Nat.mod_eq_of_lt hLess]
    split <;> omega
  · rw [Nat.mod_self]
    have hLess := Nat.mod_lt advanceTimes hPos
    split <;> omega

theorem mem_held {w : CRoughTimingWheel} {p : StWs} : p ∈ w.held ↔ (due w.ahead p).Nonempty := by
  have hSize : 0 < w.wheelSize := Nat.zero_lt_of_lt w.current
  rw [held, List.mem_flatten]
  constructor
  · rintro ⟨b, hBucket, hIn⟩
    obtain ⟨i, hLess, rfl⟩ := List.mem_iff_getElem.mp hBucket
    have hIndex : i < w.wheelSize := w.sized ▸ hLess
    -- the bucket `i` is met after going round from the current one
    refine ⟨turn w.wheelSize (w.wheelSize + i - w.currentTime), ?_, ?_, ?_⟩
    · exact (turn_le hSize _).1
    · exact (turn_le hSize _).2
    · obtain ⟨hPos, hLe⟩ := turn_le hSize (w.wheelSize + i - w.currentTime)
      have hCurrent := w.current
      have hPlace : (w.currentTime + turn w.wheelSize (w.wheelSize + i - w.currentTime)) %
          w.wheelSize = i := by
        rw [(place_iff hPos hLe).mpr rfl, show w.currentTime + (w.wheelSize + i - w.currentTime) =
          w.wheelSize + i by omega, Nat.add_mod_left, Nat.mod_eq_of_lt hIndex]
      show p ∈ w.bucket _
      rw [hPlace, bucket, List.getD_eq_getElem _ _ hLess]
      exact hIn
  · rintro ⟨d, -, -, hIn⟩
    have hLess : (w.currentTime + d) % w.wheelSize < w.bucketVec.length := by
      rw [w.sized]
      exact Nat.mod_lt _ hSize
    rw [bucket, List.getD_eq_getElem _ _ hLess] at hIn
    exact ⟨_, List.getElem_mem hLess, hIn⟩

/-- An addition after a number of milliseconds is a reference that is due after the turn of the
wheel to it. -/
theorem add_spec (w : CRoughTimingWheel) (ptr : StWs) (timeMs : Nat) :
    ∃ w', w.add ptr timeMs = some w' ∧ w'.wheelSize = w.wheelSize ∧ w'.tickMs = w.tickMs ∧
      w'.ahead = insert (ptr, turn w.wheelSize (timeMs / w.tickMs)) w.ahead := by
  have hSize : 0 < w.wheelSize := Nat.zero_lt_of_lt w.current
  have hPlace : ((w.currentTime : Int) + (timeMs : Int).tdiv w.tickMs).tmod w.wheelSize =
      ((w.currentTime + timeMs / w.tickMs) % w.wheelSize : Nat) := rfl
  have hLow : ¬(((w.currentTime + timeMs / w.tickMs) % w.wheelSize : Nat) : Int) < 0 := by omega
  simp only [add, hPlace, if_neg hLow]
  refine ⟨_, rfl, rfl, rfl, ?_⟩
  ext ⟨p, d⟩
  have hBucket : ∀ i, p ∈ (w.bucketVec.modify ((w.currentTime + timeMs / w.tickMs) % w.wheelSize)
      (· ++ [ptr])).getD i [] ↔ p ∈ w.bucket i ∨
        (i < w.wheelSize ∧ (w.currentTime + timeMs / w.tickMs) % w.wheelSize = i ∧ p = ptr) := by
    intro i
    rw [bucket, List.getD_eq_getElem?_getD, List.getD_eq_getElem?_getD, List.getElem?_modify]
    by_cases hLess : i < w.wheelSize
    · rw [List.getElem?_eq_getElem (w.sized.symm ▸ hLess)]
      by_cases hSame : (w.currentTime + timeMs / w.tickMs) % w.wheelSize = i
      · simp [hSame, hLess]
      · simp [hSame]
    · rw [List.getElem?_eq_none (by rw [w.sized]; omega)]
      simp [hLess]
  have hRange : (w.currentTime + d) % w.wheelSize < w.wheelSize := Nat.mod_lt _ hSize
  show (0 < d ∧ d ≤ w.wheelSize ∧
      p ∈ (w.bucketVec.modify ((w.currentTime + timeMs / w.tickMs) % w.wheelSize)
        (· ++ [ptr])).getD ((w.currentTime + d) % w.wheelSize) []) ↔
    (p, d) = (ptr, turn w.wheelSize (timeMs / w.tickMs)) ∨
      (0 < d ∧ d ≤ w.wheelSize ∧ p ∈ w.bucket ((w.currentTime + d) % w.wheelSize))
  rw [hBucket, Prod.mk.injEq]
  constructor
  · rintro ⟨hPos, hLe, hOld | ⟨-, hHere, rfl⟩⟩
    · exact .inr ⟨hPos, hLe, hOld⟩
    · exact .inl ⟨rfl, (place_iff hPos hLe).mp hHere.symm⟩
  · rintro (⟨rfl, rfl⟩ | ⟨hPos, hLe, hOld⟩)
    · obtain ⟨hPos, hLe⟩ := turn_le hSize (timeMs / w.tickMs)
      exact ⟨hPos, hLe, .inr ⟨hRange, ((place_iff hPos hLe).mpr rfl).symm, rfl⟩⟩
    · exact ⟨hPos, hLe, .inl hOld⟩

/-- The clock goes on by a tick. -/
theorem ahead_advanceClock (w : CRoughTimingWheel) : w.advanceClock.1.ahead = tick w.ahead := by
  have hSize : 0 < w.wheelSize := Nat.zero_lt_of_lt w.current
  ext ⟨p, d⟩
  show (0 < d ∧ d ≤ w.wheelSize ∧
      p ∈ (w.bucketVec.set ((w.currentTime + 1) % w.wheelSize) []).getD
        (((w.currentTime + 1) % w.wheelSize + d) % w.wheelSize) []) ↔
    (0 < d ∧ 0 < d + 1 ∧ d + 1 ≤ w.wheelSize ∧
      p ∈ w.bucket ((w.currentTime + (d + 1)) % w.wheelSize))
  rw [Nat.mod_add_mod, show w.currentTime + 1 + d = w.currentTime + (d + 1) by omega,
    List.getD_eq_getElem?_getD, List.getElem?_set, w.sized]
  constructor
  · rintro ⟨hPos, hLe, hIn⟩
    split at hIn
    · split at hIn <;> exact absurd hIn List.not_mem_nil
    · rename_i hOther
      refine ⟨hPos, Nat.succ_pos d, ?_, hIn⟩
      -- after a whole turn the bucket would be the one that has been cleared
      by_contra hOver
      obtain rfl : d = w.wheelSize := by omega
      apply hOther
      rw [show w.currentTime + (w.wheelSize + 1) = w.currentTime + 1 + w.wheelSize by omega,
        Nat.add_mod_right]
  · rintro ⟨hPos, -, hLe, hIn⟩
    refine ⟨hPos, by omega, ?_⟩
    rw [if_neg]
    · exact hIn
    · intro hSame
      have hOne := (place_iff (Nat.succ_pos d) hLe).mp hSame.symm
      rw [turn_eq (by decide) (by omega)] at hOne
      omega

/-- What the clock destroys is what the tick releases. -/
theorem mem_advanceClock (w : CRoughTimingWheel) (p : StWs) :
    p ∈ w.advanceClock.2 ↔ Released w.ahead p := by
  have hOne : p ∈ w.bucket ((w.currentTime + 1) % w.wheelSize) ↔ 1 ∈ due w.ahead p :=
    ⟨fun hIn => ⟨Nat.zero_lt_one, Nat.zero_lt_of_lt w.current, hIn⟩, fun hIn => hIn.2.2⟩
  show p ∈ (w.bucket ((w.currentTime + 1) % w.wheelSize)).dedup.filter
    (· ∉ w.advanceClock.1.held) ↔ _
  rw [List.mem_filter, List.mem_dedup, hOne, Released, decide_eq_true_eq, mem_held,
    ahead_advanceClock, Set.not_nonempty_iff_eq_empty]

theorem advanceClock_nodup (w : CRoughTimingWheel) : w.advanceClock.2.Nodup :=
  (List.nodup_dedup _).filter _

end CRoughTimingWheel

end DemoCode.WebSocket
