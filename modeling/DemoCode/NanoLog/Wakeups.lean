import DemoCode.NanoLog.NanoLogger

/-! The worker thread registers as a waiter after it found the queue empty, and `Push` releases it only
when it sees a waiter.  A line that is pushed in between stays in the queue while the worker sleeps. -/

namespace DemoCode.NanoLog

variable {ι L : Type*}

/-- A caller of `Push` between its enqueue and its release. -/
def ProducerPc.between : ProducerPc L → Bool
  | .readWaiters => true
  | .post => true
  | _ => false

/-- The worker as a waiter. -/
def ConsumerPc.waiters : ConsumerPc L → UInt32
  | .wait => 1
  | .subWaiter => 1
  | _ => 0

namespace NGNanoLogger

/-- A lost wake-up: lines are in the queue, the worker is blocked, and nobody is about to release it. -/
structure Lost (s : NGNanoLogger ι L) : Prop where
  isExit : s.isExit = false
  pending : s.logContent ≠ []
  blocked : s.consumer = .wait
  tokens : s.tokens = 0
  producers : ∀ i, (s.producer i).between = false

/-- The condition on a step: when the worker registers as a waiter, nothing is in the queue that was
not there when it looked, or a release is left, or to come from a caller of `Push`. -/
def Watched (s : NGNanoLogger ι L) : Event ι L → Prop
  | .consumer => s.consumer = .addWaiter → s.isExit = false →
      s.logContent = [] ∨ 0 < s.tokens ∨ ∃ i, (s.producer i).between = true
  | _ => True

/-- The invariant: the worker is counted while it waits. -/
def Counted (s : NGNanoLogger ι L) : Prop := s.waiterCount = s.consumer.waiters

theorem not_lost_of_tokens {s : NGNanoLogger ι L} (h : 0 < s.tokens) : ¬ s.Lost :=
  fun hLost => Nat.ne_of_gt h hLost.tokens

theorem not_lost_of_consumer {s : NGNanoLogger ι L} (h : s.consumer ≠ .wait) : ¬ s.Lost :=
  fun hLost => h hLost.blocked

theorem not_lost_of_between {s : NGNanoLogger ι L} {i : ι} (h : (s.producer i).between = true) :
    ¬ s.Lost := by
  intro hLost
  rw [hLost.producers i] at h
  cases h

variable {p : Platform} {s s' : NGNanoLogger ι L}

/-- What a lost wake-up depends on. -/
theorem Lost.of_same (h : s'.Lost) (hExit : s'.isExit = s.isExit)
    (hLogs : s'.logContent = s.logContent) (hConsumer : s'.consumer = s.consumer)
    (hTokens : s'.tokens = s.tokens)
    (hProducers : ∀ i, (s'.producer i).between = (s.producer i).between) : s.Lost where
  isExit := hExit ▸ h.isExit
  pending := hLogs ▸ h.pending
  blocked := hConsumer ▸ h.blocked
  tokens := hTokens ▸ h.tokens
  producers := fun i => hProducers i ▸ h.producers i

variable [DecidableEq ι]

theorem stepProducer_step {i : ι} {pc : ProducerPc L} (hCounted : s.Counted)
    (h : s.stepProducer p i pc = some s') : s'.Counted ∧ ¬ s'.Lost := by
  cases producerMove h with
  | enqueue log =>
    exact ⟨hCounted, not_lost_of_between (i := i) (by simp [ProducerPc.between])⟩
  | read =>
    refine ⟨hCounted, ?_⟩
    by_cases hWait : s.consumer = .wait
    · -- the worker is counted, so that this caller goes on to release it
      have hCount : s.waiterCount = 1 := by rw [hCounted, hWait]; rfl
      exact not_lost_of_between (i := i) (by simp [hCount, ProducerPc.between])
    · exact not_lost_of_consumer hWait
  | post => exact ⟨hCounted, not_lost_of_tokens (post_tokens_pos p s)⟩

omit [DecidableEq ι] in
/-- A step of the worker; only its registration blocks it. -/
theorem stepConsumer_step {pc : ConsumerPc L} (hCounted : s.Counted) (hPc : s.consumer = pc)
    (h : s.stepConsumer pc = some s') :
    s'.Counted ∧ (¬ s'.Lost ↔ Watched s (.consumer : Event ι L)) := by
  have hCount : s.waiterCount = pc.waiters := by rw [hCounted, hPc]
  have hElse : pc ≠ .addWaiter → s'.consumer ≠ .wait →
      (¬ s'.Lost ↔ Watched s (.consumer : Event ι L)) := fun hNot hAwake =>
    iff_of_true (not_lost_of_consumer hAwake) fun hIs => absurd (hPc.symm.trans hIs) hNot
  cases consumerMove h with
  | empty hLogs => exact ⟨hCount, hElse nofun nofun⟩
  | take log rest hLogs => exact ⟨hCount, hElse nofun nofun⟩
  | leave hExit => exact ⟨hCount, hElse nofun nofun⟩
  | stay hExit => exact ⟨hCount, hElse nofun nofun⟩
  | register =>
    refine ⟨by simp [Counted, ConsumerPc.waiters, hCount], ?_⟩
    constructor
    · intro hNot _ hExit
      by_contra hNone
      simp only [not_or, not_exists, Nat.not_lt, Nat.le_zero, Bool.not_eq_true] at hNone
      exact hNot ⟨hExit, hNone.1, rfl, hNone.2.1, hNone.2.2⟩
    · intro hWatched hLost
      rcases hWatched hPc hLost.isExit with hNil | hTokens | ⟨i, hBetween⟩
      · exact hLost.pending hNil
      · exact absurd hLost.tokens (Nat.ne_of_gt hTokens)
      · exact absurd (hLost.producers i) (by simp [hBetween])
  | wake hTokens => exact ⟨hCount, hElse nofun nofun⟩
  | unregister =>
    exact ⟨by simp [Counted, ConsumerPc.waiters, hCount], hElse nofun nofun⟩
  | stop log hExit => exact ⟨hCount, hElse nofun nofun⟩
  | go log hExit => exact ⟨hCount, hElse nofun nofun⟩
  | write log => exact ⟨hCount, hElse nofun nofun⟩

omit [DecidableEq ι] in
/-- `Release` may only help. -/
theorem stepRelease_step {pc : ReleasePc} (hCounted : s.Counted) (hHere : ¬ s.Lost)
    (h : s.stepRelease p pc = some s') : s'.Counted ∧ ¬ s'.Lost := by
  have hFrame := releaseFrame h
  refine ⟨by rw [Counted, hFrame.waiterCount, hFrame.consumer, hCounted], fun hLost => ?_⟩
  have hExit : s.isExit = false := by
    have hOff := hLost.isExit
    rw [hFrame.isExit, Bool.or_eq_false_iff] at hOff
    exact hOff.1
  rcases hFrame.tokens with hTokens | hSome
  · exact hHere (hLost.of_same (hLost.isExit.trans hExit.symm) hFrame.logContent hFrame.consumer hTokens
      fun i => by rw [hFrame.producer])
  · exact not_lost_of_tokens hSome hLost

/-- **Step lemma**: from a state without a lost wake-up, only the worker's registration can lose one. -/
theorem step_lost {ev : Event ι L} {out : Unit} (hCounted : s.Counted) (hHere : ¬ s.Lost)
    (h : s.step p ev = some (s', out)) : s'.Counted ∧ (¬ s'.Lost ↔ s.Watched ev) := by
  cases ev with
  | push i log =>
    simp only [step] at h
    split at h
    next hIdle =>
      cases h
      refine ⟨hCounted, iff_of_true (fun hLost => hHere ?_) trivial⟩
      refine hLost.of_same rfl rfl rfl rfl fun j => ?_
      by_cases hj : j = i
      · subst hj
        cases hInit : s.isInitialize <;> simp [hIdle, ProducerPc.between]
      · simp [hj]
    next => cases h
  | producer i =>
    obtain ⟨s₁, hStep, hEq⟩ := Option.map_eq_some_iff.mp h
    obtain ⟨rfl, -⟩ := Prod.mk.inj hEq
    obtain ⟨hNext, hNot⟩ := stepProducer_step hCounted hStep
    exact ⟨hNext, iff_of_true hNot trivial⟩
  | consumer =>
    obtain ⟨s₁, hStep, hEq⟩ := Option.map_eq_some_iff.mp h
    obtain ⟨rfl, -⟩ := Prod.mk.inj hEq
    exact stepConsumer_step hCounted rfl hStep
  | release =>
    simp only [step, Option.ite_none_right_eq_some, Option.some.injEq, Prod.mk.injEq] at h
    obtain ⟨-, rfl, -⟩ := h
    exact ⟨hCounted, iff_of_true (fun hLost => hHere (hLost.of_same rfl rfl rfl rfl fun _ => rfl))
      trivial⟩
  | releaser =>
    obtain ⟨s₁, hStep, hEq⟩ := Option.map_eq_some_iff.mp h
    obtain ⟨rfl, -⟩ := Prod.mk.inj hEq
    obtain ⟨hNext, hNot⟩ := stepRelease_step hCounted hHere hStep
    exact ⟨hNext, iff_of_true hNot trivial⟩

/-- No state of a run has a lost wake-up exactly if the worker never registers as a waiter over lines
that were pushed since it looked and that nobody is left to release it for. -/
theorem no_lost_wakeup_iff (p : Platform) {evs : List (Event ι L)} {t : NGNanoLogger ι L}
    {outs : List Unit} (hRun : Machine.run (step p) initialized evs = some (t, outs)) :
    Machine.Throughout (step p) (fun s => ¬ s.Lost) initialized evs ↔
      Machine.Along (step p) Watched initialized evs :=
  Machine.throughout_iff (fun hCounted hHere hStep => step_lost hCounted hHere hStep)
    (I := Counted) rfl (fun hLost => hLost.pending rfl) hRun

/-- A line that is pushed when the worker has registered. -/
theorem no_lost_wakeup_iff_registered :
    Machine.Throughout (step .windows) (fun s : NGNanoLogger Bool ℕ => ¬ s.Lost) initialized
      [.consumer, .consumer, .consumer, .push true 7, .producer true, .producer true] ↔
    Machine.Along (step .windows) Watched (initialized : NGNanoLogger Bool ℕ)
      [.consumer, .consumer, .consumer, .push true 7, .producer true, .producer true] :=
  no_lost_wakeup_iff .windows rfl

/-- A line that is pushed after the worker looked and before it registers. -/
theorem lost_wakeup : ∃ evs t outs,
    Machine.run (step .windows) (initialized : NGNanoLogger Bool ℕ) evs = some (t, outs) ∧ t.Lost := by
  refine ⟨[.consumer, .consumer, .push true 7, .producer true, .producer true, .consumer],
    _, _, rfl, rfl, nofun, rfl, rfl, ?_⟩
  intro i
  cases i <;> rfl

/-! ### Calls that do not come in between -/

/-- The worker between its look at the queue and its registration. -/
def looked : ConsumerPc L → Bool
  | .testExit => true
  | .addWaiter => true
  | _ => false

/-- No caller of `Push` reads the number of waiters while the worker is about to become one. -/
def Undisturbed (s : NGNanoLogger ι L) (ev : Event ι L) : Prop :=
  ∀ i, ev = .producer i → s.producer i = .readWaiters → looked s.consumer = false

/-- What such calls keep: lines that came after the worker looked have somebody to release it. -/
def Covered (s : NGNanoLogger ι L) : Prop :=
  looked s.consumer = true → s.logContent = [] ∨ 0 < s.tokens ∨ ∃ i, (s.producer i).between = true

theorem stepProducer_covered {i : ι} {pc : ProducerPc L} (hPc : s.producer i = pc)
    (hEv : s.Undisturbed (.producer i)) (hStep : s.stepProducer p i pc = some s') : s'.Covered := by
  cases producerMove hStep with
  | enqueue log => exact fun _ => .inr (.inr ⟨i, by simp [ProducerPc.between]⟩)
  | read =>
    intro hLooked
    rw [hEv i rfl hPc] at hLooked
    cases hLooked
  | post => exact fun _ => .inr (.inl (post_tokens_pos p s))

omit [DecidableEq ι] in
theorem stepConsumer_covered {pc : ConsumerPc L} (h : s.Covered) (hPc : s.consumer = pc)
    (hStep : s.stepConsumer pc = some s') : s'.Covered := by
  cases consumerMove hStep with
  | empty hLogs => exact fun _ => .inl hLogs
  | stay hExit => exact fun _ => h (by rw [hPc]; rfl)
  | take log rest hLogs => exact nofun
  | leave hExit => exact nofun
  | register => exact nofun
  | wake hTokens => exact nofun
  | unregister => exact nofun
  | stop log hExit => exact nofun
  | go log hExit => exact nofun
  | write log => exact nofun

omit [DecidableEq ι] in
theorem stepRelease_covered {pc : ReleasePc} (h : s.Covered)
    (hStep : s.stepRelease p pc = some s') : s'.Covered := by
  have hFrame := releaseFrame hStep
  intro hLooked
  rw [hFrame.consumer] at hLooked
  rw [hFrame.logContent, hFrame.producer]
  rcases hFrame.tokens with hTokens | hSome
  · rw [hTokens]
    exact h hLooked
  · exact .inr (.inl hSome)

theorem step_covered {ev : Event ι L} {out : Unit} (h : s.Covered) (hEv : s.Undisturbed ev)
    (hStep : s.step p ev = some (s', out)) : s'.Covered := by
  cases ev with
  | push i log =>
    simp only [step] at hStep
    split at hStep
    next hIdle =>
      cases hStep
      intro hLooked
      refine (h hLooked).imp_right (Or.imp_right fun ⟨j, hBetween⟩ => ⟨j, ?_⟩)
      have hNe : j ≠ i := by
        rintro rfl
        rw [hIdle] at hBetween
        cases hBetween
      simpa [hNe] using hBetween
    next => cases hStep
  | producer i =>
    obtain ⟨s₁, hMove, hEq⟩ := Option.map_eq_some_iff.mp hStep
    obtain ⟨rfl, -⟩ := Prod.mk.inj hEq
    exact stepProducer_covered rfl hEv hMove
  | consumer =>
    obtain ⟨s₁, hMove, hEq⟩ := Option.map_eq_some_iff.mp hStep
    obtain ⟨rfl, -⟩ := Prod.mk.inj hEq
    exact stepConsumer_covered h rfl hMove
  | release =>
    simp only [step, Option.ite_none_right_eq_some, Option.some.injEq, Prod.mk.injEq] at hStep
    obtain ⟨-, rfl, -⟩ := hStep
    exact h
  | releaser =>
    obtain ⟨s₁, hMove, hEq⟩ := Option.map_eq_some_iff.mp hStep
    obtain ⟨rfl, -⟩ := Prod.mk.inj hEq
    exact stepRelease_covered h hMove

/-- A schedule under which no call of `Push` reads the number of waiters while the worker is about to
become one loses no wake-up. -/
theorem watched_of_undisturbed {evs : List (Event ι L)}
    (h : Machine.Along (step p) Undisturbed initialized evs) :
    Machine.Along (step p) Watched (initialized : NGNanoLogger ι L) evs := by
  refine Machine.along_imp (I := Covered) step_covered ?_ nofun h
  intro s ev hCovered _
  cases ev with
  | consumer => exact fun hPc _ => hCovered (by rw [hPc]; rfl)
  | push _ _ => trivial
  | producer _ => trivial
  | release => trivial
  | releaser => trivial

end NGNanoLogger

end DemoCode.NanoLog
