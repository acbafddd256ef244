import DemoCode.NanoLog.NanoLogger

/-! `Release` sets a flag that the worker tests before it writes a line: what is in the queue when the
flag is set, and a line that the worker took out of it but did not test the flag for, is lost. -/

namespace DemoCode.NanoLog

variable {ι L : Type*}

/-- The line that the worker took out of the queue and has not written yet. -/
def ConsumerPc.held : ConsumerPc L → List L
  | .testExitAfter log => log.toList
  | .write log => log.toList
  | _ => []

/-- A line that the worker writes next, whatever the flag is. -/
def ConsumerPc.committed : ConsumerPc L → List L
  | .write log => log.toList
  | _ => []

/-- The steps after the flag was set. -/
def ReleasePc.exiting : ReleasePc → Bool
  | .idle => false
  | .setExit => false
  | _ => true

/-- The steps after the worker has ended. -/
def ReleasePc.joined : ReleasePc → Bool
  | .resetSemaphore => true
  | .releaseWriter => true
  | .clearInitialize => true
  | .returned => true
  | _ => false

namespace NGNanoLogger

/-- The lines that the writer got or gets next. -/
def passed (s : NGNanoLogger ι L) : List L := s.written ++ s.consumer.committed

/-- The lines that were accepted before the call of `Release` have been written, each once and in their
order. -/
def Drained (s : NGNanoLogger ι L) : Prop := s.before <+: s.written ∧ s.written <+: s.accepted

/-- The condition on a step: when `Release` sets the flag, the lines accepted before its call have been
written, but for one that is about to be. -/
def InTime (s : NGNanoLogger ι L) : Event ι L → Prop
  | .releaser => s.releaser = .setExit → s.before <+: s.passed
  | _ => True

/-- The worker writes in the order of the queue: until it is done, what was accepted has been written,
but for the line that it holds and those in the queue. -/
structure Ordered (s : NGNanoLogger ι L) : Prop where
  written : s.written <+: s.accepted
  running : s.consumer ≠ .done → s.accepted = s.written ++ (s.consumer.held ++ s.logContent)

/-- How far `Release` is. -/
structure Releasing (s : NGNanoLogger ι L) : Prop where
  isInitialize : s.releaser = .idle → s.isInitialize = true
  isExit : s.isExit = s.releaser.exiting
  joined : s.releaser.joined = true → s.consumer = .done

variable {p : Platform} {s s' t : NGNanoLogger ι L} {ev : Event ι L} {out : Unit}
  {evs : List (Event ι L)} {outs : List Unit}

/-- What only `Release` changes. -/
structure SameRelease (s s' : NGNanoLogger ι L) : Prop where
  before : s'.before = s.before
  releaser : s'.releaser = s.releaser
  isExit : s'.isExit = s.isExit
  isInitialize : s'.isInitialize = s.isInitialize

theorem Releasing.of_same (h : s.Releasing) (hSame : SameRelease s s')
    (hConsumer : s.consumer = .done → s'.consumer = .done) : s'.Releasing where
  isInitialize hIdle := by
    rw [hSame.releaser] at hIdle
    rw [hSame.isInitialize]
    exact h.isInitialize hIdle
  isExit := by rw [hSame.isExit, hSame.releaser, h.isExit]
  joined hJoined := by
    rw [hSame.releaser] at hJoined
    exact hConsumer (h.joined hJoined)

/-- What the order depends on. -/
theorem Ordered.of_same (h : s.Ordered) (hWritten : s'.written = s.written)
    (hAccepted : s'.accepted = s.accepted) (hLogs : s'.logContent = s.logContent)
    (hConsumer : s'.consumer = s.consumer) : s'.Ordered where
  written := by
    rw [hWritten, hAccepted]
    exact h.written
  running hNot := by
    rw [hConsumer] at hNot ⊢
    rw [hAccepted, hWritten, hLogs]
    exact h.running hNot

/-- A step of the worker keeps the order, and after the flag was set it writes only the line that it is
committed to. -/
theorem stepConsumer_ordered {pc : ConsumerPc L} (h : s.Ordered) (hPc : s.consumer = pc)
    (hStep : s.stepConsumer pc = some s') :
    s'.Ordered ∧ SameRelease s s' ∧ (s.isExit = true → s'.passed = s.passed) := by
  have hAll := h.running
  have hPassed : s.passed = s.written ++ pc.committed := by rw [passed, hPc]
  rw [hPc] at hAll
  rw [hPassed]
  cases consumerMove hStep with
  | empty hLogs => exact ⟨⟨h.written, fun _ => hAll nofun⟩, ⟨rfl, rfl, rfl, rfl⟩, fun _ => rfl⟩
  | take log rest hLogs =>
    refine ⟨⟨h.written, fun _ => ?_⟩, ⟨rfl, rfl, rfl, rfl⟩, fun _ => rfl⟩
    rw [hAll nofun, hLogs]
    rfl
  | leave hExit => exact ⟨⟨h.written, fun _ => hAll nofun⟩, ⟨rfl, rfl, rfl, rfl⟩, fun _ => rfl⟩
  | stay hExit => exact ⟨⟨h.written, fun _ => hAll nofun⟩, ⟨rfl, rfl, rfl, rfl⟩, fun _ => rfl⟩
  | register => exact ⟨⟨h.written, fun _ => hAll nofun⟩, ⟨rfl, rfl, rfl, rfl⟩, fun _ => rfl⟩
  | wake hTokens => exact ⟨⟨h.written, fun _ => hAll nofun⟩, ⟨rfl, rfl, rfl, rfl⟩, fun _ => rfl⟩
  | unregister => exact ⟨⟨h.written, fun _ => hAll nofun⟩, ⟨rfl, rfl, rfl, rfl⟩, fun _ => rfl⟩
  | stop log hExit =>
    exact ⟨⟨h.written, fun hNot => absurd rfl hNot⟩, ⟨rfl, rfl, rfl, rfl⟩, fun _ => rfl⟩
  | go log hExit =>
    refine ⟨⟨h.written, fun _ => hAll nofun⟩, ⟨rfl, rfl, rfl, rfl⟩, fun hOn => ?_⟩
    rw [hExit] at hOn
    cases hOn
  | write log =>
    have hNow : s.accepted = s.written ++ [log] ++ s.logContent := by
      rw [hAll nofun, List.append_assoc]
      rfl
    refine ⟨⟨⟨s.logContent, hNow.symm⟩, fun _ => hNow⟩, ⟨rfl, rfl, rfl, rfl⟩, fun _ => ?_⟩
    exact List.append_nil _

variable [DecidableEq ι]

theorem stepProducer_ordered {i : ι} {pc : ProducerPc L} (h : s.Ordered)
    (hStep : s.stepProducer p i pc = some s') :
    s'.Ordered ∧ SameRelease s s' ∧ s'.written = s.written ∧ s'.consumer = s.consumer := by
  cases producerMove hStep with
  | enqueue log =>
    refine ⟨⟨h.written.trans (List.prefix_append _ _), fun hNot => ?_⟩, ⟨rfl, rfl, rfl, rfl⟩, rfl, rfl⟩
    change s.accepted ++ [log] = s.written ++ (s.consumer.held ++ (s.logContent ++ [log]))
    rw [h.running hNot, List.append_assoc, List.append_assoc]
  | read => exact ⟨⟨h.written, h.running⟩, ⟨rfl, rfl, rfl, rfl⟩, rfl, rfl⟩
  | post => exact ⟨⟨h.written, h.running⟩, ⟨rfl, rfl, rfl, rfl⟩, rfl, rfl⟩

omit [DecidableEq ι] in
/-- While the worker runs. -/
theorem Releasing.of_running (hBegun : s.releaser ≠ .idle) (hExit : s.isExit = s.releaser.exiting)
    (hRuns : s.releaser.joined = false) : s.Releasing :=
  ⟨fun hIdle => absurd hIdle hBegun, hExit, fun hJoined => absurd (hRuns.symm.trans hJoined) Bool.false_ne_true⟩

omit [DecidableEq ι] in
theorem stepRelease_releasing {pc : ReleasePc} (hPc : s.releaser = pc) (h : s.Releasing)
    (hStep : s.stepRelease p pc = some s') : s'.Releasing := by
  have hExit := h.isExit
  have hJoined := h.joined
  rw [hPc] at hExit hJoined
  cases pc with
  | idle => cases hStep
  | setExit =>
    cases hStep
    exact .of_running (by simp) rfl rfl
  | readWaiters =>
    obtain rfl := Option.some.inj hStep
    by_cases hCount : s.waiterCount = 0
    · simp only [hCount, ne_eq, not_true_eq_false, if_false]
      exact .of_running (by simp) hExit rfl
    · simp only [hCount, ne_eq, not_false_eq_true, if_true]
      exact .of_running (by simp) hExit rfl
  | post =>
    cases hStep
    exact .of_running (by simp) hExit rfl
  | join =>
    simp only [stepRelease] at hStep
    split at hStep
    next hDone =>
      cases hStep
      exact ⟨fun hIdle => absurd hIdle (by simp), hExit, fun _ => hDone⟩
    next => cases hStep
  | resetSemaphore =>
    cases hStep
    exact ⟨fun hIdle => absurd hIdle (by simp), hExit, hJoined⟩
  | releaseWriter =>
    cases hStep
    exact ⟨fun hIdle => absurd hIdle (by simp), hExit, hJoined⟩
  | clearInitialize =>
    cases hStep
    exact ⟨fun hIdle => absurd hIdle (by simp), hExit, hJoined⟩
  | returned => cases hStep

omit [DecidableEq ι] in
/-- `Release` writes nothing, and sets the flag in one step only. -/
theorem stepRelease_ordered {pc : ReleasePc} (hPc : s.releaser = pc) (h : s.Ordered)
    (hRelease : s.Releasing) (hStep : s.stepRelease p pc = some s') :
    s'.Ordered ∧ s'.Releasing ∧ s'.passed = s.passed ∧ s'.before = s.before ∧
      (pc ≠ .setExit → s'.isExit = s.isExit) := by
  have hFrame := releaseFrame hStep
  have hOrdered : s'.Ordered :=
    h.of_same hFrame.written hFrame.accepted hFrame.logContent hFrame.consumer
  refine ⟨hOrdered, stepRelease_releasing hPc hRelease hStep, ?_, hFrame.before, fun hNot => ?_⟩
  · rw [passed, passed, hFrame.written, hFrame.consumer]
  · rw [hFrame.isExit]
    cases pc with
    | setExit => exact absurd rfl hNot
    | _ => exact Bool.or_false _

/-- What every state of a run has. -/
structure Sane (s : NGNanoLogger ι L) : Prop where
  ordered : s.Ordered
  releasing : s.Releasing

/-- A step after the flag was set changes nothing in what gets written, and only `Release` sets it. -/
structure Decides (s : NGNanoLogger ι L) (ev : Event ι L) (s' : NGNanoLogger ι L) : Prop where
  frozen : s.isExit = true → s'.isExit = true ∧ s'.passed = s.passed ∧ s'.before = s.before
  sets : s.isExit = false → s'.isExit = true →
    ev = .releaser ∧ s.releaser = .setExit ∧ s'.passed = s.passed ∧ s'.before = s.before

omit [DecidableEq ι] in
theorem SameRelease.decides (hSame : SameRelease s s')
    (hPassed : s.isExit = true → s'.passed = s.passed) : Decides s ev s' where
  frozen hExit := ⟨hSame.isExit.trans hExit, hPassed hExit, hSame.before⟩
  sets hOff hOn := by
    rw [hSame.isExit, hOff] at hOn
    cases hOn

/-- **Step lemma**: after the flag was set, what gets written is decided. -/
theorem step_sane (h : s.Sane) (hStep : s.step p ev = some (s', out)) : s'.Sane ∧ Decides s ev s' := by
  cases ev with
  | push i log =>
    simp only [step] at hStep
    split at hStep
    next =>
      cases hStep
      exact ⟨⟨h.ordered.of_same rfl rfl rfl rfl, h.releasing.of_same ⟨rfl, rfl, rfl, rfl⟩ id⟩,
        SameRelease.decides ⟨rfl, rfl, rfl, rfl⟩ fun _ => rfl⟩
    next => cases hStep
  | producer i =>
    obtain ⟨s₁, hMove, hEq⟩ := Option.map_eq_some_iff.mp hStep
    obtain ⟨rfl, -⟩ := Prod.mk.inj hEq
    obtain ⟨hOrdered, hSame, hWritten, hConsumer⟩ := stepProducer_ordered h.ordered hMove
    refine ⟨⟨hOrdered, h.releasing.of_same hSame hConsumer.trans⟩, hSame.decides fun _ => ?_⟩
    rw [passed, passed, hWritten, hConsumer]
  | consumer =>
    obtain ⟨s₁, hMove, hEq⟩ := Option.map_eq_some_iff.mp hStep
    obtain ⟨rfl, -⟩ := Prod.mk.inj hEq
    obtain ⟨hOrdered, hSame, hFrozen⟩ := stepConsumer_ordered h.ordered rfl hMove
    refine ⟨⟨hOrdered, h.releasing.of_same hSame fun hDone => ?_⟩, hSame.decides hFrozen⟩
    rw [hDone] at hMove
    cases hMove
  | release =>
    simp only [step, Option.ite_none_right_eq_some, Option.some.injEq, Prod.mk.injEq] at hStep
    obtain ⟨hIdle, rfl, -⟩ := hStep
    have hOff : s.isExit = false := by rw [h.releasing.isExit, hIdle]; rfl
    have hInit := h.releasing.isInitialize hIdle
    simp only [hInit, if_true]
    refine ⟨⟨h.ordered.of_same rfl rfl rfl rfl, ⟨nofun, hOff, nofun⟩⟩, ⟨?_, ?_⟩⟩
    · intro hOn
      exact absurd (hOff.symm.trans hOn) nofun
    · intro _ hOn
      exact absurd (hOff.symm.trans hOn) nofun
  | releaser =>
    obtain ⟨s₁, hMove, hEq⟩ := Option.map_eq_some_iff.mp hStep
    obtain ⟨rfl, -⟩ := Prod.mk.inj hEq
    obtain ⟨hOrdered, hReleasing, hSame, hBefore, hExit⟩ :=
      stepRelease_ordered rfl h.ordered h.releasing hMove
    refine ⟨⟨hOrdered, hReleasing⟩, ⟨fun hOn => ⟨?_, hSame, hBefore⟩, fun hOff hOn => ?_⟩⟩
    · refine (hExit fun hSet => ?_).trans hOn
      rw [h.releasing.isExit, hSet] at hOn
      cases hOn
    · refine ⟨rfl, ?_, hSame, hBefore⟩
      by_contra hNot
      rw [hExit hNot, hOff] at hOn
      cases hOn

/-- After the flag was set, a run ends with what was decided, and meets the condition. -/
theorem run_decided (h : s.Sane) (hExit : s.isExit = true)
    (hRun : Machine.run (step p) s evs = some (t, outs)) :
    t.passed = s.passed ∧ t.before = s.before ∧ Machine.Along (step p) InTime s evs := by
  induction evs generalizing s outs with
  | nil =>
    cases hRun
    exact ⟨rfl, rfl, trivial⟩
  | cons ev evs ih =>
    obtain ⟨s', out, outs', hFirst, hRest, -⟩ := Machine.run_cons hRun
    obtain ⟨hNext, hDecides⟩ := step_sane h hFirst
    obtain ⟨hExit', hPassed, hBefore⟩ := hDecides.frozen hExit
    obtain ⟨hEnd, hSame, hAlong⟩ := ih hNext hExit' hRest
    refine ⟨hEnd.trans hPassed, hSame.trans hBefore, Machine.along_cons ?_ hFirst hAlong⟩
    cases ev with
    | releaser =>
      intro hSet
      rw [h.releasing.isExit, hSet] at hExit
      cases hExit
    | push _ _ => trivial
    | producer _ => trivial
    | consumer => trivial
    | release => trivial

/-- **Run lemma**: what gets written is decided when the flag is set. -/
theorem run_passed_iff (h : s.Sane) (hStart : s.isExit = false) (hEnd : t.isExit = true)
    (hRun : Machine.run (step p) s evs = some (t, outs)) :
    t.before <+: t.passed ↔ Machine.Along (step p) InTime s evs := by
  induction evs generalizing s outs with
  | nil =>
    cases hRun
    cases hStart.symm.trans hEnd
  | cons ev evs ih =>
    obtain ⟨s', out, outs', hFirst, hRest, -⟩ := Machine.run_cons hRun
    obtain ⟨hNext, hDecides⟩ := step_sane h hFirst
    cases hExit : s'.isExit with
    | false =>
      have hHere : s.InTime ev := by
        cases ev with
        | releaser =>
          intro hSet
          simp only [step, hSet, stepRelease, Option.map_some, Option.some.injEq,
            Prod.mk.injEq] at hFirst
          obtain ⟨rfl, -⟩ := hFirst
          cases hExit
        | push _ _ => trivial
        | producer _ => trivial
        | consumer => trivial
        | release => trivial
      rw [ih hNext hExit hRest]
      constructor
      · intro hAlong
        exact Machine.along_cons hHere hFirst hAlong
      · intro hAll
        exact hAll.2 s' out hFirst
    | true =>
      obtain ⟨rfl, hSet, hPassed, hBefore⟩ := hDecides.sets hStart hExit
      obtain ⟨hPassed', hBefore', hAlong⟩ := run_decided hNext hExit hRest
      rw [hPassed', hBefore', hPassed, hBefore]
      constructor
      · intro hIn
        exact Machine.along_cons (fun _ => hIn) hFirst hAlong
      · intro hAll
        exact hAll.1 hSet

omit [DecidableEq ι] in
theorem initialized_sane : (initialized : NGNanoLogger ι L).Sane where
  ordered := ⟨List.prefix_rfl, fun _ => rfl⟩
  releasing := ⟨fun _ => rfl, rfl, nofun⟩

/-- When `Release` returns, the lines accepted before its call have been written, each once and in
order, exactly if all of them were written, but for one that the worker was about to write, when it set
the flag. -/
theorem drained_iff (p : Platform) {evs : List (Event ι L)} {t : NGNanoLogger ι L} {outs : List Unit}
    (hRun : Machine.run (step p) initialized evs = some (t, outs)) (hReturned : t.releaser = .returned) :
    t.Drained ↔ Machine.Along (step p) InTime initialized evs := by
  have hSane : t.Sane := Machine.run_invariant (fun h hStep => (step_sane h hStep).1)
    initialized_sane hRun
  have hExit : t.isExit = true := by rw [hSane.releasing.isExit, hReturned]; rfl
  have hDone : t.consumer = .done := hSane.releasing.joined (by rw [hReturned]; rfl)
  have hPassed : t.passed = t.written := by rw [passed, hDone]; exact List.append_nil _
  rw [← run_passed_iff initialized_sane rfl hExit hRun, hPassed, Drained,
    and_iff_left hSane.ordered.written]

/-- A run in which the line is written before `Release` is called. -/
def writtenFirst : List (Event Bool ℕ) :=
  [.push true 7, .producer true, .producer true, .consumer, .consumer, .consumer, .release, .releaser,
    .consumer, .consumer, .consumer, .releaser, .releaser, .releaser, .releaser, .releaser]

theorem drained_iff_written : ∃ t outs,
    Machine.run (step .windows) initialized writtenFirst = some (t, outs) ∧
    (t.Drained ↔ Machine.Along (step .windows) InTime initialized writtenFirst) :=
  ⟨_, _, rfl, drained_iff .windows rfl rfl⟩

/-- `Release` right after a line was pushed. -/
theorem not_drained : ∃ evs t outs,
    Machine.run (step .windows) (initialized : NGNanoLogger Bool ℕ) evs = some (t, outs) ∧
    t.releaser = .returned ∧ t.before = [7] ∧ t.written = [] ∧ ¬ t.Drained := by
  refine ⟨[.push true 7, .producer true, .producer true, .release, .releaser, .consumer, .consumer,
    .releaser, .releaser, .releaser, .releaser, .releaser], _, _, rfl, rfl, rfl, rfl, ?_⟩
  rintro ⟨hAll, -⟩
  exact absurd (List.prefix_nil.mp hAll) (List.cons_ne_nil 7 [])

end NGNanoLogger

end DemoCode.NanoLog
