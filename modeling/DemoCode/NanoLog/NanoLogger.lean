import Mathlib.Data.PNat.Defs
import Mathlib.Logic.Function.Basic
import DemoCode.Lib.Machine

/-! `NGNanoLogger` of `eddid_nano_logger.h` after `Initialize`, with its semaphore, as a protocol of the
callers of `Push`, the one worker thread and a caller of `Release`.  Each access to the queue, the
semaphore or a flag is a step of its own. -/

namespace DemoCode.NanoLog

/-- Where `CSemaphore` runs; a POSIX semaphore has a largest value too. -/
inductive Platform where
  | windows
  | posix (semValueMax : ℕ+)
  deriving DecidableEq

/-- How many releases a semaphore can hold; one more fails. -/
def Platform.maxTokens : Platform → ℕ
  | .windows => 1
  | .posix semValueMax => semValueMax

theorem Platform.maxTokens_pos (p : Platform) : 0 < p.maxTokens := by
  cases p with
  | windows => exact Nat.one_pos
  | posix semValueMax => exact semValueMax.pos

/-- The step that a caller of `Push` does next. -/
inductive ProducerPc (L : Type*) where
  | idle
  | enqueue (log : L)
  | readWaiters
  | post
  deriving DecidableEq, Repr

/-- The step that `thread_func` does next; `none` is a line it has no pointer to. -/
inductive ConsumerPc (L : Type*) where
  | tryDequeue
  | testExit
  -- WaiteForSemaphore
  | addWaiter
  | wait
  | subWaiter
  -- after the inner loop
  | testExitAfter (log : Option L)
  | write (log : Option L)
  | done
  deriving DecidableEq, Repr

/-- The step that `Release` does next. -/
inductive ReleasePc where
  | idle
  | setExit
  -- ReleaseAll
  | readWaiters
  | post
  | join
  | resetSemaphore
  | releaseWriter
  | clearInitialize
  | returned
  deriving DecidableEq, Repr

/-- The logger with the threads that use it.  `semaphore` tells whether `log_worker_semaphore_` is set,
`accepted` has the lines that `Push` enqueued, `before` those it enqueued before `Release` was called,
and `written` those that the writer was given. -/
structure NGNanoLogger (ι L : Type*) where
  isInitialize : Bool
  isExit : Bool
  logContent : List L
  semaphore : Bool
  tokens : ℕ
  waiterCount : UInt32
  producer : ι → ProducerPc L
  consumer : ConsumerPc L
  releaser : ReleasePc
  accepted : List L
  before : List L
  written : List L
  writerReleased : Bool

inductive Event (ι L : Type*) where
  | push (i : ι) (log : L)
  | producer (i : ι)
  | consumer
  | release
  | releaser
  deriving DecidableEq, Repr

namespace NGNanoLogger

variable {ι L : Type*}

/-- The logger when `Initialize` returns. -/
def initialized : NGNanoLogger ι L where
  isInitialize := true
  isExit := false
  logContent := []
  semaphore := true
  tokens := 0
  waiterCount := 0
  producer := fun _ => .idle
  consumer := .tryDequeue
  releaser := .idle
  accepted := []
  before := []
  written := []
  writerReleased := false

/-- `CSemaphore::Release`, which has no effect on a full semaphore. -/
def post (p : Platform) (s : NGNanoLogger ι L) : NGNanoLogger ι L :=
  { s with tokens := min (s.tokens + 1) p.maxTokens }

variable [DecidableEq ι]

/-- The next step of a call of `Push`. -/
def stepProducer (p : Platform) (s : NGNanoLogger ι L) (i : ι) :
    ProducerPc L → Option (NGNanoLogger ι L)
  | .idle => none
  | .enqueue log =>
    some { s with
      logContent := s.logContent ++ [log]
      accepted := s.accepted ++ [log]
      producer := Function.update s.producer i .readWaiters }
  | .readWaiters =>
    if s.semaphore then
      some { s with
        producer := Function.update s.producer i (if s.waiterCount > 0 then .post else .idle) }
    else
      none
  | .post =>
    if s.semaphore then
      some { s.post p with producer := Function.update s.producer i .idle }
    else
      none

/-- The next step of `thread_func`. -/
def stepConsumer (s : NGNanoLogger ι L) : ConsumerPc L → Option (NGNanoLogger ι L)
  | .tryDequeue =>
    match s.logContent with
    | [] => some { s with consumer := .testExit }
    | log :: rest => some { s with logContent := rest, consumer := .testExitAfter (some log) }
  | .testExit => some { s with consumer := if s.isExit then .testExitAfter none else .addWaiter }
  | .addWaiter =>
    if s.semaphore then
      some { s with waiterCount := s.waiterCount + 1, consumer := .wait }
    else
      none
  | .wait =>
    if s.semaphore ∧ 0 < s.tokens then
      some { s with tokens := s.tokens - 1, consumer := .subWaiter }
    else
      none
  | .subWaiter =>
    if s.semaphore then
      some { s with waiterCount := s.waiterCount - 1, consumer := .tryDequeue }
    else
      none
  | .testExitAfter log => some { s with consumer := if s.isExit then .done else .write log }
  | .write none => none
  | .write (some log) => some { s with written := s.written ++ [log], consumer := .tryDequeue }
  | .done => none

/-- The next step of `Release`. -/
def stepRelease (p : Platform) (s : NGNanoLogger ι L) : ReleasePc → Option (NGNanoLogger ι L)
  | .idle => none
  | .setExit => some { s with isExit := true, releaser := .readWaiters }
  | .readWaiters => some { s with releaser := if s.waiterCount ≠ 0 then .post else .join }
  | .post => some { s.post p with releaser := .readWaiters }
  | .join => if s.consumer matches .done then some { s with releaser := .resetSemaphore } else none
  | .resetSemaphore => some { s with semaphore := false, releaser := .releaseWriter }
  | .releaseWriter => some { s with writerReleased := true, releaser := .clearInitialize }
  | .clearInitialize => some { s with isInitialize := false, releaser := .returned }
  | .returned => none

/-- One step of one thread; nothing when it has to wait, or would use a null pointer.  A logger that is
not initialized does nothing in `Push` and `Release`. -/
def step (p : Platform) (s : NGNanoLogger ι L) : Event ι L → Option (NGNanoLogger ι L × Unit)
  | .push i log =>
    match s.producer i with
    | .idle =>
      some ({ s with
        producer := Function.update s.producer i
          (if s.isInitialize then .enqueue log else .idle) }, ())
    | _ => none
  | .producer i => (s.stepProducer p i (s.producer i)).map fun s' => (s', ())
  | .consumer => (s.stepConsumer s.consumer).map fun s' => (s', ())
  | .release =>
    if s.releaser = .idle then
      some ({ s with
        before := s.accepted
        releaser := if s.isInitialize then .setExit else .returned }, ())
    else
      none
  | .releaser => (s.stepRelease p s.releaser).map fun s' => (s', ())

/-! ### What a step can do -/

variable {p : Platform} {s s' : NGNanoLogger ι L}

/-- The moves of a caller of `Push`. -/
inductive ProducerMove (p : Platform) (s : NGNanoLogger ι L) (i : ι) :
    ProducerPc L → NGNanoLogger ι L → Prop
  | enqueue (log : L) : ProducerMove p s i (.enqueue log) { s with
      logContent := s.logContent ++ [log]
      accepted := s.accepted ++ [log]
      producer := Function.update s.producer i .readWaiters }
  | read : ProducerMove p s i .readWaiters { s with
      producer := Function.update s.producer i (if s.waiterCount > 0 then .post else .idle) }
  | post : ProducerMove p s i .post
      { s.post p with producer := Function.update s.producer i .idle }

theorem producerMove {i : ι} {pc : ProducerPc L} (h : s.stepProducer p i pc = some s') :
    ProducerMove p s i pc s' := by
  cases pc with
  | idle => cases h
  | enqueue log =>
    cases h
    exact .enqueue log
  | readWaiters =>
    simp only [stepProducer, Option.ite_none_right_eq_some, Option.some.injEq] at h
    obtain ⟨-, rfl⟩ := h
    exact .read
  | post =>
    simp only [stepProducer, Option.ite_none_right_eq_some, Option.some.injEq] at h
    obtain ⟨-, rfl⟩ := h
    exact .post

omit [DecidableEq ι]

/-- The moves of the worker. -/
inductive ConsumerMove (s : NGNanoLogger ι L) : ConsumerPc L → NGNanoLogger ι L → Prop
  | empty (h : s.logContent = []) : ConsumerMove s .tryDequeue { s with consumer := .testExit }
  | take (log : L) (rest : List L) (h : s.logContent = log :: rest) :
      ConsumerMove s .tryDequeue
        { s with logContent := rest, consumer := .testExitAfter (some log) }
  | leave (h : s.isExit = true) :
      ConsumerMove s .testExit { s with consumer := .testExitAfter none }
  | stay (h : s.isExit = false) : ConsumerMove s .testExit { s with consumer := .addWaiter }
  | register : ConsumerMove s .addWaiter
      { s with waiterCount := s.waiterCount + 1, consumer := .wait }
  | wake (h : 0 < s.tokens) :
      ConsumerMove s .wait { s with tokens := s.tokens - 1, consumer := .subWaiter }
  | unregister : ConsumerMove s .subWaiter
      { s with waiterCount := s.waiterCount - 1, consumer := .tryDequeue }
  | stop (log : Option L) (h : s.isExit = true) :
      ConsumerMove s (.testExitAfter log) { s with consumer := .done }
  | go (log : Option L) (h : s.isExit = false) :
      ConsumerMove s (.testExitAfter log) { s with consumer := .write log }
  | write (log : L) : ConsumerMove s (.write (some log))
      { s with written := s.written ++ [log], consumer := .tryDequeue }

theorem consumerMove {pc : ConsumerPc L} (h : s.stepConsumer pc = some s') :
    ConsumerMove s pc s' := by
  cases pc with
  | tryDequeue =>
    cases hLogs : s.logContent with
    | nil =>
      simp only [stepConsumer, hLogs, Option.some.injEq] at h
      rw [← h, ← hLogs]
      exact .empty hLogs
    | cons log rest =>
      simp only [stepConsumer, hLogs, Option.some.injEq] at h
      rw [← h]
      exact .take log rest hLogs
  | testExit =>
    obtain rfl := Option.some.inj h
    by_cases hExit : s.isExit = true
    · rw [if_pos hExit]
      exact .leave hExit
    · rw [if_neg hExit]
      exact .stay (eq_false_of_ne_true hExit)
  | addWaiter =>
    simp only [stepConsumer, Option.ite_none_right_eq_some, Option.some.injEq] at h
    obtain ⟨-, rfl⟩ := h
    exact .register
  | wait =>
    simp only [stepConsumer, Option.ite_none_right_eq_some, Option.some.injEq] at h
    obtain ⟨⟨-, hTokens⟩, rfl⟩ := h
    exact .wake hTokens
  | subWaiter =>
    simp only [stepConsumer, Option.ite_none_right_eq_some, Option.some.injEq] at h
    obtain ⟨-, rfl⟩ := h
    exact .unregister
  | testExitAfter log =>
    obtain rfl := Option.some.inj h
    by_cases hExit : s.isExit = true
    · rw [if_pos hExit]
      exact .stop log hExit
    · rw [if_neg hExit]
      exact .go log (eq_false_of_ne_true hExit)
  | write log =>
    cases log with
    | none => cases h
    | some log =>
      cases h
      exact .write log
  | done => cases h

/-- What `Release` leaves alone: it sets the flag in one step, and posts in another. -/
structure ReleaseFrame (pc : ReleasePc) (s s' : NGNanoLogger ι L) : Prop where
  logContent : s'.logContent = s.logContent
  waiterCount : s'.waiterCount = s.waiterCount
  producer : s'.producer = s.producer
  consumer : s'.consumer = s.consumer
  accepted : s'.accepted = s.accepted
  before : s'.before = s.before
  written : s'.written = s.written
  isExit : s'.isExit = (s.isExit || pc matches .setExit)
  tokens : s'.tokens = s.tokens ∨ 0 < s'.tokens

theorem post_tokens_pos (p : Platform) (s : NGNanoLogger ι L) : 0 < (s.post p).tokens :=
  Nat.lt_min.mpr ⟨Nat.succ_pos _, p.maxTokens_pos⟩

theorem releaseFrame {pc : ReleasePc} (h : s.stepRelease p pc = some s') :
    ReleaseFrame pc s s' := by
  cases pc with
  | idle => cases h
  | setExit =>
    cases h
    exact ⟨rfl, rfl, rfl, rfl, rfl, rfl, rfl, (Bool.or_true _).symm, .inl rfl⟩
  | readWaiters =>
    cases h
    exact ⟨rfl, rfl, rfl, rfl, rfl, rfl, rfl, (Bool.or_false _).symm, .inl rfl⟩
  | post =>
    cases h
    exact ⟨rfl, rfl, rfl, rfl, rfl, rfl, rfl, (Bool.or_false _).symm, .inr (post_tokens_pos p s)⟩
  | join =>
    simp only [stepRelease, Option.ite_none_right_eq_some, Option.some.injEq] at h
    obtain ⟨-, rfl⟩ := h
    exact ⟨rfl, rfl, rfl, rfl, rfl, rfl, rfl, (Bool.or_false _).symm, .inl rfl⟩
  | resetSemaphore =>
    cases h
    exact ⟨rfl, rfl, rfl, rfl, rfl, rfl, rfl, (Bool.or_false _).symm, .inl rfl⟩
  | releaseWriter =>
    cases h
    exact ⟨rfl, rfl, rfl, rfl, rfl, rfl, rfl, (Bool.or_false _).symm, .inl rfl⟩
  | clearInitialize =>
    cases h
    exact ⟨rfl, rfl, rfl, rfl, rfl, rfl, rfl, (Bool.or_false _).symm, .inl rfl⟩
  | returned => cases h

end NGNanoLogger

end DemoCode.NanoLog
