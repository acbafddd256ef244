import Mathlib.Data.List.Nodup
import Mathlib.Tactic.IntervalCases
import DemoCode.FileCrop.SeparateFile
import DemoCode.Lib.Machine

/-! `TaskDispatcher` and the end of `main`: the chunks of a file run in a thread pool, and `afterWork`
collects each result when its task is completed; `main` writes them in this order. -/

namespace DemoCode.FileCrop

/-- A request of the pool. -/
inductive Work where
  | queued (task : ColTask)
  | ran (newFileMap : List UInt8)
  | completed

/-- `TaskDispatcher` with the requests it gave to the pool; `order` lists the tasks as they were
completed. -/
structure TaskDispatcher where
  works : List Work
  fileDataVec : List (List UInt8) := []
  taskRunningCounts : Int := 0
  order : List Nat := []

inductive PoolEvent where
  | startWork (i : Nat)
  | afterWork (i : Nat)
  deriving DecidableEq, Repr

namespace TaskDispatcher

/-- `Dispatch` of each task. -/
def dispatch (tasks : List ColTask) : TaskDispatcher where
  works := tasks.map .queued

/-- `startWork`, with the whole `Run` of the task, and `afterWork`. -/
def step (s : TaskDispatcher) : PoolEvent → Option (TaskDispatcher × Unit)
  | .startWork i =>
    match s.works[i]? with
    | some (.queued task) => do
      let newFileMap ← task.run
      some ({ s with
        works := s.works.set i (.ran newFileMap)
        taskRunningCounts := s.taskRunningCounts + 1 }, ())
    | _ => none
  | .afterWork i =>
    match s.works[i]? with
    | some (.ran newFileMap) =>
      some ({
        works := s.works.set i .completed
        fileDataVec := s.fileDataVec ++ [newFileMap]
        taskRunningCounts := s.taskRunningCounts - 1
        order := s.order ++ [i] }, ())
    | _ => none

/-- The loop has nothing to wait for. -/
def Finished (s : TaskDispatcher) : Prop := ∀ i, i < s.works.length → s.works[i]? = some .completed

/-- What `main` writes to the new file. -/
def written (s : TaskDispatcher) : List UInt8 := s.fileDataVec.flatten

end TaskDispatcher

/-- A file that `SeparateFile` has split, with the results of its chunks in the order of the file. -/
structure Crop where
  file : TextFile
  padding : Nat
  condition : List Char
  fuel : Nat
  chunks : List (Int × Int)
  split : separateFile fuel (file.map padding) file.size = some (some chunks)
  results : List (List UInt8)
  ran : (chunks.mapM fun chunk => (file.task padding condition chunk).run) = some results

namespace Crop

def tasks (c : Crop) : List ColTask := c.chunks.map (c.file.task c.padding c.condition)

/-- The file keeps its order in some ways in which the tasks are completed. -/
def Ordered (c : Crop) (orders : List Nat → Prop) : Prop :=
  ∀ evs t outs, Machine.run TaskDispatcher.step (.dispatch c.tasks) evs = some (t, outs) →
    t.Finished → orders t.order → t.written = c.results.flatten

theorem tasks_run (c : Crop) : c.tasks.mapM ColTask.run = some c.results := by
  rw [tasks, List.mapM_map]
  exact c.ran

end Crop

/-- Each result of a list of calls is what the call in its place returns. -/
theorem mapM_getElem {α β : Type*} {f : α → Option β} {l : List α} {m : List β}
    (h : l.mapM f = some m) : l.length = m.length ∧ ∀ (i : Nat) (a : α), l[i]? = some a →
      f a = m[i]? := by
  induction l generalizing m with
  | nil =>
    cases h
    exact ⟨rfl, fun i a hi => by simp at hi⟩
  | cons x l ih =>
    rw [List.mapM_cons] at h
    simp only [Option.bind_eq_bind, Option.bind_eq_some_iff] at h
    obtain ⟨b, hb, bs, hbs, hEq⟩ := h
    obtain rfl := Option.some.inj hEq
    obtain ⟨hLength, hAt⟩ := ih hbs
    refine ⟨by rw [List.length_cons, List.length_cons, hLength], fun i a hi => ?_⟩
    cases i with
    | zero =>
      obtain rfl : x = a := Option.some.inj hi
      exact hb
    | succ i => exact hAt i a hi

/-! ### What the pool has done so far -/

/-- What is left of the request `i`, and what it gave. -/
def Work.Agrees (c : Crop) (order : List Nat) (i : Nat) : Work → Prop
  | .queued task => c.tasks[i]? = some task ∧ i ∉ order
  | .ran newFileMap => c.results[i]? = some newFileMap ∧ i ∉ order
  | .completed => i ∈ order

/-- The results that are collected are those of the completed tasks, in this order. -/
structure Collected (c : Crop) (s : TaskDispatcher) : Prop where
  length : s.works.length = c.results.length
  agrees : ∀ (i : Nat) (w : Work), s.works[i]? = some w → w.Agrees c s.order i
  lt : ∀ i ∈ s.order, i < c.results.length
  nodup : s.order.Nodup
  data : s.fileDataVec = s.order.map fun i => c.results.getD i []

theorem Collected.start (c : Crop) : Collected c (.dispatch c.tasks) := by
  refine ⟨?_, fun i w hw => ?_, by simp [TaskDispatcher.dispatch], List.nodup_nil, rfl⟩
  · rw [TaskDispatcher.dispatch, List.length_map]
    exact (mapM_getElem c.tasks_run).1
  · rw [TaskDispatcher.dispatch, List.getElem?_map, Option.map_eq_some_iff] at hw
    obtain ⟨task, hTask, rfl⟩ := hw
    exact ⟨hTask, List.not_mem_nil⟩

theorem Collected.step {c : Crop} {s s' : TaskDispatcher} {ev : PoolEvent} {out : Unit}
    (h : Collected c s) (hStep : s.step ev = some (s', out)) : Collected c s' := by
  cases ev with
  | startWork i =>
    simp only [TaskDispatcher.step] at hStep
    split at hStep
    · rename_i task hWork
      simp only [Option.bind_eq_bind, Option.bind_eq_some_iff, Option.some.injEq,
        Prod.mk.injEq] at hStep
      obtain ⟨newFileMap, hRun, rfl, -⟩ := hStep
      obtain ⟨hTask, hNot⟩ := h.agrees i _ hWork
      refine ⟨by simpa using h.length, fun j w hw => ?_, h.lt, h.nodup, h.data⟩
      by_cases hj : i = j
      · subst hj
        rw [List.getElem?_set_self (List.getElem?_eq_some_iff.mp hWork).1] at hw
        cases hw
        exact ⟨((mapM_getElem c.tasks_run).2 i task hTask).symm.trans hRun, hNot⟩
      · rw [List.getElem?_set_ne hj] at hw
        exact h.agrees j w hw
    · cases hStep
  | afterWork i =>
    simp only [TaskDispatcher.step] at hStep
    split at hStep
    · rename_i newFileMap hWork
      cases hStep
      obtain ⟨hResult, hNot⟩ := h.agrees i _ hWork
      obtain ⟨hLt, hGet⟩ := List.getElem?_eq_some_iff.mp hResult
      refine ⟨by simpa using h.length, fun j w hw => ?_, fun j hj => ?_, ?_, ?_⟩
      · dsimp only at hw ⊢
        by_cases hj : i = j
        · subst hj
          rw [List.getElem?_set_self (List.getElem?_eq_some_iff.mp hWork).1] at hw
          cases hw
          simp [Work.Agrees]
        · rw [List.getElem?_set_ne hj] at hw
          have hOld := h.agrees j w hw
          have hSame : j ∈ s.order ++ [i] ↔ j ∈ s.order := by simp [Ne.symm hj]
          cases w <;> simpa only [Work.Agrees, hSame] using hOld
      · rcases List.mem_append.mp hj with hOld | hNew
        · exact h.lt j hOld
        · rw [List.mem_singleton.mp hNew]
          exact hLt
      · exact List.Nodup.append h.nodup (List.nodup_singleton i) (by simpa using hNot)
      · rw [h.data, List.map_append, List.map_singleton, List.getD_eq_getElem _ _ hLt, hGet]
    · cases hStep

/-- When nothing is left to do, every task was completed once. -/
theorem Collected.perm {c : Crop} {s : TaskDispatcher} (h : Collected c s) (hEnd : s.Finished) :
    s.order.Perm (List.range c.results.length) := by
  rw [List.perm_ext_iff_of_nodup h.nodup List.nodup_range]
  intro i
  rw [List.mem_range]
  constructor
  · exact h.lt i
  · intro hLt
    exact h.agrees i _ (hEnd i (h.length ▸ hLt))

theorem map_getD_range (results : List (List UInt8)) :
    (List.range results.length).map (fun i => results.getD i []) = results := by
  apply List.ext_getElem
  · simp
  · intro i hi hi'
    simp [hi']

/-- After a whole run the results were written in the order of their completion. -/
theorem written_eq {c : Crop} {evs : List PoolEvent} {t : TaskDispatcher} {outs : List Unit}
    (hRun : Machine.run TaskDispatcher.step (.dispatch c.tasks) evs = some (t, outs))
    (hEnd : t.Finished) : t.order.Perm (List.range c.results.length) ∧
      t.written = (t.order.map fun i => c.results.getD i []).flatten := by
  have hCollected : Collected c t :=
    Machine.run_invariant (fun h hStep => Collected.step h hStep) (Collected.start c) hRun
  exact ⟨hCollected.perm hEnd, congrArg List.flatten hCollected.data⟩

/-! ### Every order of completion can happen -/

/-- Tasks that are queued can be run and completed one after the other. -/
theorem run_each {l : List Nat} {s : TaskDispatcher} (hNodup : l.Nodup)
    (hQueued : ∀ i ∈ l, ∃ task newFileMap, s.works[i]? = some (.queued task) ∧
      task.run = some newFileMap) :
    ∃ evs t outs, Machine.run TaskDispatcher.step s evs = some (t, outs) ∧
      t.order = s.order ++ l ∧ t.works.length = s.works.length ∧
      (∀ i ∈ l, t.works[i]? = some .completed) ∧ ∀ i ∉ l, t.works[i]? = s.works[i]? := by
  induction l generalizing s with
  | nil => exact ⟨[], s, [], rfl, by simp, rfl, by simp, by simp⟩
  | cons i l ih =>
    obtain ⟨task, newFileMap, hWork, hRun⟩ := hQueued i List.mem_cons_self
    obtain ⟨hNot, hNodup'⟩ := List.nodup_cons.mp hNodup
    have hLt := (List.getElem?_eq_some_iff.mp hWork).1
    let s₁ : TaskDispatcher :=
      { s with
        works := s.works.set i (.ran newFileMap)
        taskRunningCounts := s.taskRunningCounts + 1 }
    let s₂ : TaskDispatcher :=
      { works := s₁.works.set i .completed
        fileDataVec := s₁.fileDataVec ++ [newFileMap]
        taskRunningCounts := s₁.taskRunningCounts - 1
        order := s₁.order ++ [i] }
    have hStart : s.step (.startWork i) = some (s₁, ()) := by
      simp only [TaskDispatcher.step, hWork, hRun, Option.bind_eq_bind, Option.bind_some, s₁]
    have hAfter : s₁.step (.afterWork i) = some (s₂, ()) := by
      have hRan : s₁.works[i]? = some (.ran newFileMap) := List.getElem?_set_self hLt
      simp only [TaskDispatcher.step, hRan, s₂]
    have hOther : ∀ j, j ≠ i → s₂.works[j]? = s.works[j]? := by
      intro j hj
      simp only [s₂, s₁]
      rw [List.getElem?_set_ne (Ne.symm hj), List.getElem?_set_ne (Ne.symm hj)]
    have hSelf : s₂.works[i]? = some .completed := by
      simp only [s₂, s₁]
      rw [List.getElem?_set_self (by simpa using hLt)]
    obtain ⟨evs, t, outs, hRest, hOrder, hLength, hDone, hSame⟩ := ih (s := s₂) hNodup' fun j hj => by
      obtain ⟨task', newFileMap', hWork', hRun'⟩ := hQueued j (List.mem_cons_of_mem i hj)
      exact ⟨task', newFileMap', (hOther j (ne_of_mem_of_not_mem hj hNot)).trans hWork', hRun'⟩
    refine ⟨.startWork i :: .afterWork i :: evs, t, _,
      Machine.run_step hStart (Machine.run_step hAfter hRest), ?_, ?_, ?_, ?_⟩
    · rw [hOrder, List.append_assoc]
      rfl
    · rw [hLength]
      simp [s₂, s₁]
    · intro j hj
      rcases List.mem_cons.mp hj with rfl | hIn
      · rw [hSame j hNot, hSelf]
      · exact hDone j hIn
    · intro j hj
      rw [List.mem_cons, not_or] at hj
      rw [hSame j hj.2, hOther j hj.1]

theorem exists_run (c : Crop) {order : List Nat} (h : order.Perm (List.range c.results.length)) :
    ∃ evs t outs, Machine.run TaskDispatcher.step (.dispatch c.tasks) evs = some (t, outs) ∧
      t.Finished ∧ t.order = order := by
  obtain ⟨hLength, hAt⟩ := mapM_getElem c.tasks_run
  have hQueued : ∀ i ∈ order, ∃ task newFileMap,
      (TaskDispatcher.dispatch c.tasks).works[i]? = some (.queued task) ∧
        task.run = some newFileMap := by
    intro i hi
    have hLt : i < c.results.length := List.mem_range.mp (h.mem_iff.mp hi)
    have hLt' : i < c.tasks.length := hLength ▸ hLt
    refine ⟨c.tasks[i], c.results[i], ?_, ?_⟩
    · rw [TaskDispatcher.dispatch, List.getElem?_map, List.getElem?_eq_getElem hLt']
      rfl
    · rw [hAt i _ (List.getElem?_eq_getElem hLt'), List.getElem?_eq_getElem hLt]
  obtain ⟨evs, t, outs, hRun, hOrder, hWorks, hDone, -⟩ :=
    run_each (h.nodup_iff.mpr List.nodup_range) hQueued
  refine ⟨evs, t, outs, hRun, fun i hi => hDone i ?_, by simpa [TaskDispatcher.dispatch] using hOrder⟩
  rw [h.mem_iff, List.mem_range, ← hLength]
  simpa [hWorks, TaskDispatcher.dispatch] using hi

/-! ### The order of the file -/

/-- Texts that commute with one another may be put together in any order. -/
theorem flatten_perm {texts texts' : List (List UInt8)} (h : texts.Perm texts')
    (hComm : ∀ a ∈ texts, ∀ b ∈ texts, a ++ b = b ++ a) : texts.flatten = texts'.flatten := by
  have hFold : ∀ l : List (List UInt8), l.flatten = l.foldr (· ++ ·) [] := by
    intro l
    induction l with
    | nil => rfl
    | cons a l ih => rw [List.flatten_cons, List.foldr_cons, ih]
  rw [hFold, hFold]
  apply h.foldr_eq'
  intro a ha b hb rest
  rw [← List.append_assoc, hComm b hb a ha, List.append_assoc]

/-- Two tasks that are completed first, in either order. -/
theorem perm_first_two {n i j : Nat} (hi : i < n) (hj : j < n) (hij : i ≠ j) :
    ∃ rest, (i :: j :: rest).Perm (List.range n) := by
  have hiIn : i ∈ List.range n := List.mem_range.mpr hi
  have hjIn : j ∈ (List.range n).erase i := (List.mem_erase_of_ne hij.symm).mpr (List.mem_range.mpr hj)
  refine ⟨((List.range n).erase i).erase j, ?_⟩
  exact ((List.perm_cons_erase hjIn).symm.cons i).trans (List.perm_cons_erase hiIn).symm

/-- The new file has the results of the chunks in the order of the file, whatever the order in which
the pool finishes the tasks, exactly when the results commute with one another; and always when the
tasks are completed in the order of the file. -/
theorem keeps_order_iff (c : Crop) :
    (c.Ordered (fun _ => True) ↔ ∀ a ∈ c.results, ∀ b ∈ c.results, a ++ b = b ++ a) ∧
      c.Ordered fun order => order = List.range c.results.length := by
  refine ⟨⟨fun h => ?_, fun h => ?_⟩, ?_⟩
  · intro a ha b hb
    obtain ⟨i, hi, rfl⟩ := List.mem_iff_getElem.mp ha
    obtain ⟨j, hj, rfl⟩ := List.mem_iff_getElem.mp hb
    by_cases hij : i = j
    · subst hij
      rfl
    · have hWritten : ∀ order : List Nat, order.Perm (List.range c.results.length) →
          (order.map fun i => c.results.getD i []).flatten = c.results.flatten := by
        intro order hPerm
        obtain ⟨evs, t, outs, hRun, hEnd, rfl⟩ := exists_run c hPerm
        rw [← (written_eq hRun hEnd).2]
        exact h evs t outs hRun hEnd trivial
      obtain ⟨rest, hRest⟩ := perm_first_two hi hj hij
      have hFirst := hWritten _ hRest
      have hSecond := hWritten _ ((List.Perm.swap i j rest).trans hRest)
      rw [← hSecond] at hFirst
      simp only [List.map_cons, List.flatten_cons, ← List.append_assoc] at hFirst
      simpa [hi, hj] using List.append_cancel_right hFirst
  · intro evs t outs hRun hEnd _
    obtain ⟨hPerm, hWritten⟩ := written_eq hRun hEnd
    have hTexts := (hPerm.map fun i => c.results.getD i []).symm
    rw [map_getD_range] at hTexts
    rw [hWritten, flatten_perm hTexts h]
  · intro evs t outs hRun hEnd hOrder
    rw [(written_eq hRun hEnd).2, hOrder, map_getD_range]

/-- The lines `b` and `a`, each in a chunk of its own. -/
def twoLines : Crop where
  file := { bytes := [98, 10, 97, 10], noNul := by decide, ends := by decide }
  padding := 1
  condition := ['1']
  fuel := 3
  chunks := [(0, 2), (2, 2)]
  split := by decide
  results := [[98, 10], [97, 10]]
  ran := by rfl

/-- The second of two chunks is completed first. -/
theorem not_ordered_twoLines : ∃ evs t outs,
    Machine.run TaskDispatcher.step (.dispatch twoLines.tasks) evs = some (t, outs) ∧
      t.Finished ∧ t.written ≠ twoLines.results.flatten := by
  refine ⟨[.startWork 0, .startWork 1, .afterWork 1, .afterWork 0], _, _, rfl, ?_, by decide⟩
  intro i hi
  have hTwo : i < 2 := hi
  interval_cases i <;> rfl

end DemoCode.FileCrop
