import Mathlib.Data.List.Basic

/-! Runs of a machine: a step takes an event, may fail, and makes an output.  An invariant that every
step keeps, as long as the steps meet a condition, is kept by a run whose steps all meet it. -/

namespace Machine

variable {σ ε ω : Type*}

/-- The state after the events, with the outputs; nothing when a step fails. -/
def run (step : σ → ε → Option (σ × ω)) (s : σ) : List ε → Option (σ × List ω)
  | [] => some (s, [])
  | ev :: evs => do
    let (s', out) ← step s ev
    let (t, outs) ← run step s' evs
    some (t, out :: outs)

/-- A condition on every step of a run, from the state before it. -/
def Along (step : σ → ε → Option (σ × ω)) (P : σ → ε → Prop) (s : σ) : List ε → Prop
  | [] => True
  | ev :: evs => P s ev ∧ ∀ s' out, step s ev = some (s', out) → Along step P s' evs

variable {step : σ → ε → Option (σ × ω)} {P : σ → ε → Prop}

theorem run_cons {s t : σ} {ev : ε} {evs : List ε} {outs : List ω}
    (h : run step s (ev :: evs) = some (t, outs)) :
    ∃ s' out outs', step s ev = some (s', out) ∧ run step s' evs = some (t, outs') ∧
      outs = out :: outs' := by
  simp only [run, Option.bind_eq_bind, Option.bind_eq_some_iff, Prod.exists, Option.some.injEq,
    Prod.mk.injEq] at h
  obtain ⟨s', out, hStep, t', outs', hRun, rfl, rfl⟩ := h
  exact ⟨s', out, outs', hStep, hRun, rfl⟩

theorem run_step {s s' t : σ} {ev : ε} {evs : List ε} {out : ω} {outs : List ω}
    (hStep : step s ev = some (s', out)) (hRun : run step s' evs = some (t, outs)) :
    run step s (ev :: evs) = some (t, out :: outs) := by
  simp only [run, hStep, hRun, Option.bind_eq_bind, Option.bind_some]

/-- A run returns when its first step and the rest of it do. -/
theorem run_step_iff {s s' : σ} {ev : ε} {evs : List ε} {out : ω} (hStep : step s ev = some (s', out)) :
    (∃ t outs, run step s (ev :: evs) = some (t, outs)) ↔
      ∃ t outs, run step s' evs = some (t, outs) := by
  constructor
  · rintro ⟨t, outs, hRun⟩
    obtain ⟨s₁, out₁, outs₁, hFirst, hRest, -⟩ := run_cons hRun
    obtain ⟨rfl, -⟩ := Prod.mk.inj (Option.some.inj (hStep.symm.trans hFirst))
    exact ⟨t, outs₁, hRest⟩
  · rintro ⟨t, outs, hRun⟩
    exact ⟨t, out :: outs, run_step hStep hRun⟩

theorem not_run_of_step {s : σ} {ev : ε} {evs : List ε} (hStep : step s ev = none) :
    ¬∃ t outs, run step s (ev :: evs) = some (t, outs) := by
  rintro ⟨t, outs, hRun⟩
  obtain ⟨s', out, outs', hFirst, -⟩ := run_cons hRun
  rw [hStep] at hFirst
  cases hFirst

theorem run_append {s t u : σ} {evs evs' : List ε} {outs outs' : List ω}
    (h : run step s evs = some (t, outs)) (h' : run step t evs' = some (u, outs')) :
    run step s (evs ++ evs') = some (u, outs ++ outs') := by
  induction evs generalizing s outs with
  | nil =>
    cases h
    exact h'
  | cons ev evs ih =>
    obtain ⟨s₁, out, outs₁, hStep, hRun, rfl⟩ := run_cons h
    exact run_step hStep (ih hRun)

theorem run_split {s u : σ} {evs evs' : List ε} {outs : List ω}
    (h : run step s (evs ++ evs') = some (u, outs)) :
    ∃ t outs₁ outs₂, run step s evs = some (t, outs₁) ∧ run step t evs' = some (u, outs₂) ∧
      outs = outs₁ ++ outs₂ := by
  induction evs generalizing s outs with
  | nil => exact ⟨s, [], outs, rfl, h, rfl⟩
  | cons ev evs ih =>
    obtain ⟨s', out, outs', hStep, hRest, rfl⟩ := run_cons h
    obtain ⟨t, outs₁, outs₂, hFirst, hSecond, rfl⟩ := ih hRest
    exact ⟨t, out :: outs₁, outs₂, run_step hStep hFirst, hSecond, rfl⟩

theorem along_cons {s s' : σ} {ev : ε} {evs : List ε} {out : ω} (hP : P s ev)
    (hStep : step s ev = some (s', out)) (h : Along step P s' evs) : Along step P s (ev :: evs) := by
  refine ⟨hP, fun t out' hSame => ?_⟩
  obtain ⟨rfl, rfl⟩ := Prod.mk.inj (Option.some.inj (hStep.symm.trans hSame))
  exact h

theorem along_append {s : σ} {evs evs' : List ε} (h : Along step P s (evs ++ evs')) :
    Along step P s evs := by
  induction evs generalizing s with
  | nil => exact trivial
  | cons ev evs ih => exact ⟨h.1, fun s' out hStep => ih (h.2 s' out hStep)⟩

/-- A condition that every step meets holds along every run. -/
theorem along_of_forall (h : ∀ s ev, P s ev) {s : σ} {evs : List ε} : Along step P s evs := by
  induction evs generalizing s with
  | nil => exact trivial
  | cons ev evs ih => exact ⟨h s ev, fun s' _ _ => ih⟩

/-- A condition on the events alone holds along a run that returns if it holds of each of them. -/
theorem along_forall {Q : ε → Prop} {s t : σ} {evs : List ε} {outs : List ω}
    (hRun : run step s evs = some (t, outs)) :
    Along step (fun _ ev => Q ev) s evs ↔ ∀ ev ∈ evs, Q ev := by
  induction evs generalizing s outs with
  | nil => exact iff_of_true trivial fun _ hIn => absurd hIn List.not_mem_nil
  | cons ev evs ih =>
    obtain ⟨s', out, outs', hFirst, hRest, -⟩ := run_cons hRun
    have hLater := ih hRest
    rw [List.forall_mem_cons, ← hLater]
    constructor
    · rintro ⟨hQ, hAll⟩
      exact ⟨hQ, hAll s' out hFirst⟩
    · rintro ⟨hQ, hAll⟩
      exact along_cons hQ hFirst hAll

/-- **Invariant rule**. -/
theorem run_keeps {I : σ → Prop}
    (hStep : ∀ {s ev s' out}, I s → P s ev → step s ev = some (s', out) → I s') {s t : σ}
    {evs : List ε} {outs : List ω} (hStart : I s) (hAlong : Along step P s evs)
    (hRun : run step s evs = some (t, outs)) : I t := by
  induction evs generalizing s outs with
  | nil =>
    cases hRun
    exact hStart
  | cons ev evs ih =>
    obtain ⟨s', out, outs', hFirst, hRest, -⟩ := run_cons hRun
    exact ih (hStep hStart hAlong.1 hFirst) (hAlong.2 s' out hFirst) hRest

/-- **Progress rule**: where an invariant and the condition on a step make it succeed and are kept, a
run succeeds. -/
theorem run_returns {I : σ → Prop}
    (hStep : ∀ {s ev}, I s → P s ev → ∃ s' out, step s ev = some (s', out) ∧ I s') {s : σ} {evs : List ε}
    (hStart : I s) (hAlong : Along step P s evs) :
    ∃ t outs, run step s evs = some (t, outs) ∧ I t := by
  induction evs generalizing s with
  | nil => exact ⟨s, [], rfl, hStart⟩
  | cons ev evs ih =>
    obtain ⟨s', out, hFirst, hNext⟩ := hStep hStart hAlong.1
    obtain ⟨t, outs, hRest, hEnd⟩ := ih hNext (hAlong.2 s' out hFirst)
    exact ⟨t, out :: outs, run_step hFirst hRest, hEnd⟩

/-- **Output rule**: where an invariant decides each output of a step by a condition on the state
before it, all outputs of a run are decided by that condition along it. -/
theorem run_outputs {I : σ → Prop} {Q : ω → Prop} {R : σ → ε → Prop}
    (hStep : ∀ {s ev s' out}, I s → P s ev → step s ev = some (s', out) → I s' ∧ (Q out ↔ R s ev))
    {s t : σ} {evs : List ε} {outs : List ω} (hStart : I s) (hAlong : Along step P s evs)
    (hRun : run step s evs = some (t, outs)) : (∀ out ∈ outs, Q out) ↔ Along step R s evs := by
  induction evs generalizing s outs with
  | nil =>
    cases hRun
    exact ⟨fun _ => trivial, fun _ _ hIn => absurd hIn List.not_mem_nil⟩
  | cons ev evs ih =>
    obtain ⟨s', out, outs', hFirst, hRest, rfl⟩ := run_cons hRun
    obtain ⟨hNext, hIff⟩ := hStep hStart hAlong.1 hFirst
    have hLater := ih hNext (hAlong.2 s' out hFirst) hRest
    rw [List.forall_mem_cons, hIff, hLater]
    constructor
    · rintro ⟨hR, hAll⟩
      exact along_cons hR hFirst hAll
    · rintro ⟨hR, hAll⟩
      exact ⟨hR, hAll s' out hFirst⟩

/-- **Agreement rule**: two conditions that agree on every step from a state with an invariant agree
along every run that returns. -/
theorem along_congr {I : σ → Prop} {R : σ → ε → Prop}
    (hStep : ∀ {s ev s' out}, I s → step s ev = some (s', out) → I s' ∧ (P s ev ↔ R s ev)) {s t : σ}
    {evs : List ε} {outs : List ω} (hStart : I s) (hRun : run step s evs = some (t, outs)) :
    Along step P s evs ↔ Along step R s evs := by
  induction evs generalizing s outs with
  | nil => exact Iff.rfl
  | cons ev evs ih =>
    obtain ⟨s', out, outs', hFirst, hRest, -⟩ := run_cons hRun
    obtain ⟨hNext, hAgree⟩ := hStep hStart hFirst
    have hLater := ih hNext hRest
    constructor
    · rintro ⟨hP, hAll⟩
      exact along_cons (hAgree.mp hP) hFirst (hLater.mp (hAll s' out hFirst))
    · rintro ⟨hR, hAll⟩
      exact along_cons (hAgree.mpr hR) hFirst (hLater.mpr (hAll s' out hFirst))

/-- **Agreement up to the first failure**: two conditions that agree at a state with an invariant agree
along every run, when a step that meets them keeps the invariant. -/
theorem along_iff {I : σ → Prop} {R : σ → ε → Prop} (hAgree : ∀ {s ev}, I s → (P s ev ↔ R s ev))
    (hStep : ∀ {s ev s' out}, I s → R s ev → step s ev = some (s', out) → I s') {s : σ}
    {evs : List ε} (hStart : I s) : Along step P s evs ↔ Along step R s evs := by
  induction evs generalizing s with
  | nil => exact Iff.rfl
  | cons ev evs ih =>
    constructor
    · rintro ⟨hP, hAll⟩
      have hR := (hAgree hStart).mp hP
      exact ⟨hR, fun s' out hNext => (ih (hStep hStart hR hNext)).mp (hAll s' out hNext)⟩
    · rintro ⟨hR, hAll⟩
      exact ⟨(hAgree hStart).mpr hR,
        fun s' out hNext => (ih (hStep hStart hR hNext)).mpr (hAll s' out hNext)⟩

/-- **Consequence rule**: a condition that an invariant and another condition imply at each step holds
along every run where that other one does. -/
theorem along_imp {I : σ → Prop} {R : σ → ε → Prop}
    (hStep : ∀ {s ev s' out}, I s → P s ev → step s ev = some (s', out) → I s')
    (hHere : ∀ {s ev}, I s → P s ev → R s ev) {s : σ} {evs : List ε} (hStart : I s)
    (hAlong : Along step P s evs) : Along step R s evs := by
  induction evs generalizing s with
  | nil => exact trivial
  | cons ev evs ih =>
    refine ⟨hHere hStart hAlong.1, fun s' out hNext => ?_⟩
    exact ih (hStep hStart hAlong.1 hNext) (hAlong.2 s' out hNext)

/-- A property of every state that a run comes to. -/
def Throughout (step : σ → ε → Option (σ × ω)) (B : σ → Prop) (s : σ) (evs : List ε) : Prop :=
  ∀ evs' t outs, evs' <+: evs → run step s evs' = some (t, outs) → B t

theorem throughout_cons {B : σ → Prop} {s s' : σ} {ev : ε} {evs : List ε} {out : ω}
    (hStep : step s ev = some (s', out)) :
    Throughout step B s (ev :: evs) ↔ B s ∧ Throughout step B s' evs := by
  constructor
  · intro h
    refine ⟨h [] s [] List.nil_prefix rfl, fun evs' t outs hPrefix hRun => ?_⟩
    exact h (ev :: evs') t (out :: outs) (List.prefix_cons_inj ev |>.mpr hPrefix)
      (run_step hStep hRun)
  · rintro ⟨hHere, hLater⟩ evs' t outs hPrefix hRun
    cases evs' with
    | nil =>
      cases hRun
      exact hHere
    | cons ev' evs' =>
      obtain ⟨rfl, hRest⟩ := List.cons_prefix_cons.mp hPrefix
      obtain ⟨s₁, out₁, outs₁, hFirst, hRun, -⟩ := run_cons hRun
      obtain ⟨rfl, -⟩ := Prod.mk.inj (Option.some.inj (hStep.symm.trans hFirst))
      exact hLater evs' t outs₁ hRest hRun

/-- **State rule**: where an invariant and a property decide by a condition on a step whether the next
state has the property, a run has it throughout exactly if all of its steps meet the condition. -/
theorem throughout_iff {B I : σ → Prop} {R : σ → ε → Prop}
    (hStep : ∀ {s ev s' out}, I s → B s → step s ev = some (s', out) → I s' ∧ (B s' ↔ R s ev))
    {s t : σ} {evs : List ε} {outs : List ω} (hStart : I s) (hHere : B s)
    (hRun : run step s evs = some (t, outs)) :
    Throughout step B s evs ↔ Along step R s evs := by
  induction evs generalizing s outs with
  | nil =>
    refine iff_of_true (fun evs' t outs hPrefix hRun => ?_) trivial
    rw [List.prefix_nil.mp hPrefix] at hRun
    cases hRun
    exact hHere
  | cons ev evs ih =>
    obtain ⟨s', out, outs', hFirst, hRest, -⟩ := run_cons hRun
    obtain ⟨hNext, hIff⟩ := hStep hStart hHere hFirst
    rw [throughout_cons hFirst, and_iff_right hHere]
    constructor
    · intro hAll
      have hGood : B s' := hAll [] s' [] List.nil_prefix rfl
      exact along_cons (hIff.mp hGood) hFirst ((ih hNext hGood hRest).mp hAll)
    · rintro ⟨hR, hAll⟩
      exact (ih hNext (hIff.mpr hR) hRest).mpr (hAll s' out hFirst)

/-- The invariant rule without a condition. -/
theorem run_invariant {I : σ → Prop} (hStep : ∀ {s ev s' out}, I s → step s ev = some (s', out) → I s')
    {s t : σ} {evs : List ε} {outs : List ω} (hStart : I s)
    (hRun : run step s evs = some (t, outs)) : I t := by
  exact run_keeps (P := fun _ _ => True) (fun hI _ => hStep hI) hStart
    (along_of_forall fun _ _ => trivial) hRun

end Machine
