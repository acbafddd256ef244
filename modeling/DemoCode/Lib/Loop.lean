import Mathlib.Data.List.Basic
import Mathlib.Logic.Relation

/-! Loops that are left from the middle of their body.  A pass through the body emits events and
either leaves the loop with a result or goes on from a new state; a measure that every further pass
lowers makes the loop a total function of its first state. -/

namespace Loop

/-- What one pass through a loop's body does. -/
inductive Pass (τ ω ρ : Type*) where
  | leave (out : List ω) (result : ρ)
  | again (out : List ω) (state : τ)

/-- A pass seen through an abstraction of its states, events and results. -/
def Pass.map {τ ω ρ τ' ω' ρ' : Type*} (state : τ → τ') (event : ω → List ω') (result : ρ → ρ') :
    Pass τ ω ρ → Pass τ' ω' ρ'
  | .leave out r => .leave (out.flatMap event) (result r)
  | .again out t => .again (out.flatMap event) (state t)

/-- A pass that may fail, which leaves the loop without a result. -/
def Pass.ofOption {τ ω ρ : Type*} : Option (Pass τ ω ρ) → Pass τ ω (Option ρ)
  | none => .leave [] none
  | some (.leave out r) => .leave out (some r)
  | some (.again out t) => .again out t

/-- The events of a pass. -/
def Pass.out {τ ω ρ : Type*} : Pass τ ω ρ → List ω
  | .leave out _ => out
  | .again out _ => out

/-- The events and the result of at most `fuel` passes, or nothing when the loop has not ended. -/
def run {τ ω ρ : Type*} (pass : τ → Pass τ ω ρ) : Nat → τ → Option (List ω × ρ)
  | 0, _ => none
  | fuel + 1, t =>
    match pass t with
    | .leave out r => some (out, r)
    | .again out t' => (run pass fuel t').map fun x => (out ++ x.1, x.2)

/-- When no pass fails, the loop ends as it does without the failures. -/
theorem run_ofOption {τ ω ρ : Type*} {pass : τ → Pass τ ω ρ} {mayFail : τ → Option (Pass τ ω ρ)}
    (h : ∀ t, mayFail t = some (pass t)) (fuel : Nat) (t : τ) :
    run (fun t => Pass.ofOption (mayFail t)) fuel t = (run pass fuel t).map fun x => (x.1, some x.2) := by
  induction fuel generalizing t with
  | zero => rfl
  | succ fuel ih =>
    cases hPass : pass t with
    | leave out r =>
      have hHere : Pass.ofOption (mayFail t) = .leave out (some r) := by
        rw [h, hPass]
        rfl
      simp only [run, hHere, hPass, Option.map_some]
    | again out t' =>
      have hHere : Pass.ofOption (mayFail t) = .again out t' := by
        rw [h, hPass]
        rfl
      simp only [run, hHere, hPass, ih, Option.map_map]
      rfl

/-! ### The states that a loop comes to -/

/-- The passes from the first state lead to the other. -/
def Reaches {τ ω ρ : Type*} (pass : τ → Pass τ ω ρ) : τ → τ → Prop :=
  Relation.ReflTransGen fun t t' => ∃ out, pass t = .again out t'

section

variable {τ ω ρ : Type*} {pass : τ → Pass τ ω ρ} {t t' : τ} {out : List ω} {r : ρ} {P : τ → Prop}

theorem forall_reaches_leave (h : pass t = .leave out r) :
    (∀ u, Reaches pass t u → P u) ↔ P t := by
  constructor
  · exact fun hAll => hAll t .refl
  · intro hHere u hReaches
    rcases hReaches.cases_head with rfl | ⟨t', ⟨out', hPass⟩, -⟩
    · exact hHere
    · rw [h] at hPass
      cases hPass

theorem forall_reaches_again (h : pass t = .again out t') :
    (∀ u, Reaches pass t u → P u) ↔ P t ∧ ∀ u, Reaches pass t' u → P u := by
  constructor
  · exact fun hAll => ⟨hAll t .refl, fun u hReaches => hAll u (.head ⟨out, h⟩ hReaches)⟩
  · rintro ⟨hHere, hLater⟩ u hReaches
    rcases hReaches.cases_head with rfl | ⟨t'', ⟨out', hPass⟩, hRest⟩
    · exact hHere
    · rw [h] at hPass
      cases hPass
      exact hLater u hRest

end

/-! ### Loops without a measure -/

/-- A computation with a bound on its steps whose result, once there, stays with every larger bound. -/
def Steady {ρ : Type*} (f : Nat → Option ρ) : Prop :=
  ∀ {n m : Nat} {r : ρ}, n ≤ m → f n = some r → f m = some r

/-- It ends with `r`. -/
def Returns {ρ : Type*} (f : Nat → Option ρ) (r : ρ) : Prop := ∃ fuel, f fuel = some r

section

variable {τ ω ρ ρ' : Type*} {pass : τ → Pass τ ω ρ} {t t' : τ} {out : List ω} {r r' : ρ}

theorem Steady.unique {f : Nat → Option ρ} (hf : Steady f) (h : Returns f r) (h' : Returns f r') :
    r = r' := by
  obtain ⟨n, hn⟩ := h
  obtain ⟨m, hm⟩ := h'
  have hLeft := hf (Nat.le_max_left n m) hn
  have hRight := hf (Nat.le_max_right n m) hm
  exact Option.some.inj (hLeft.symm.trans hRight)

/-- Every large enough bound gives `r`. -/
def Settles (f : Nat → Option ρ) (r : ρ) : Prop := ∃ n, ∀ fuel, n ≤ fuel → f fuel = some r

theorem Settles.unique {f : Nat → Option ρ} (h : Settles f r) (h' : Settles f r') : r = r' := by
  obtain ⟨n, hn⟩ := h
  obtain ⟨m, hm⟩ := h'
  have hLeft := hn _ (Nat.le_max_left n m)
  have hRight := hm _ (Nat.le_max_right n m)
  exact Option.some.inj (hLeft.symm.trans hRight)

theorem settles_const (r : ρ) : Settles (fun _ => some r) r := ⟨0, fun _ _ => rfl⟩

theorem settles_of_eq {o : Option ρ} (h : o = some r) : Settles (fun _ => o) r := ⟨0, fun _ _ => h⟩

/-- A computation that spends one of its bound first. -/
theorem Settles.succ {f g : Nat → Option ρ} (h : Settles g r) (hf : ∀ fuel, f (fuel + 1) = g fuel) :
    Settles f r := by
  obtain ⟨n, hn⟩ := h
  refine ⟨n + 1, fun fuel hLe => ?_⟩
  obtain ⟨fuel, rfl⟩ : ∃ k, fuel = k + 1 := ⟨fuel - 1, by omega⟩
  rw [hf]
  exact hn fuel (by omega)

theorem Settles.bind {f : Nat → Option ρ} {g : ρ → Nat → Option ρ'} {r' : ρ'} (hf : Settles f r)
    (hg : Settles (g r) r') : Settles (fun fuel => (f fuel).bind fun r => g r fuel) r' := by
  obtain ⟨n, hn⟩ := hf
  obtain ⟨m, hm⟩ := hg
  refine ⟨max n m, fun fuel hLe => ?_⟩
  have hFirst := hn fuel (Nat.le_trans (Nat.le_max_left n m) hLe)
  have hRest := hm fuel (Nat.le_trans (Nat.le_max_right n m) hLe)
  exact Option.bind_eq_some_iff.mpr ⟨r, hFirst, hRest⟩

theorem Settles.map {f : Nat → Option ρ} (h : Settles f r) (g : ρ → ρ') :
    Settles (fun fuel => (f fuel).map g) (g r) := by
  obtain ⟨n, hn⟩ := h
  exact ⟨n, fun fuel hLe => Option.map_eq_some_iff.mpr ⟨r, hn fuel hLe, rfl⟩⟩

/-- The two give the same for every large enough bound. -/
def Ultimately (f g : Nat → Option ρ) : Prop := ∃ n, ∀ fuel, n ≤ fuel → f fuel = g fuel

theorem Ultimately.trans {f g e : Nat → Option ρ} (h : Ultimately f g) (h' : Ultimately g e) :
    Ultimately f e := by
  obtain ⟨n, hn⟩ := h
  obtain ⟨m, hm⟩ := h'
  refine ⟨max n m, fun fuel hLe => ?_⟩
  exact (hn fuel (Nat.le_trans (Nat.le_max_left n m) hLe)).trans
    (hm fuel (Nat.le_trans (Nat.le_max_right n m) hLe))

theorem Ultimately.settles {f g : Nat → Option ρ} (h : Ultimately f g) (hg : Settles g r) : Settles f r :=
  h.trans hg

theorem Ultimately.not_settles {f : Nat → Option ρ} (h : Ultimately f fun _ => none) : ¬Settles f r := by
  rintro ⟨n, hn⟩
  obtain ⟨m, hm⟩ := h
  have hNone := hm _ (Nat.le_max_right n m)
  rw [hn _ (Nat.le_max_left n m)] at hNone
  cases hNone

/-- What follows a computation goes on from its result. -/
theorem Settles.ultimately {f : Nat → Option ρ} (hf : Settles f r) (g : ρ → Nat → Option ρ') :
    Ultimately (fun fuel => (f fuel).bind fun r => g r fuel) (g r) := by
  obtain ⟨n, hn⟩ := hf
  refine ⟨n, fun fuel hLe => ?_⟩
  dsimp only
  rw [hn fuel hLe, Option.bind_some]

theorem Returns.settles {f : Nat → Option ρ} (h : Returns f r) (hf : Steady f) : Settles f r := by
  obtain ⟨n, hn⟩ := h
  exact ⟨n, fun fuel hLe => hf hLe hn⟩

theorem steady_const (r : Option ρ) : Steady fun _ => r := fun _ h => h

theorem Steady.bind {f : Nat → Option ρ} {g : ρ → Nat → Option ρ'} (hf : Steady f)
    (hg : ∀ r, Steady (g r)) : Steady fun fuel => (f fuel).bind fun r => g r fuel := by
  intro n m r' hLe h
  obtain ⟨r, hr, hr'⟩ := Option.bind_eq_some_iff.mp h
  exact Option.bind_eq_some_iff.mpr ⟨r, hf hLe hr, hg r hLe hr'⟩

/-- What follows a computation goes on from its result. -/
theorem returns_bind {f : Nat → Option ρ} {g : ρ → Nat → Option ρ'} (hf : Steady f)
    (hg : ∀ r, Steady (g r)) {r' : ρ'} : Returns (fun fuel => (f fuel).bind fun r => g r fuel) r' ↔
      ∃ r, Returns f r ∧ Returns (g r) r' := by
  constructor
  · rintro ⟨n, hn⟩
    obtain ⟨r, hr, hr'⟩ := Option.bind_eq_some_iff.mp hn
    exact ⟨r, ⟨n, hr⟩, n, hr'⟩
  · rintro ⟨r, ⟨n, hn⟩, m, hm⟩
    exact ⟨max n m, Option.bind_eq_some_iff.mpr
      ⟨r, hf (Nat.le_max_left n m) hn, hg r (Nat.le_max_right n m) hm⟩⟩

theorem Steady.map {f : Nat → Option ρ} (hf : Steady f) (g : ρ → ρ') :
    Steady fun fuel => (f fuel).map g := by
  intro n m r' hLe h
  obtain ⟨r, hr, rfl⟩ := Option.map_eq_some_iff.mp h
  exact Option.map_eq_some_iff.mpr ⟨r, hf hLe hr, rfl⟩

theorem returns_map {f : Nat → Option ρ} {g : ρ → ρ'} {r' : ρ'} :
    Returns (fun fuel => (f fuel).map g) r' ↔ ∃ r, Returns f r ∧ g r = r' := by
  constructor
  · rintro ⟨n, hn⟩
    obtain ⟨r, hr, rfl⟩ := Option.map_eq_some_iff.mp hn
    exact ⟨r, ⟨n, hr⟩, rfl⟩
  · rintro ⟨r, ⟨n, hn⟩, rfl⟩
    exact ⟨n, Option.map_eq_some_iff.mpr ⟨r, hn, rfl⟩⟩

theorem steady_run (pass : τ → Pass τ ω ρ) (t : τ) : Steady fun fuel => run pass fuel t := by
  intro n m x hLe h
  induction n generalizing m t x with
  | zero => cases h
  | succ n ih =>
    obtain ⟨m, rfl⟩ : ∃ k, m = k + 1 := ⟨m - 1, by omega⟩
    simp only [run] at h ⊢
    cases hPass : pass t with
    | leave out r => simpa only [hPass] using h
    | again out t' =>
      rw [hPass] at h
      obtain ⟨y, hy, hEq⟩ := Option.map_eq_some_iff.mp h
      exact Option.map_eq_some_iff.mpr ⟨y, ih t' (by omega) hy, hEq⟩

/-- What holds of the events of every pass holds of those of a run. -/
theorem run_out {P : ω → Prop} (hPass : ∀ t, ∀ o ∈ (pass t).out, P o) {fuel : Nat}
    (h : run pass fuel t = some (out, r)) : ∀ o ∈ out, P o := by
  induction fuel generalizing t out with
  | zero => cases h
  | succ fuel ih =>
    have hFirst := hPass t
    simp only [run] at h
    cases hEq : pass t with
    | leave out' r' =>
      rw [hEq] at h hFirst
      cases h
      exact hFirst
    | again out' t' =>
      rw [hEq] at h hFirst
      obtain ⟨⟨rest, r'⟩, hRest, hSame⟩ := Option.map_eq_some_iff.mp h
      cases hSame
      intro o hIn
      rcases List.mem_append.mp hIn with hHere | hLater
      · exact hFirst o hHere
      · exact ih hRest o hLater

/-- The loop ends with `r`. -/
def Ends (pass : τ → Pass τ ω ρ) (t : τ) (r : ρ) : Prop :=
  Returns (fun fuel => (run pass fuel t).map (·.2)) r

theorem Ends.unique (h : Ends pass t r) (h' : Ends pass t r') : r = r' :=
  Steady.unique (Steady.map (steady_run pass t) _) h h'

theorem Ends.settles (h : Ends pass t r) :
    ∃ out, Settles (fun fuel => run pass fuel t) (out, r) := by
  obtain ⟨⟨out, r⟩, hReturns, rfl⟩ := returns_map.mp h
  exact ⟨out, hReturns.settles (steady_run pass t)⟩

theorem ends_leave (h : pass t = .leave out r) : Ends pass t r' ↔ r = r' := by
  have hEnds : Ends pass t r := ⟨1, by simp only [run, h, Option.map_some]⟩
  exact ⟨hEnds.unique, fun hEq => hEq ▸ hEnds⟩

theorem ends_again (h : pass t = .again out t') : Ends pass t r ↔ Ends pass t' r := by
  constructor
  · rintro ⟨n, hn⟩
    cases n with
    | zero => cases hn
    | succ n =>
      refine ⟨n, ?_⟩
      simp only [run, h, Option.map_map] at hn
      exact hn
  · rintro ⟨n, hn⟩
    refine ⟨n + 1, ?_⟩
    simp only [run, h, Option.map_map]
    exact hn

/-- A loop that always goes on never ends. -/
theorem not_ends {I : τ → Prop} (hPass : ∀ {t}, I t → ∃ out t', pass t = .again out t' ∧ I t')
    (h : I t) : ¬Ends pass t r := by
  rintro ⟨n, hn⟩
  induction n generalizing t with
  | zero => cases hn
  | succ n ih =>
    obtain ⟨out, t', hEq, h'⟩ := hPass h
    simp only [run, hEq, Option.map_map] at hn
    exact ih h' hn

end

/-- A loop body whose every further pass lowers a measure. -/
structure Body (τ ω ρ : Type*) where
  pass : τ → Pass τ ω ρ
  measure : τ → Nat
  lowers : ∀ {t out t'}, pass t = .again out t' → measure t' < measure t

namespace Body

variable {τ ω ρ : Type*} (b : Body τ ω ρ)

theorem run_isSome (t : τ) {fuel : Nat} (hFuel : b.measure t < fuel) :
    (run b.pass fuel t).isSome := by
  induction fuel generalizing t with
  | zero => omega
  | succ fuel ih =>
    simp only [run]
    cases h : b.pass t with
    | leave out r => rfl
    | again out t' =>
      have := b.lowers h
      simpa using ih t' (by omega)

/-- The loop from `t`: the events of its passes, and its result. -/
def exec (t : τ) : List ω × ρ :=
  (run b.pass (b.measure t + 1) t).get (b.run_isSome t (Nat.lt_succ_self _))

/-- More fuel than the measure changes nothing. -/
theorem run_eq_exec (t : τ) {fuel : Nat} (hFuel : b.measure t < fuel) :
    run b.pass fuel t = some (b.exec t) := by
  have key : ∀ (n m : Nat) (t : τ), b.measure t < n → b.measure t < m →
      run b.pass n t = run b.pass m t := by
    intro n
    induction n with
    | zero => intro m t h; omega
    | succ n ih =>
      intro m t hn hm
      cases m with
      | zero => omega
      | succ m =>
        simp only [run]
        cases h : b.pass t with
        | leave out r => rfl
        | again out t' =>
          have := b.lowers h
          simp only [ih m t' (by omega) (by omega)]
  rw [key _ (b.measure t + 1) t hFuel (Nat.lt_succ_self _), exec, Option.some_get]

theorem settles_exec (t : τ) : Settles (fun fuel => run b.pass fuel t) (b.exec t) :=
  ⟨b.measure t + 1, fun _ hFuel => b.run_eq_exec t hFuel⟩

theorem exec_leave {t : τ} {out : List ω} {r : ρ} (h : b.pass t = .leave out r) :
    b.exec t = (out, r) := by
  have hRun := b.run_eq_exec t (Nat.lt_succ_self (b.measure t))
  rw [run, h] at hRun
  exact (Option.some.inj hRun).symm

theorem exec_again {t t' : τ} {out : List ω} (h : b.pass t = .again out t') :
    b.exec t = (out ++ (b.exec t').1, (b.exec t').2) := by
  have hRun := b.run_eq_exec t (Nat.lt_succ_self (b.measure t))
  rw [run, h] at hRun
  simp only [b.run_eq_exec t' (b.lowers h), Option.map_some, Option.some.injEq] at hRun
  exact hRun.symm

/-- Induction along the passes of the loop. -/
theorem induct {P : τ → Prop} (leave : ∀ t out r, b.pass t = .leave out r → P t)
    (again : ∀ t out t', b.pass t = .again out t' → P t' → P t) (t : τ) : P t := by
  induction hm : b.measure t using Nat.strongRecOn generalizing t with
  | ind m ih =>
    cases h : b.pass t with
    | leave out r => exact leave t out r h
    | again out t' => exact again t out t' h (ih _ (hm ▸ b.lowers h) t' rfl)

/-- **Invariant rule**: what every pass keeps holds of the result, as far as leaving the loop takes
it. -/
theorem exec_invariant {I : τ → Prop} {Q : ρ → Prop}
    (hAgain : ∀ {t out t'}, I t → b.pass t = .again out t' → I t')
    (hLeave : ∀ {t out r}, I t → b.pass t = .leave out r → Q r) {t : τ} (h : I t) :
    Q (b.exec t).2 := by
  induction t using b.induct with
  | leave t out r hPass =>
    rw [b.exec_leave hPass]
    exact hLeave h hPass
  | again t out t' hPass ih =>
    rw [b.exec_again hPass]
    exact ih (hAgain h hPass)

/-- **Simulation**: when every pass, seen through an abstraction, is a pass of another loop, then
so is the whole run. -/
theorem exec_map {τ' ω' ρ' : Type*} (b : Body τ ω ρ) (b' : Body τ' ω' ρ') {state : τ → τ'}
    {event : ω → List ω'} {result : ρ → ρ'}
    (hPass : ∀ t, b'.pass (state t) = (b.pass t).map state event result) (t : τ) :
    b'.exec (state t) = ((b.exec t).1.flatMap event, result (b.exec t).2) := by
  induction t using b.induct with
  | leave t out r h =>
    have hAbstract := hPass t
    rw [h] at hAbstract
    rw [b.exec_leave h, b'.exec_leave hAbstract]
  | again t out t' h ih =>
    have hAbstract := hPass t
    rw [h] at hAbstract
    rw [b.exec_again h, b'.exec_again hAbstract, ih, List.flatMap_append]

end Body

end Loop
