import Mathlib.Data.Set.Insert
import Mathlib.Data.List.Induction

/-! Subscriptions of clients to topics as a relation, and runs of the actions on it.  A client is
subscribed to a topic when its latest action for the topic is a subscription that nothing has ended
since; what a broker in front of a single upstream has to pass on are the edges of a topic, where
its first subscriber comes and its last one goes. -/

namespace PubSub

variable {γ κ : Type*}

inductive Act (γ κ : Type*) where
  | sub (c : γ) (k : κ)
  | unsub (c : γ) (k : κ)
  | drop (c : γ)

/-- The action ends a subscription, if there is one. -/
def Act.Ends (c : γ) (k : κ) : Act γ κ → Prop
  | .sub .. => False
  | .unsub c' k' => c' = c ∧ k' = k
  | .drop c' => c' = c

/-- The subscriptions after an action. -/
def act (R : Set (γ × κ)) : Act γ κ → Set (γ × κ)
  | .sub c k => insert (c, k) R
  | .unsub c k => R \ {(c, k)}
  | .drop c => {p ∈ R | p.1 ≠ c}

def acts (R : Set (γ × κ)) (as : List (Act γ κ)) : Set (γ × κ) := as.foldl act R

@[simp] theorem acts_nil (R : Set (γ × κ)) : acts R [] = R := rfl

@[simp] theorem acts_cons (R : Set (γ × κ)) (a : Act γ κ) (as : List (Act γ κ)) :
    acts R (a :: as) = acts (act R a) as := rfl

theorem acts_append (R : Set (γ × κ)) (as bs : List (Act γ κ)) :
    acts R (as ++ bs) = acts (acts R as) bs := List.foldl_append

theorem mem_act {R : Set (γ × κ)} {a : Act γ κ} {c : γ} {k : κ} :
    (c, k) ∈ act R a ↔ a = .sub c k ∨ ((c, k) ∈ R ∧ ¬a.Ends c k) := by
  cases a with
  | sub c' k' =>
    simp only [act, Set.mem_insert_iff, Prod.mk.injEq, Act.sub.injEq, Act.Ends, not_false_eq_true,
      and_true, eq_comm]
  | unsub c' k' =>
    simp only [act, Set.mem_sdiff, Set.mem_singleton_iff, Prod.mk.injEq, Act.Ends, reduceCtorEq,
      false_or, eq_comm]
  | drop c' =>
    simp only [act, Set.mem_ofPred_eq, Act.Ends, ne_eq, reduceCtorEq, false_or, eq_comm]

theorem act_unsub_absent {R : Set (γ × κ)} {c : γ} {k : κ} (h : (c, k) ∉ R) :
    act R (.unsub c k) = R := by
  ext p
  constructor
  · exact fun hIn => hIn.1
  · intro hIn
    refine ⟨hIn, ?_⟩
    rintro rfl
    exact h hIn

/-- Ending all subscriptions of a client one by one is dropping it. -/
theorem acts_unsub_all {R : Set (γ × κ)} {c : γ} {ks : List κ} (h : ∀ k, (c, k) ∈ R → k ∈ ks) :
    acts R (ks.map (.unsub c)) = act R (.drop c) := by
  induction ks generalizing R with
  | nil =>
    ext ⟨c', k⟩
    rw [List.map_nil, acts_nil, mem_act]
    constructor
    · intro hIn
      refine .inr ⟨hIn, ?_⟩
      rintro rfl
      exact absurd (h k hIn) List.not_mem_nil
    · rintro (hNew | hOld)
      · cases hNew
      · exact hOld.1
  | cons k ks ih =>
    rw [List.map_cons, acts_cons, ih]
    · ext ⟨c', k'⟩
      simp only [mem_act, Act.Ends, reduceCtorEq, false_or]
      tauto
    · intro k' hIn
      obtain ⟨hOld, hNot⟩ := (mem_act.mp hIn).resolve_left (by simp)
      exact (List.mem_cons.mp (h k' hOld)).resolve_left fun hEq => hNot ⟨rfl, hEq.symm⟩

/-! ### The latest action decides -/

/-- The latest action of a client for a topic is a subscription. -/
def LatestIsSub (as : List (Act γ κ)) (c : γ) (k : κ) : Prop :=
  ∃ pre post, as = pre ++ .sub c k :: post ∧ ∀ a ∈ post, ¬a.Ends c k

theorem latestIsSub_concat {as : List (Act γ κ)} {a : Act γ κ} {c : γ} {k : κ} :
    LatestIsSub (as ++ [a]) c k ↔ a = .sub c k ∨ (LatestIsSub as c k ∧ ¬a.Ends c k) := by
  constructor
  · rintro ⟨pre, post, hSplit, hPost⟩
    rcases List.eq_nil_or_concat post with rfl | ⟨post', b, rfl⟩
    · obtain ⟨-, hLast⟩ := List.append_inj' hSplit rfl
      cases hLast
      exact .inl rfl
    · rw [List.concat_eq_append, ← List.cons_append, ← List.append_assoc] at hSplit
      obtain ⟨rfl, hLast⟩ := List.append_inj' hSplit rfl
      cases hLast
      exact .inr ⟨⟨pre, post', rfl, fun b hb => hPost b (by simp [hb])⟩,
        hPost a (by simp)⟩
  · rintro (rfl | ⟨⟨pre, post, rfl, hPost⟩, hLast⟩)
    · exact ⟨as, [], rfl, by simp⟩
    · refine ⟨pre, post ++ [a], by simp, ?_⟩
      intro b hb
      rcases List.mem_append.mp hb with hb | hb
      · exact hPost b hb
      · rw [List.mem_singleton.mp hb]
        exact hLast

/-- A client is subscribed after a run when its latest action for the topic is a subscription, or
when it was subscribed and nothing has ended that. -/
theorem mem_acts {R : Set (γ × κ)} {as : List (Act γ κ)} {c : γ} {k : κ} :
    (c, k) ∈ acts R as ↔ LatestIsSub as c k ∨ ((c, k) ∈ R ∧ ∀ a ∈ as, ¬a.Ends c k) := by
  induction as using List.reverseRecOn with
  | nil => simp [LatestIsSub]
  | append_singleton as a ih =>
    rw [acts_append, acts_cons, acts_nil, mem_act, ih, latestIsSub_concat]
    simp only [List.mem_append, List.mem_singleton, or_imp, forall_and, forall_eq]
    tauto

theorem mem_acts_empty {as : List (Act γ κ)} {c : γ} {k : κ} :
    (c, k) ∈ acts ∅ as ↔ LatestIsSub as c k := by
  rw [mem_acts]
  simp

/-! ### Edges -/

/-- A topic has a subscriber. -/
def Occupied (R : Set (γ × κ)) (k : κ) : Prop := ∃ c, (c, k) ∈ R

open Classical in
/-- The edge of a topic between two relations: whether it is occupied, where that changes. -/
noncomputable def edge (k : κ) (R R' : Set (γ × κ)) : List Bool :=
  if Occupied R k ↔ Occupied R' k then [] else [decide (Occupied R' k)]

/-- The edges of a topic in a run. -/
noncomputable def edges (k : κ) (R : Set (γ × κ)) : List (Act γ κ) → List Bool
  | [] => []
  | a :: as => edge k R (act R a) ++ edges k (act R a) as

theorem edge_self (k : κ) (R : Set (γ × κ)) : edge k R R = [] := if_pos Iff.rfl

theorem edge_of_iff {k : κ} {R R' : Set (γ × κ)} (h : Occupied R k ↔ Occupied R' k) :
    edge k R R' = [] := if_pos h

theorem edge_up {k : κ} {R R' : Set (γ × κ)} (h : ¬Occupied R k) (h' : Occupied R' k) :
    edge k R R' = [true] := by
  rw [edge, if_neg (fun hIff => h (hIff.mpr h'))]
  simp [h']

theorem edge_down {k : κ} {R R' : Set (γ × κ)} (h : Occupied R k) (h' : ¬Occupied R' k) :
    edge k R R' = [false] := by
  rw [edge, if_neg (fun hIff => h' (hIff.mp h))]
  simp [h']

theorem edges_append (k : κ) (R : Set (γ × κ)) (as bs : List (Act γ κ)) :
    edges k R (as ++ bs) = edges k R as ++ edges k (acts R as) bs := by
  induction as generalizing R with
  | nil => rfl
  | cons a as ih => rw [List.cons_append, edges, edges, ih, acts_cons, List.append_assoc]

theorem edges_singleton (k : κ) (R : Set (γ × κ)) (a : Act γ κ) :
    edges k R [a] = edge k R (act R a) := List.append_nil _

/-- The edges of a relation that only shrinks are the one from its first to its last value. -/
theorem edge_append {k : κ} {R R' R'' : Set (γ × κ)} (h : R' ⊆ R) (h' : R'' ⊆ R') :
    edge k R R' ++ edge k R' R'' = edge k R R'' := by
  have hOcc : Occupied R' k → Occupied R k := fun ⟨c, hc⟩ => ⟨c, h hc⟩
  have hOcc' : Occupied R'' k → Occupied R' k := fun ⟨c, hc⟩ => ⟨c, h' hc⟩
  by_cases hMid : Occupied R' k
  · rw [edge_of_iff (iff_of_true (hOcc hMid) hMid), List.nil_append]
    by_cases hLast : Occupied R'' k
    · rw [edge_of_iff (iff_of_true hMid hLast), edge_of_iff (iff_of_true (hOcc hMid) hLast)]
    · rw [edge_down hMid hLast, edge_down (hOcc hMid) hLast]
  · have hLast : ¬Occupied R'' k := fun hIn => hMid (hOcc' hIn)
    rw [edge_of_iff (iff_of_false hMid hLast), List.append_nil]
    by_cases hFirst : Occupied R k
    · rw [edge_down hFirst hMid, edge_down hFirst hLast]
    · rw [edge_of_iff (iff_of_false hFirst hMid), edge_of_iff (iff_of_false hFirst hLast)]

/-- The edges of ending all subscriptions of a client are the one of dropping it. -/
theorem edges_unsub_all {k : κ} {R : Set (γ × κ)} {c : γ} {ks : List κ}
    (h : ∀ k', (c, k') ∈ R → k' ∈ ks) :
    edges k R (ks.map (.unsub c)) = edge k R (act R (.drop c)) := by
  induction ks generalizing R with
  | nil =>
    have hSame := acts_unsub_all h
    rw [List.map_nil, acts_nil] at hSame
    rw [← hSame, edge_self]
    rfl
  | cons k' ks ih =>
    have hRest : ∀ k'', (c, k'') ∈ act R (.unsub c k') → k'' ∈ ks := by
      intro k'' hIn
      obtain ⟨hOld, hNot⟩ := (mem_act.mp hIn).resolve_left (by simp)
      exact (List.mem_cons.mp (h k'' hOld)).resolve_left fun hEq => hNot ⟨rfl, hEq.symm⟩
    have hSame : act (act R (.unsub c k')) (.drop c) = act R (.drop c) := by
      rw [← acts_unsub_all hRest, ← acts_unsub_all h]
      rfl
    rw [List.map_cons, edges, ih hRest, hSame, edge_append (fun p hp => hp.1)]
    rw [← hSame]
    exact fun p hp => hp.1

/-- The last edge, or without one the start, tells whether the topic is occupied. -/
theorem occupied_acts_iff {k : κ} {R : Set (γ × κ)} {as : List (Act γ κ)} :
    Occupied (acts R as) k ↔
      (edges k R as).getLast? = some true ∨ (edges k R as = [] ∧ Occupied R k) := by
  induction as using List.reverseRecOn with
  | nil => simp [edges]
  | append_singleton as a ih =>
    rw [edges_append, edges_singleton, acts_append, acts_cons, acts_nil]
    by_cases hIff : Occupied (acts R as) k ↔ Occupied (act (acts R as) a) k
    · rw [edge_of_iff hIff, List.append_nil, ← hIff, ih]
    · by_cases hNow : Occupied (act (acts R as) a) k
      · rw [edge_up (by tauto) hNow]
        simp [hNow]
      · rw [edge_down (by tauto) hNow]
        simp [hNow]

/-- From a topic without subscribers, it is occupied exactly when its last edge is upward. -/
theorem occupied_acts_iff_getLast {k : κ} {R : Set (γ × κ)} {as : List (Act γ κ)}
    (hStart : ¬Occupied R k) :
    Occupied (acts R as) k ↔ (edges k R as).getLast? = some true := by
  rw [occupied_acts_iff]
  simp [hStart]

end PubSub
