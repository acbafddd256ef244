import DemoCode.Lib.Loop

/-! Incremental decoders.  A decoder looks at the input buffered so far and either waits for more,
rejects the stream, or takes one item off the front.  Once it has decided, later input does not
change its mind; so a stream decodes to the same events however it is cut into chunks
(`feed_eq`).  A codec adds the items themselves, of which a state may leave some in the buffer, and
`drain_split` says what a buffer decodes to without running the decoder: the longest run of items at
its front that are taken. -/

/-- What a decoder makes of its buffer. -/
inductive Verdict (σ β : Type*) where
  | more
  | fail
  | item (size : Nat) (state : σ) (out : List β)

/-- A decoder of items from a stream of `α`, with state `σ` and events `β`. -/
structure Decoder (σ α β : Type*) where
  next : σ → List α → Verdict σ β
  size_pos : ∀ {s b n s' o}, next s b = .item n s' o → 0 < n
  size_le : ∀ {s b n s' o}, next s b = .item n s' o → n ≤ b.length
  stable : ∀ {s b} (c : List α), next s b ≠ .more → next s (b ++ c) = next s b

namespace Decoder

variable {σ α β : Type*}

/-- The events of decoding, and the state and the input left over unless the stream failed. -/
abbrev Outcome (σ α β : Type*) := List β × Option (σ × List α)

/-- Decode on from what an outcome left over. -/
def Outcome.andThen (x : Outcome σ α β) (k : σ → List α → Outcome σ α β) : Outcome σ α β :=
  match x.2 with
  | none => x
  | some (s, r) => (x.1 ++ (k s r).1, (k s r).2)

@[simp] theorem Outcome.andThen_none (o : List β) (k : σ → List α → Outcome σ α β) :
    Outcome.andThen (o, none) k = (o, none) := rfl

@[simp] theorem Outcome.andThen_some (o : List β) (s : σ) (r : List α)
    (k : σ → List α → Outcome σ α β) :
    Outcome.andThen (o, some (s, r)) k = (o ++ (k s r).1, (k s r).2) := rfl

variable (D : Decoder σ α β)

/-- Decoding as many items as the buffer holds. -/
def drainLoop : Loop.Body (σ × List α) β (Option (σ × List α)) where
  pass t :=
    match D.next t.1 t.2 with
    | .more => .leave [] (some t)
    | .fail => .leave [] none
    | .item n s' o => .again o (s', t.2.drop n)
  measure t := t.2.length
  lowers {t out t'} h := by
    revert h
    cases hv : D.next t.1 t.2 with
    | more => simp
    | fail => simp
    | item n s' o =>
      simp only [Loop.Pass.again.injEq, and_imp]
      rintro rfl rfl
      have := D.size_pos hv
      have := D.size_le hv
      simp only [List.length_drop]
      omega

/-- The events of a buffer, and what is left of it. -/
def drain (s : σ) (b : List α) : Outcome σ α β := D.drainLoop.exec (s, b)

variable {D}

theorem drain_more {s : σ} {b : List α} (h : D.next s b = .more) :
    D.drain s b = ([], some (s, b)) :=
  D.drainLoop.exec_leave (by simp [drainLoop, h])

theorem drain_fail {s : σ} {b : List α} (h : D.next s b = .fail) : D.drain s b = ([], none) :=
  D.drainLoop.exec_leave (by simp [drainLoop, h])

theorem drain_item {s s' : σ} {b : List α} {n : Nat} {o : List β}
    (h : D.next s b = .item n s' o) :
    D.drain s b = (o ++ (D.drain s' (b.drop n)).1, (D.drain s' (b.drop n)).2) :=
  D.drainLoop.exec_again (by simp [drainLoop, h])

/-- Induction along the items that a buffer decodes to. -/
theorem drain_induct {P : σ → List α → Prop} (more : ∀ s b, D.next s b = .more → P s b)
    (fail : ∀ s b, D.next s b = .fail → P s b)
    (item : ∀ s b n s' o, D.next s b = .item n s' o → P s' (b.drop n) → P s b)
    (s : σ) (b : List α) : P s b := by
  refine D.drainLoop.induct (P := fun t => P t.1 t.2) ?_ ?_ (s, b)
  · rintro ⟨s, b⟩ out r h
    cases hv : D.next s b with
    | more => exact more s b hv
    | fail => exact fail s b hv
    | item n s' o => simp [drainLoop, hv] at h
  · rintro ⟨s, b⟩ out t' h hP
    cases hv : D.next s b with
    | more => simp [drainLoop, hv] at h
    | fail => simp [drainLoop, hv] at h
    | item n s' o =>
      simp only [drainLoop, hv, Loop.Pass.again.injEq] at h
      obtain ⟨-, rfl⟩ := h
      exact item s b n s' o hv hP

/-- What is left over is a buffer on which the decoder waits. -/
theorem next_of_drain {s s' : σ} {b r : List α} {o : List β}
    (h : D.drain s b = (o, some (s', r))) : D.next s' r = .more := by
  induction s, b using drain_induct (D := D) generalizing o with
  | more s b hv =>
    rw [drain_more hv] at h
    simp only [Prod.mk.injEq, Option.some.injEq] at h
    obtain ⟨-, rfl, rfl⟩ := h
    exact hv
  | fail s b hv => simp [drain_fail hv] at h
  | item s b n s₁ o₁ hv ih =>
    rcases hd : D.drain s₁ (b.drop n) with ⟨o₂, x⟩
    rw [drain_item hv, hd] at h
    obtain ⟨-, rfl⟩ := Prod.mk.inj h
    exact ih hd

/-- Decoding a longer buffer is decoding its front and then going on. -/
theorem drain_append (s : σ) (b c : List α) :
    D.drain s (b ++ c) = (D.drain s b).andThen fun s' r => D.drain s' (r ++ c) := by
  induction s, b using drain_induct (D := D) with
  | more s b hv => simp [drain_more hv]
  | fail s b hv =>
    have hLong : D.next s (b ++ c) = .fail := by rw [D.stable c (by simp [hv]), hv]
    rw [drain_fail hv, drain_fail hLong, Outcome.andThen_none]
  | item s b n s₁ o hv ih =>
    have hLong : D.next s (b ++ c) = .item n s₁ o := by rw [D.stable c (by simp [hv]), hv]
    rw [drain_item hv, drain_item hLong, List.drop_append_of_le_length (D.size_le hv), ih]
    obtain ⟨o', _ | ⟨s', r⟩⟩ := D.drain s₁ (b.drop n)
    · rfl
    · simp

variable (D) in
/-- Decoding a stream as it arrives, chunk by chunk. -/
def feed (s : σ) (r : List α) : List (List α) → Outcome σ α β
  | [] => ([], some (s, r))
  | c :: cs => (D.drain s (r ++ c)).andThen fun s' r' => feed s' r' cs

theorem feed_singleton (s : σ) (r c : List α) : D.feed s r [c] = D.drain s (r ++ c) := by
  rw [feed]
  obtain ⟨o, _ | ⟨s', r'⟩⟩ := D.drain s (r ++ c)
  · rfl
  · simp [feed]

/-- **However a stream is cut into chunks, it decodes as it does in one piece.** -/
theorem feed_eq {s : σ} {r : List α} (hr : D.next s r = .more) (cs : List (List α)) :
    D.feed s r cs = D.drain s (r ++ cs.flatten) := by
  induction cs generalizing s r with
  | nil => simp [feed, drain_more hr]
  | cons c cs ih =>
    rw [List.flatten_cons, ← List.append_assoc, drain_append, feed]
    rcases hd : D.drain s (r ++ c) with ⟨o, _ | ⟨s', r'⟩⟩
    · rfl
    · simp only [Outcome.andThen_some, ih (next_of_drain hd)]

end Decoder

/-! ### Codecs -/

/-- A decoder together with the items it takes: the encoding of each item, the states that it is
taken in, and its effect on the state.  The decoder reads back whatever is encoded and fits, and
takes nothing else. -/
structure Codec (σ α β ι : Type*) extends Decoder σ α β where
  encode : ι → List α
  Fits : σ → ι → Prop
  effect : σ → ι → σ × List β
  reads : ∀ {s i} (rest), Fits s i →
    next s (encode i ++ rest) = .item (encode i).length (effect s i).1 (effect s i).2
  takes : ∀ {s b n s' o}, next s b = .item n s' o →
    ∃ i, b.take n = encode i ∧ Fits s i ∧ effect s i = (s', o)

namespace Codec

variable {σ α β ι : Type*} (C : Codec σ α β ι)

/-- The encoding of a list of items, one after the other. -/
def encodeAll (is : List ι) : List α := is.flatMap C.encode

/-- The effect of a list of items. -/
def effects (s : σ) : List ι → σ × List β
  | [] => (s, [])
  | i :: is => ((effects (C.effect s i).1 is).1, (C.effect s i).2 ++ (effects (C.effect s i).1 is).2)

/-- Every item of a list fits the state that the items before it lead to. -/
def FitAll (s : σ) : List ι → Prop
  | [] => True
  | i :: is => C.Fits s i ∧ FitAll (C.effect s i).1 is

variable {C}

@[simp] theorem encodeAll_nil : C.encodeAll [] = [] := rfl

@[simp] theorem encodeAll_cons (i : ι) (is : List ι) :
    C.encodeAll (i :: is) = C.encode i ++ C.encodeAll is := rfl

theorem effects_append (s : σ) (is js : List ι) :
    C.effects s (is ++ js) =
      ((C.effects (C.effects s is).1 js).1,
        (C.effects s is).2 ++ (C.effects (C.effects s is).1 js).2) := by
  induction is generalizing s with
  | nil => rfl
  | cons i is ih => simp [effects, ih]

theorem fitAll_append {s : σ} {is js : List ι} :
    C.FitAll s (is ++ js) ↔ C.FitAll s is ∧ C.FitAll (C.effects s is).1 js := by
  induction is generalizing s with
  | nil => simp [FitAll, effects]
  | cons i is ih => simp only [List.cons_append, FitAll, effects, ih, and_assoc]

/-- Of items that do not all fit, there is a first that does not. -/
theorem exists_not_fits {s : σ} {is : List ι} (h : ¬C.FitAll s is) :
    ∃ front i back, is = front ++ i :: back ∧ C.FitAll s front ∧
      ¬C.Fits (C.effects s front).1 i := by
  induction is generalizing s with
  | nil => exact absurd trivial h
  | cons i is ih =>
    by_cases hHead : C.Fits s i
    · obtain ⟨front, j, back, rfl, hFront, hNot⟩ := ih fun hTail => h ⟨hHead, hTail⟩
      exact ⟨i :: front, j, back, rfl, ⟨hHead, hFront⟩, hNot⟩
    · exact ⟨[], i, is, rfl, trivial, hHead⟩

/-- Encoded items that fit decode to their effects, and decoding goes on behind them. -/
theorem drain_encodeAll {s : σ} {is : List ι} (hFit : C.FitAll s is) (rest : List α) :
    C.drain s (C.encodeAll is ++ rest) =
      ((C.effects s is).2 ++ (C.drain (C.effects s is).1 rest).1,
        (C.drain (C.effects s is).1 rest).2) := by
  induction is generalizing s with
  | nil => simp [effects]
  | cons i is ih =>
    rw [encodeAll_cons, List.append_assoc, Decoder.drain_item (C.reads _ hFit.1),
      List.drop_left, ih hFit.2]
    simp [effects]

/-- **What a buffer decodes to**: it is a list of encoded items that fit, followed by what is left
over, on which the decoder waits. -/
theorem drain_split {s s' : σ} {b r : List α} {o : List β} :
    C.drain s b = (o, some (s', r)) ↔
      ∃ is, b = C.encodeAll is ++ r ∧ C.FitAll s is ∧ C.effects s is = (s', o) ∧
        C.next s' r = .more := by
  constructor
  · intro h
    have hMore := Decoder.next_of_drain h
    suffices ∃ is, b = C.encodeAll is ++ r ∧ C.FitAll s is ∧ C.effects s is = (s', o) by
      obtain ⟨is, hb, hFit, he⟩ := this
      exact ⟨is, hb, hFit, he, hMore⟩
    induction s, b using Decoder.drain_induct (D := C.toDecoder) generalizing o with
    | more s b hv =>
      rw [Decoder.drain_more hv] at h
      simp only [Prod.mk.injEq, Option.some.injEq] at h
      obtain ⟨rfl, rfl, rfl⟩ := h
      exact ⟨[], by simp, trivial, rfl⟩
    | fail s b hv => simp [Decoder.drain_fail hv] at h
    | item s b n s₁ o₁ hv ih =>
      obtain ⟨i, hTake, hHead, hEffect⟩ := C.takes hv
      rcases hd : C.drain s₁ (b.drop n) with ⟨o₂, x⟩
      rw [Decoder.drain_item hv, hd] at h
      simp only [Prod.mk.injEq] at h
      obtain ⟨rfl, rfl⟩ := h
      obtain ⟨is, hb, hFit, he⟩ := ih hd
      refine ⟨i :: is, ?_, ⟨hHead, ?_⟩, ?_⟩
      · rw [encodeAll_cons, List.append_assoc, ← hb, ← hTake, List.take_append_drop]
      · rw [hEffect]
        exact hFit
      · simp [effects, hEffect, he]
  · rintro ⟨is, rfl, hFit, he, hMore⟩
    rw [drain_encodeAll hFit, he, Decoder.drain_more hMore]
    simp

/-- What a buffer decodes to is the effect of items at its front. -/
theorem drain_front (s : σ) (b : List α) :
    ∃ is rest, b = C.encodeAll is ++ rest ∧ C.FitAll s is ∧
      (C.drain s b).1 = (C.effects s is).2 := by
  induction s, b using Decoder.drain_induct (D := C.toDecoder) with
  | more s b hv => exact ⟨[], b, rfl, trivial, by rw [Decoder.drain_more hv]; rfl⟩
  | fail s b hv => exact ⟨[], b, rfl, trivial, by rw [Decoder.drain_fail hv]; rfl⟩
  | item s b n s' o hv ih =>
    obtain ⟨i, hTake, hHead, hEffect⟩ := C.takes hv
    obtain ⟨is, rest, hb, hFit, hOut⟩ := ih
    refine ⟨i :: is, rest, ?_, ⟨hHead, ?_⟩, ?_⟩
    · rw [encodeAll_cons, List.append_assoc, ← hb, ← hTake, List.take_append_drop]
    · rw [hEffect]
      exact hFit
    · rw [Decoder.drain_item hv, effects, hEffect, hOut]

theorem encode_ne {s : σ} {i : ι} (h : C.Fits s i) : C.encode i ≠ [] := by
  have hPos := C.size_pos (C.reads [] h)
  exact List.length_pos_iff.mp hPos

/-- Encoded items at the front of encoded items, with more behind them, take up as much as the
first of those items do, when there is a state that all items fit. -/
theorem encodeAll_prefix {s : σ} (hAll : ∀ i, C.Fits s i) {is js : List ι} {t : List α} (ht : t ≠ [])
    (h : C.encodeAll is ++ t = C.encodeAll js) :
    ∃ n < js.length, C.encodeAll is = C.encodeAll (js.take n) := by
  induction is generalizing js with
  | nil =>
    cases js with
    | nil => exact absurd h ht
    | cons j js => exact ⟨0, by simp, rfl⟩
  | cons i is ih =>
    cases js with
    | nil =>
      rw [encodeAll_cons, encodeAll_nil, List.append_assoc, List.append_eq_nil_iff] at h
      exact absurd h.1 (C.encode_ne (hAll i))
    | cons j js =>
      rw [encodeAll_cons, encodeAll_cons, List.append_assoc] at h
      have hi := C.reads (C.encodeAll is ++ t) (hAll i)
      rw [h, C.reads _ (hAll j)] at hi
      obtain ⟨hHead, hTail⟩ := List.append_inj h.symm (by injection hi)
      obtain ⟨n, hn, hSame⟩ := ih hTail.symm
      refine ⟨n + 1, by simpa using hn, ?_⟩
      rw [List.take_succ_cons, encodeAll_cons, encodeAll_cons, hSame, hHead]

end Codec
