import DemoCode.WebSocket.Codec

/-! A stream fed to `ParseMsg` in chunks.  As long as no chunk but the last ends one byte into a
frame, the calls of the callback, how the last call ends and the caches after it are those of the
stream in one piece. -/

namespace DemoCode.WebSocket

/-- The bytes are whole accepted frames that the parser gets through, followed by the first byte of
another one. -/
def OneByteIn (limit : UInt32) (b : List UInt8) : Prop :=
  ∃ (fs : List (AcceptedFrame limit)) (x : UInt8), b = (frameCodec limit).encodeAll fs ++ [x] ∧
    (frameCodec limit).FitAll [] fs

/-- No chunk but the last ends right after the first byte of a frame. -/
def NoOneByteCut (limit : UInt32) (cs : List (List UInt8)) : Prop :=
  ∀ i < cs.length, ¬OneByteIn limit (cs.take i).flatten

theorem oneByteIn_of_drain {limit : UInt32} {d' b : List UInt8} {x : UInt8} {o : List Callback}
    (h : (frameCodec limit).drain [] b = (o, some (d', [x]))) : OneByteIn limit b := by
  obtain ⟨fs, hb, hFit, -, -⟩ := Codec.drain_split.mp h
  exact ⟨fs, x, hb, hFit⟩

/-- The decoder leaves one byte exactly on bytes that end one byte into a frame. -/
theorem oneByteIn_iff {limit : UInt32} {b : List UInt8} :
    OneByteIn limit b ↔
      (((frameCodec limit).drain [] b).2.map fun t => t.2.length) = some 1 := by
  constructor
  · rintro ⟨fs, x, rfl, hFit⟩
    have hMore : (frameCodec limit).next ((frameCodec limit).effects [] fs).1 [x] = .more := rfl
    rw [Codec.drain_encodeAll hFit, Decoder.drain_more hMore]
    rfl
  · intro h
    rcases hd : (frameCodec limit).drain [] b with ⟨o, _ | ⟨d', r⟩⟩
    · simp [hd] at h
    · simp only [hd, Option.map_some, Option.some.injEq] at h
      obtain ⟨x, rfl⟩ := List.length_eq_one_iff.mp h
      exact oneByteIn_of_drain hd

instance (limit : UInt32) (b : List UInt8) : Decidable (OneByteIn limit b) :=
  decidable_of_iff _ oneByteIn_iff.symm

instance (limit : UInt32) (cs : List (List UInt8)) : Decidable (NoOneByteCut limit cs) :=
  inferInstanceAs (Decidable (∀ i < cs.length, _))

/-- A rest of other than one byte stays in the caches. -/
theorem finish_some (limit : UInt32) (d : List UInt8) {r : List UInt8} (h : r.length ≠ 1) :
    (finish limit (some (d, r))).1 ≠ .returned (-2) ∧ (finish limit (some (d, r))).2 = ⟨r, d⟩ := by
  simp only [finish]
  rw [if_neg h]
  split
  · simp
  · split <;> simp

theorem parseChunks_cons (limit : UInt32) (p : Proto) (c : List UInt8) (cs : List (List UInt8)) :
    parseChunks limit p (c :: cs) =
      if (parseMsg limit p c).2.1 = .returned (-2) then
        ((parseMsg limit p c).1, [(parseMsg limit p c).2.1], (parseMsg limit p c).2.2)
      else
        ((parseMsg limit p c).1 ++ (parseChunks limit (parseMsg limit p c).2.2 cs).1,
          (parseMsg limit p c).2.1 :: (parseChunks limit (parseMsg limit p c).2.2 cs).2.1,
          (parseChunks limit (parseMsg limit p c).2.2 cs).2.2) := rfl

/-- Unless a call gives up, there is a call for every chunk. -/
theorem length_parseChunks {limit : UInt32} {p : Proto} {cs : List (List UInt8)}
    (h : .returned (-2) ∉ (parseChunks limit p cs).2.1) :
    (parseChunks limit p cs).2.1.length = cs.length := by
  induction cs generalizing p with
  | nil => rfl
  | cons c cs ih =>
    rw [parseChunks_cons] at h ⊢
    by_cases hRet : (parseMsg limit p c).2.1 = .returned (-2)
    · rw [if_pos hRet] at h
      exact absurd (List.mem_singleton.mpr hRet.symm) h
    · rw [if_neg hRet] at h ⊢
      have hTail := ih (fun hMem => h (List.mem_cons_of_mem _ hMem))
      rw [List.length_cons, List.length_cons, hTail]

/-- A run over the chunks of a stream feeds them to the decoder, from the state that the bytes `b` before
them left. -/
theorem parseChunks_eq {limit : UInt32} {b : List UInt8} {o : List Callback} {p : Proto}
    (hp : (frameCodec limit).drain [] b = (o, some (p.dataCache, p.pkgCache)))
    {cs : List (List UInt8)} (hcs : cs ≠ []) (hne : ∀ c ∈ cs, c ≠ [])
    (hCut : ∀ i, 0 < i → i < cs.length → ¬OneByteIn limit (b ++ (cs.take i).flatten)) :
    ∃ endings, .returned (-2) ∉ endings ∧
      parseChunks limit p cs =
        (((frameCodec limit).feed p.dataCache p.pkgCache cs).1,
          endings ++ [(finish limit ((frameCodec limit).feed p.dataCache p.pkgCache cs).2).1],
          (finish limit ((frameCodec limit).feed p.dataCache p.pkgCache cs).2).2) := by
  induction cs generalizing b o p with
  | nil => exact absurd rfl hcs
  | cons c cs ih =>
    rw [parseChunks_cons, parseMsg_eq limit p (hne c (by simp))]
    by_cases hLast : cs = []
    · subst hLast
      refine ⟨[], by simp, ?_⟩
      rw [Decoder.feed_singleton]
      simp only [parseChunks, List.append_nil, List.nil_append, ite_self]
    rw [Decoder.feed]
    have hLong : (frameCodec limit).drain [] (b ++ c) =
        (o ++ ((frameCodec limit).drain p.dataCache (p.pkgCache ++ c)).1,
          ((frameCodec limit).drain p.dataCache (p.pkgCache ++ c)).2) := by
      rw [Decoder.drain_append, hp, Decoder.Outcome.andThen_some]
    generalize (frameCodec limit).drain p.dataCache (p.pkgCache ++ c) = x at hLong ⊢
    obtain ⟨out, _ | ⟨d', r⟩⟩ := x
    · exact ⟨[], by simp, rfl⟩
    · have hOne : r.length ≠ 1 := by
        intro hOne
        obtain ⟨x, rfl⟩ := List.length_eq_one_iff.mp hOne
        have hLength := List.length_pos_iff.mpr hLast
        apply hCut 1 (by decide) (by simpa using hLength)
        simpa using oneByteIn_of_drain hLong
      obtain ⟨hRet, hNext⟩ := finish_some limit d' hOne
      obtain ⟨endings, hEndings, hRun⟩ := ih (p := ⟨r, d'⟩) hLong hLast
        (fun x hx => hne x (List.mem_cons_of_mem c hx))
        (fun i _ hi => by
          have := hCut (i + 1) (Nat.succ_pos i) (by simpa using hi)
          rwa [List.take_succ_cons, List.flatten_cons, ← List.append_assoc] at this)
      refine ⟨(finish limit (some (d', r))).1 :: endings, ?_, ?_⟩
      · simpa using ⟨Ne.symm hRet, hEndings⟩
      · rw [if_neg hRet, hNext, hRun]
        rfl

/-- A run over the chunks of a stream, from a fresh parser. -/
theorem parseChunks_fresh {limit : UInt32} {cs : List (List UInt8)} (hcs : cs ≠ [])
    (hne : ∀ c ∈ cs, c ≠ []) (hCut : NoOneByteCut limit cs) :
    ∃ endings, .returned (-2) ∉ endings ∧
      parseChunks limit .fresh cs =
        (((frameCodec limit).drain [] cs.flatten).1,
          endings ++ [(finish limit ((frameCodec limit).drain [] cs.flatten).2).1],
          (finish limit ((frameCodec limit).drain [] cs.flatten).2).2) := by
  have hMore : (frameCodec limit).next [] [] = .more := rfl
  have hFeed := Decoder.feed_eq hMore cs
  rw [List.nil_append] at hFeed
  rw [← hFeed]
  exact parseChunks_eq (b := []) (p := .fresh) (frameCodec_nil limit []) hcs hne
    fun i _ hi => hCut i hi

/-- A run over the chunks of encoded frames that fit. -/
theorem parseChunks_encodeAll {limit : UInt32} {fs : List (AcceptedFrame limit)}
    {cs : List (List UInt8)} (hFit : (frameCodec limit).FitAll [] fs)
    (hStream : cs.flatten = (frameCodec limit).encodeAll fs)
    (hne : ∀ c ∈ cs, c ≠ []) (hCut : NoOneByteCut limit cs) :
    ∃ endings, .returned (-2) ∉ endings ∧
      parseChunks limit .fresh cs = (((frameCodec limit).effects [] fs).2, endings,
        ⟨[], ((frameCodec limit).effects [] fs).1⟩) ∧
      endings.length = cs.length ∧ (cs ≠ [] → endings.getLast? = some (.returned 0)) := by
  by_cases hcs : cs = []
  · subst hcs
    cases fs with
    | nil => exact ⟨[], List.not_mem_nil, rfl, rfl, fun h => absurd rfl h⟩
    | cons f fs =>
      have hNil := (List.append_eq_nil_iff.mp hStream.symm).1
      exact absurd hNil (Codec.encode_ne hFit.1)
  obtain ⟨endings, hEndings, hRun⟩ := parseChunks_fresh hcs hne hCut
  have hDrain := Codec.drain_encodeAll hFit []
  rw [frameCodec_nil, List.append_nil, List.append_nil, ← hStream] at hDrain
  rw [hDrain] at hRun
  have hReturns : .returned (-2) ∉ (parseChunks limit .fresh cs).2.1 := by
    rw [hRun]
    simp [hEndings, finish, stuck, front]
  have hLength := length_parseChunks hReturns
  rw [hRun] at hReturns hLength
  exact ⟨_, hReturns, hRun, hLength, fun _ => by simp [finish, stuck, front]⟩

end DemoCode.WebSocket
