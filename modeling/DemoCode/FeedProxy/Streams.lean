import Mathlib.Data.List.Induction
import DemoCode.FeedProxy.FrameReader

/-! Runs of `OnLevReadDone` over the read events of several connections, which share one
reassembly buffer: when reading is safe, what a framed stream gives back, and when the streams are
read as if each were alone. -/

namespace DemoCode.FeedProxy

/-- The read events, in the order in which they are delivered, up to the first that faults. -/
def readEvents (env : Env) (s : ConvertService) :
    List (CContext × RecvData) → List (CContext × ReadStep) × Except Fault ConvertService
  | [] => ([], .ok s)
  | (conn, recvData) :: evs =>
    let steps := (onLevReadDone env s conn recvData).1.map fun x => (conn, x)
    match (onLevReadDone env s conn recvData).2 with
    | .error fault => (steps, .error fault)
    | .ok s' => (steps ++ (readEvents env s' evs).1, (readEvents env s' evs).2)

/-- The same, as far as it depends on the bytes. -/
def bytesEvents (env : Env) (b : List UInt8) :
    List (CContext × RecvData) → List (CContext × ReadStep) × Except Fault (List UInt8)
  | [] => ([], .ok b)
  | (conn, recvData) :: evs =>
    let steps := (readBytes env b recvData).1.map fun x => (conn, x)
    match (readBytes env b recvData).2 with
    | .error fault => (steps, .error fault)
    | .ok b' => (steps ++ (bytesEvents env b' evs).1, (bytesEvents env b' evs).2)

def readingOf (x : CContext × ReadStep) : List (CContext × ReadStep) :=
  x.2.reading.map fun y => (x.1, y)

theorem flatMap_readingOf (conn : CContext) (steps : List ReadStep) :
    (steps.map fun x => (conn, x)).flatMap readingOf =
      (steps.flatMap ReadStep.reading).map fun x => (conn, x) := by
  rw [List.flatMap_map, List.map_flatMap]
  rfl

theorem readEvents_eq (env : Env) (s : ConvertService) (evs : List (CContext × RecvData)) :
    bytesEvents env s.lastMsg evs =
      ((readEvents env s evs).1.flatMap readingOf,
        (readEvents env s evs).2.map ConvertService.lastMsg) := by
  induction evs generalizing s with
  | nil => rfl
  | cons ev evs ih =>
    obtain ⟨conn, recvData⟩ := ev
    have hOne := onLevReadDone_eq env s conn recvData
    simp only [bytesEvents, readEvents, hOne]
    cases (onLevReadDone env s conn recvData).2 with
    | error fault => simp only [Except.map, flatMap_readingOf]
    | ok s' =>
      simp only [Except.map, ih, List.flatMap_append, flatMap_readingOf]

theorem bytesEvents_append (env : Env) (b : List UInt8) (evs evs' : List (CContext × RecvData)) :
    bytesEvents env b (evs ++ evs') =
      match (bytesEvents env b evs).2 with
      | .error fault => ((bytesEvents env b evs).1, .error fault)
      | .ok b' => ((bytesEvents env b evs).1 ++ (bytesEvents env b' evs').1,
          (bytesEvents env b' evs').2) := by
  induction evs generalizing b with
  | nil => rfl
  | cons ev evs ih =>
    obtain ⟨conn, recvData⟩ := ev
    simp only [List.cons_append, bytesEvents]
    cases (readBytes env b recvData).2 with
    | error fault => rfl
    | ok b' =>
      simp only [ih b']
      cases (bytesEvents env b' evs).2 with
      | error fault => rfl
      | ok b'' => simp

/-! ### Safety -/

/-- A header is read from at least its length, and a body lies in the buffer. -/
def ReadStep.Safe : ReadStep → Prop
  | .header buffered => commonHdrLen ≤ buffered
  | .body buffered dataLen => 0 ≤ dataLen ∧ commonHdrLen + dataLen ≤ buffered
  | _ => True

/-- Behind accepted frames there is a header whose length, as an `int`, is from -16 to -1. -/
def BadHeader (env : Env) (b : List UInt8) : Prop :=
  ∃ (fs : List (ReqFrame env)) (rest : List UInt8),
    b = (reqCodec env).encodeAll fs ++ rest ∧ commonHdrLen ≤ rest.length ∧
      2 ^ 32 - commonHdrLen ≤ (CommonHdr.read rest).dataLen.toNat

theorem ReqFrame.encode_append_inj {env : Env} {f g : ReqFrame env} {r r' : List UInt8}
    (h : f.encode ++ r = g.encode ++ r') : f.encode = g.encode ∧ r = r' := by
  have hf := reqFrameVerdict_encode f r
  rw [h, reqFrameVerdict_encode g r'] at hf
  exact List.append_inj h (by injection hf with hLength; exact hLength.symm)

theorem badHeader_append {env : Env} (f : ReqFrame env) {rest : List UInt8} :
    BadHeader env (f.encode ++ rest) ↔ BadHeader env rest := by
  constructor
  · rintro ⟨fs, r, hb, hHead, hLen⟩
    cases fs with
    | nil =>
      rw [Codec.encodeAll_nil, List.nil_append] at hb
      have hRead : CommonHdr.read r = f.hdr := by
        rw [← hb, ReqFrame.encode, List.append_assoc]
        exact CommonHdr.read_encode _ _
      have hFits := f.fits
      have hStated := f.length
      rw [hRead] at hLen
      unfold commonHdrLen at hLen hFits
      omega
    | cons g fs =>
      rw [Codec.encodeAll_cons, List.append_assoc] at hb
      obtain ⟨-, hRest⟩ := ReqFrame.encode_append_inj (g := g) hb
      exact ⟨fs, r, hRest, hHead, hLen⟩
  · rintro ⟨fs, r, rfl, hHead, hLen⟩
    exact ⟨f :: fs, r, by rw [Codec.encodeAll_cons, List.append_assoc]; rfl, hHead, hLen⟩

theorem not_badHeader_short {env : Env} {b : List UInt8} (h : b.length < commonHdrLen) :
    ¬BadHeader env b := by
  rintro ⟨fs, r, rfl, hHead, -⟩
  rw [List.length_append] at h
  omega

theorem reqFrameVerdict_bad {env : Env} {b : List UInt8} (hHead : commonHdrLen ≤ b.length)
    (hLen : 2 ^ 32 - commonHdrLen ≤ (CommonHdr.read b).dataLen.toNat) :
    reqFrameVerdict env b = .fail := by
  have hLt := (CommonHdr.read b).dataLen.toNat_lt
  have hInt := CommonHdr.intLen_large (h := CommonHdr.read b)
    (by unfold commonHdrLen at hLen; omega)
  unfold commonHdrLen at hLen
  unfold reqFrameVerdict
  dsimp only
  rw [hInt, if_neg (by omega), if_neg (by unfold commonHdrLen; omega), if_pos (by omega)]

/-- Without an accepted frame at the front, a bad header can only be the first. -/
theorem badHeader_front {env : Env} {b : List UInt8}
    (h : ∀ n u o, reqFrameVerdict env b ≠ .item n u o) (hBad : BadHeader env b) :
    2 ^ 32 - commonHdrLen ≤ (CommonHdr.read b).dataLen.toNat := by
  obtain ⟨fs, r, rfl, hHead, hLen⟩ := hBad
  cases fs with
  | nil => exact hLen
  | cons f fs =>
    rw [Codec.encodeAll_cons, List.append_assoc] at h
    exact absurd (reqFrameVerdict_encode f _) (h _ _ _)

theorem ReqFrame.steps_safe {env : Env} (f : ReqFrame env) {size : Nat}
    (h : f.encode.length ≤ size) : ∀ x ∈ f.steps size, x.Safe := by
  rw [f.length_encode] at h
  intro x hx
  simp only [ReqFrame.steps, List.mem_cons, List.not_mem_nil, or_false] at hx
  rcases hx with rfl | rfl | rfl
  · show commonHdrLen ≤ size
    omega
  · exact ⟨by omega, by omega⟩
  · trivial

/-- Induction along the accepted frames of a buffer. -/
theorem frames_induct (env : Env) {P : List UInt8 → Prop}
    (more : ∀ b, reqFrameVerdict env b = .more → P b)
    (fail : ∀ b, reqFrameVerdict env b = .fail → P b)
    (item : ∀ (f : ReqFrame env) rest, P rest → P (f.encode ++ rest)) (b : List UInt8) : P b := by
  refine Decoder.drain_induct (D := (reqCodec env).toDecoder) (P := fun _ b => P b)
    (fun _ b h => more b h) (fun _ b h => fail b h) ?_ () b
  intro _ b n u o h ih
  obtain ⟨f, hTake, hLength, -⟩ := reqFrameVerdict_item h
  rw [← List.take_append_drop n b, hTake]
  exact item f _ ih

/-- Reading a buffer is safe exactly when it holds a header and no bad header is reached. -/
theorem bytesLoop_safe {env : Env} (b : List UInt8) (hMax : b.length ≤ stringMaxSize) :
    (∀ x ∈ ((bytesLoop env).exec b).1, x.Safe) ↔ commonHdrLen ≤ b.length ∧ ¬BadHeader env b := by
  by_cases hShort : b.length < commonHdrLen
  · rw [bytesLoop_leave (bytesPass_short hShort)]
    simp only [List.forall_mem_singleton, ReadStep.Safe]
    exact ⟨fun h => absurd h (by omega), fun h => h.1⟩
  have hHead : commonHdrLen ≤ b.length := by omega
  rw [and_iff_right hHead]
  induction b using frames_induct env with
  | more b hv =>
    rw [bytesLoop_leave (bytesPass_more hHead hMax hv)]
    apply iff_of_true
    · rw [List.forall_mem_singleton]
      exact hHead
    · intro hBad
      have hLen := badHeader_front (by rw [hv]; intro n u o h; cases h) hBad
      rw [reqFrameVerdict_bad hHead hLen] at hv
      cases hv
  | fail b hv =>
    have hFront : ∀ n u o, reqFrameVerdict env b ≠ .item n u o := by
      rw [hv]
      intro n u o h
      cases h
    rcases bytesPass_fail hHead hMax hv with
      ⟨d, hNeg, hPass, hLen⟩ | ⟨dataLen, reqStr, r, hPass, hLen, hSmall, hBody⟩
    · rw [bytesLoop_leave hPass]
      refine iff_of_false ?_ (fun h => h ⟨[], b, rfl, hHead, hLen⟩)
      intro h
      have hSafe := (h (.body b.length d) (by simp)).1
      omega
    · rw [bytesLoop_leave hPass]
      apply iff_of_true
      · intro x hx
        simp only [List.mem_cons, List.not_mem_nil, or_false] at hx
        rcases hx with rfl | rfl | rfl
        · exact hHead
        · exact ⟨by omega, by omega⟩
        · trivial
      · intro hBad
        have hStated := badHeader_front hFront hBad
        unfold commonHdrLen at hStated
        omega
  | item f rest ih =>
    have hRest : rest.length ≤ stringMaxSize := by
      rw [List.length_append] at hMax
      omega
    have hSize : f.encode.length ≤ (f.encode ++ rest).length := by simp
    have hSteps := f.steps_safe hSize
    rw [badHeader_append]
    have hPass := bytesPass_item f hMax
    by_cases hLess : rest.length < commonHdrLen
    · rw [if_pos hLess] at hPass
      rw [bytesLoop_leave hPass]
      exact iff_of_true hSteps (not_badHeader_short hLess)
    · rw [if_neg hLess] at hPass
      rw [bytesLoop_again hPass, List.forall_mem_append, and_iff_right hSteps]
      exact ih hRest hLess (by omega)

theorem readBytes_safe {env : Env} (b : List UInt8) (recvData : RecvData) :
    (∀ x ∈ (readBytes env b recvData).1, x.Safe) ↔
      ((b ++ recvData.val).length ≤ stringMaxSize →
        commonHdrLen ≤ (b ++ recvData.val).length ∧ ¬BadHeader env (b ++ recvData.val)) := by
  unfold readBytes
  by_cases hMax : stringMaxSize < (b ++ recvData.val).length
  · rw [if_pos hMax]
    exact iff_of_true (fun x hx => absurd hx List.not_mem_nil) (fun h => absurd hMax (by omega))
  · rw [if_neg hMax, bytesLoop_safe _ (by omega)]
    exact ⟨fun h _ => h, fun h => h (by omega)⟩

/-- The run over the events before the last of a list. -/
theorem bytesEvents_cons_ok {env : Env} {b b' : List UInt8} {conn : CContext}
    {recvData : RecvData} {evs : List (CContext × RecvData)} :
    (bytesEvents env b ((conn, recvData) :: evs)).2 = .ok b' ↔
      ∃ b₁, (readBytes env b recvData).2 = .ok b₁ ∧ (bytesEvents env b₁ evs).2 = .ok b' := by
  simp only [bytesEvents]
  cases (readBytes env b recvData).2 with
  | error fault => simp
  | ok b₁ => simp

/-- A property that every event of a run has from the buffer before it. -/
theorem bytesEvents_forall {env : Env} {P : List UInt8 → CContext × RecvData → Prop}
    {b : List UInt8} {conn : CContext} {recvData : RecvData} {evs : List (CContext × RecvData)} :
    (∀ pre ev post b', (conn, recvData) :: evs = pre ++ ev :: post →
        (bytesEvents env b pre).2 = .ok b' → P b' ev) ↔
      P b (conn, recvData) ∧ ∀ b₁, (readBytes env b recvData).2 = .ok b₁ →
        ∀ pre ev post b', evs = pre ++ ev :: post → (bytesEvents env b₁ pre).2 = .ok b' → P b' ev := by
  constructor
  · intro h
    refine ⟨h [] _ evs b rfl rfl, fun b₁ hOk pre ev post b' hSplit hPre => ?_⟩
    apply h ((conn, recvData) :: pre) ev post b' (by rw [hSplit]; rfl)
    exact bytesEvents_cons_ok.mpr ⟨b₁, hOk, hPre⟩
  · rintro ⟨hFirst, hRest⟩ pre ev post b' hSplit hPre
    cases pre with
    | nil =>
      obtain ⟨rfl, -⟩ := List.cons.inj hSplit
      cases hPre
      exact hFirst
    | cons x pre =>
      obtain ⟨rfl, hTail⟩ := List.cons.inj hSplit
      obtain ⟨b₁, hOk, hRun⟩ := bytesEvents_cons_ok.mp hPre
      exact hRest b₁ hOk pre ev post b' hTail hRun

theorem bytesEvents_safe (env : Env) (b : List UInt8) (evs : List (CContext × RecvData)) :
    (∀ x ∈ (bytesEvents env b evs).1, x.2.Safe) ↔
      ∀ pre ev post b', evs = pre ++ ev :: post → (bytesEvents env b pre).2 = .ok b' →
        (b' ++ ev.2.val).length ≤ stringMaxSize →
          commonHdrLen ≤ (b' ++ ev.2.val).length ∧ ¬BadHeader env (b' ++ ev.2.val) := by
  induction evs generalizing b with
  | nil =>
    apply iff_of_true (fun x hx => absurd hx List.not_mem_nil)
    intro pre ev post b' hSplit
    exact absurd hSplit (by simp)
  | cons ev evs ih =>
    obtain ⟨conn, recvData⟩ := ev
    rw [bytesEvents_forall, ← readBytes_safe]
    have hSteps : (∀ x ∈ (readBytes env b recvData).1.map fun x => (conn, x), x.2.Safe) ↔
        ∀ x ∈ (readBytes env b recvData).1, x.Safe := by simp
    simp only [bytesEvents]
    cases (readBytes env b recvData).2 with
    | error fault =>
      rw [hSteps]
      exact ⟨fun h => ⟨h, fun b₁ hOk => absurd hOk (by simp)⟩, fun h => h.1⟩
    | ok b₁ =>
      rw [List.forall_mem_append, hSteps, ih b₁]
      refine and_congr_right fun _ => ⟨fun h b₂ hOk => ?_, fun h => h b₁ rfl⟩
      cases hOk
      exact h

theorem safe_reading {xs : List (CContext × ReadStep)} :
    (∀ x ∈ xs.flatMap readingOf, x.2.Safe) ↔ ∀ x ∈ xs, x.2.Safe := by
  have hOne : ∀ x : CContext × ReadStep, (∀ y ∈ readingOf x, y.2.Safe) ↔ x.2.Safe := by
    rintro ⟨conn, x⟩
    cases x <;> simp [readingOf, ReadStep.reading, ReadStep.Safe]
  simp only [List.forall_mem_flatMap, hOne]

theorem readEvents_ok {env : Env} {s : ConvertService} {evs : List (CContext × RecvData)}
    {b : List UInt8} :
    (bytesEvents env s.lastMsg evs).2 = .ok b ↔
      ∃ s', (readEvents env s evs).2 = .ok s' ∧ s'.lastMsg = b := by
  rw [readEvents_eq]
  cases (readEvents env s evs).2 <;> simp [Except.map]

/-- **Reading is safe**, every header and every body within the buffer and no length negative,
exactly when at every event the buffer with the new bytes holds a header, and no header is reached
whose length is from 2^32 - 16 on. -/
theorem onLevReadDone_safe (env : Env) (s : ConvertService) (evs : List (CContext × RecvData)) :
    (∀ x ∈ (readEvents env s evs).1, x.2.Safe) ↔
      ∀ pre ev post s', evs = pre ++ ev :: post → (readEvents env s pre).2 = .ok s' →
        (s'.lastMsg ++ ev.2.val).length ≤ stringMaxSize →
          commonHdrLen ≤ (s'.lastMsg ++ ev.2.val).length ∧
            ¬BadHeader env (s'.lastMsg ++ ev.2.val) := by
  have hBytes := bytesEvents_safe env s.lastMsg evs
  rw [readEvents_eq, safe_reading] at hBytes
  rw [hBytes]
  constructor
  · intro h pre ev post s' hSplit hPre
    exact h pre ev post s'.lastMsg hSplit (readEvents_ok.mpr ⟨s', hPre, rfl⟩)
  · intro h pre ev post b' hSplit hPre
    obtain ⟨s', hRun, rfl⟩ := readEvents_ok.mp hPre
    exact h pre ev post s' hSplit hRun

/-- A header that states a length of 2^32 - 1 makes a body of length -1. -/
theorem onLevReadDone_unsafe :
    ¬∀ (env : Env) (s : ConvertService) (evs : List (CContext × RecvData)), s.lastMsg = [] →
      ∀ x ∈ (readEvents env s evs).1, x.2.Safe := by
  intro h
  have hBody := h deafEnv {}
    [(1, ⟨[0xEF, 0, 0, 0xFF, 0xFF, 0xFF, 0xFF, 0, 0, 0, 0, 0, 0, 0, 0, 0xCD], by decide⟩)] rfl
    (1, .body 16 (-1)) (by decide)
  exact absurd hBody.1 (by decide)

/-! ### Framed streams -/

/-- The payloads handed to `ProcessReq`, each with its connection. -/
def requests (steps : List (CContext × ReadStep)) : List (CContext × List UInt8) :=
  steps.filterMap fun x =>
    match x.2 with
    | .request reqStr => some (x.1, reqStr)
    | _ => none

@[simp] theorem requests_append (xs ys : List (CContext × ReadStep)) :
    requests (xs ++ ys) = requests xs ++ requests ys := List.filterMap_append

theorem requests_reading (steps : List (CContext × ReadStep)) :
    requests (steps.flatMap readingOf) = requests steps := by
  induction steps with
  | nil => rfl
  | cons x steps ih =>
    obtain ⟨conn, x⟩ := x
    rw [List.flatMap_cons, requests_append, ih]
    cases x <;> rfl

theorem requests_steps {env : Env} (f : ReqFrame env) (size : Nat) (conn : CContext) :
    requests ((f.steps size).map fun x => (conn, x)) = [(conn, f.payload)] := rfl

theorem drain_frame {env : Env} (f : ReqFrame env) (rest : List UInt8) :
    (reqCodec env).drain () (f.encode ++ rest) =
      (f.payload :: ((reqCodec env).drain () rest).1, ((reqCodec env).drain () rest).2) := by
  have hFit : (reqCodec env).FitAll () [f] := ⟨trivial, trivial⟩
  have hOne := Codec.drain_encodeAll hFit rest
  rw [Codec.encodeAll_cons, Codec.encodeAll_nil, List.append_nil] at hOne
  exact hOne

/-- A buffer that the decoder does not give up on is read as the decoder reads it. -/
theorem bytesLoop_drain {env : Env} {b r : List UInt8} {o : List (List UInt8)}
    (hHead : commonHdrLen ≤ b.length) (hMax : b.length ≤ stringMaxSize)
    (h : (reqCodec env).drain () b = (o, some ((), r))) (conn : CContext) :
    requests (((bytesLoop env).exec b).1.map fun x => (conn, x)) = o.map (fun p => (conn, p)) ∧
      ((bytesLoop env).exec b).2 = .ok r := by
  induction b using frames_induct env generalizing o with
  | more b hv =>
    rw [Decoder.drain_more hv] at h
    cases h
    rw [bytesLoop_leave (bytesPass_more hHead hMax hv)]
    exact ⟨rfl, rfl⟩
  | fail b hv =>
    rw [Decoder.drain_fail hv] at h
    cases h
  | item f rest ih =>
    rw [drain_frame] at h
    rcases hRest : (reqCodec env).drain () rest with ⟨o', x⟩
    rw [hRest] at h
    obtain ⟨rfl, rfl⟩ := Prod.mk.inj h
    have hPass := bytesPass_item f hMax
    by_cases hLess : rest.length < commonHdrLen
    · rw [if_pos hLess] at hPass
      have hMore : (reqCodec env).next () rest = .more := by
        show reqFrameVerdict env rest = .more
        unfold reqFrameVerdict
        rw [if_pos hLess]
      rw [Decoder.drain_more hMore] at hRest
      cases hRest
      rw [bytesLoop_leave hPass]
      exact ⟨rfl, rfl⟩
    · rw [if_neg hLess] at hPass
      rw [List.length_append] at hMax
      obtain ⟨hReqs, hEnd⟩ := ih (by omega) (by omega) hRest
      rw [bytesLoop_again hPass, List.map_append, requests_append, requests_steps, hReqs]
      exact ⟨rfl, hEnd⟩

/-- What is left over of a stream of frames is less than a frame. -/
theorem leftover_length {env : Env} {r t : List UInt8} {o : List (List UInt8)}
    (hMore : reqFrameVerdict env r = .more)
    (h : (reqCodec env).drain () (r ++ t) = (o, some ((), []))) : r.length < 2 ^ 31 := by
  obtain ⟨fs, hStream, -, -, -⟩ := Codec.drain_split.mp h
  rw [List.append_nil] at hStream
  cases fs with
  | nil =>
    rw [(List.append_eq_nil_iff.mp hStream).1]
    decide
  | cons f fs =>
    have hFits := f.fits
    by_contra hLong
    have hLess : f.encode.length ≤ r.length := by
      rw [f.length_encode]
      omega
    obtain ⟨r', rfl⟩ : f.encode <+: r :=
      List.prefix_of_prefix_length_le ⟨_, hStream.symm⟩ ⟨t, rfl⟩ hLess
    rw [reqFrameVerdict_encode] at hMore
    cases hMore

/-- The read events of a stream of frames. -/
theorem bytesEvents_drain {env : Env} {conn : CContext} {b : List UInt8} {o : List (List UInt8)}
    {chunks : List RecvData} (hMore : reqFrameVerdict env b = .more)
    (hDrain : (reqCodec env).drain () (b ++ (chunks.map Subtype.val).flatten) =
      (o, some ((), [])))
    (hCut : ∀ pre ev post b', (chunks.map fun c => (conn, c)) = pre ++ ev :: post →
      (bytesEvents env b pre).2 = .ok b' → commonHdrLen ≤ (b' ++ ev.2.val).length) :
    requests (bytesEvents env b (chunks.map fun c => (conn, c))).1 = o.map (fun p => (conn, p)) ∧
      (bytesEvents env b (chunks.map fun c => (conn, c))).2 = .ok [] := by
  induction chunks generalizing b o with
  | nil =>
    rw [List.map_nil, List.flatten_nil, List.append_nil, Decoder.drain_more hMore] at hDrain
    cases hDrain
    exact ⟨rfl, rfl⟩
  | cons c chunks ih =>
    obtain ⟨hHead, hRest⟩ := bytesEvents_forall.mp hCut
    have hLength := leftover_length hMore hDrain
    have hMax : (b ++ c.val).length ≤ stringMaxSize := by
      have hChunk := c.property
      rw [List.length_append, stringMaxSize]
      omega
    have hRead : readBytes env b c = (bytesLoop env).exec (b ++ c.val) :=
      if_neg (Nat.not_lt.mpr hMax)
    rw [List.map_cons, List.flatten_cons, ← List.append_assoc, Decoder.drain_append] at hDrain
    rcases hFirst : (reqCodec env).drain () (b ++ c.val) with ⟨o₁, _ | ⟨_, r⟩⟩
    · rw [hFirst] at hDrain
      cases hDrain
    obtain ⟨hReqs, hEnd⟩ := bytesLoop_drain hHead hMax hFirst conn
    rw [← hRead] at hReqs hEnd
    rw [hFirst, Decoder.Outcome.andThen_some] at hDrain
    rcases hSecond : (reqCodec env).drain () (r ++ (chunks.map Subtype.val).flatten) with ⟨o₂, x⟩
    rw [hSecond] at hDrain
    obtain ⟨rfl, rfl⟩ := Prod.mk.inj hDrain
    obtain ⟨hReqs', hEnd'⟩ := ih (Decoder.next_of_drain hFirst) hSecond (hRest r hEnd)
    simp only [List.map_cons, bytesEvents, hEnd, requests_append, hReqs, hReqs', hEnd',
      List.map_append, and_self]

/-- An accepted payload behind its header. -/
def packFrame {env : Env} {payload : List UInt8} (hLength : payload.length < 2 ^ 31 - 16)
    (hAccepted : Accepted env payload) : ReqFrame env where
  hdr := { dataLen := UInt32.ofNat payload.length }
  payload
  length := UInt32.toNat_ofNat_of_lt' (by simp only [UInt32.size]; omega)
  fits := by
    unfold commonHdrLen
    omega
  accepted := accepted_iff.mp hAccepted

/-- Packed payloads decode to themselves. -/
theorem drain_packMsg {env : Env} {payloads : List (List UInt8)}
    (hLength : ∀ p ∈ payloads, p.length < 2 ^ 31 - 16) (hAccepted : ∀ p ∈ payloads, Accepted env p) :
    (reqCodec env).drain () (payloads.map packMsg).flatten = (payloads, some ((), [])) := by
  induction payloads with
  | nil => exact Decoder.drain_more rfl
  | cons p payloads ih =>
    have hRest := ih (fun q hq => hLength q (by simp [hq])) fun q hq => hAccepted q (by simp [hq])
    have hFirst := drain_frame (packFrame (hLength p (by simp)) (hAccepted p (by simp)))
      (payloads.map packMsg).flatten
    rw [hRest] at hFirst
    exact hFirst

/-- **Framing round trip**: accepted payloads, packed, and cut so that at every event the buffer
with the new bytes holds a header, are handed to `ProcessReq` unchanged and in order, and nothing
is left over. -/
theorem packMsg_onLevReadDone {env : Env} {s : ConvertService} {conn : CContext}
    {payloads : List (List UInt8)} {chunks : List RecvData} (hStart : s.lastMsg = [])
    (hLength : ∀ p ∈ payloads, p.length < 2 ^ 31 - 16) (hAccepted : ∀ p ∈ payloads, Accepted env p)
    (hStream : (chunks.map Subtype.val).flatten = (payloads.map packMsg).flatten)
    (hCut : ∀ pre ev post s', (chunks.map fun c => (conn, c)) = pre ++ ev :: post →
      (readEvents env s pre).2 = .ok s' → 16 ≤ (s'.lastMsg ++ ev.2.val).length) :
    ∃ s', (readEvents env s (chunks.map fun c => (conn, c))).2 = .ok s' ∧ s'.lastMsg = [] ∧
      requests (readEvents env s (chunks.map fun c => (conn, c))).1 =
        payloads.map fun p => (conn, p) := by
  have hDrain := drain_packMsg hLength hAccepted
  have hMore : reqFrameVerdict env s.lastMsg = .more := by
    rw [hStart]
    rfl
  have hWhole : (reqCodec env).drain () (s.lastMsg ++ (chunks.map Subtype.val).flatten) =
      (payloads, some ((), [])) := by rw [hStart, List.nil_append, hStream, hDrain]
  obtain ⟨hReqs, hEnd⟩ := bytesEvents_drain hMore hWhole fun pre ev post b' hSplit hPre => by
    obtain ⟨s', hRun, rfl⟩ := readEvents_ok.mp hPre
    exact hCut pre ev post s' hSplit hRun
  obtain ⟨s', hRun, hLast⟩ := readEvents_ok.mp hEnd
  rw [readEvents_eq, requests_reading] at hReqs
  exact ⟨s', hRun, hLast, hReqs⟩

/-- The carrier of a heartbeat with the id 1 parses. -/
def heartbeatEnv : Env :=
  { deafEnv with
    parseCarrier := fun b => if b = [0x08, 0x01, 0x18, 0x01] then some ⟨1, .req, .heartbeat, []⟩ else none
    parseHeartbeat := fun b => if b = [] then some 0 else none }

/-- Two heartbeats, the second header cut after three bytes. -/
theorem packMsg_onLevReadDone_heartbeats :
    ∃ s', (readEvents heartbeatEnv {}
        ([⟨[0xEF, 0, 0, 4, 0, 0, 0, 0, 0, 0, 0, 0, 0, 0, 0, 0xCD, 0x08, 0x01, 0x18, 0x01, 0xEF, 0, 0],
            by decide⟩,
          ⟨[4, 0, 0, 0, 0, 0, 0, 0, 0, 0, 0, 0, 0xCD, 0x08, 0x01, 0x18, 0x01], by decide⟩].map
            fun c : RecvData => (7, c))).2 = .ok s' ∧ s'.lastMsg = [] ∧
      requests (readEvents heartbeatEnv {}
        ([⟨[0xEF, 0, 0, 4, 0, 0, 0, 0, 0, 0, 0, 0, 0, 0, 0, 0xCD, 0x08, 0x01, 0x18, 0x01, 0xEF, 0, 0],
            by decide⟩,
          ⟨[4, 0, 0, 0, 0, 0, 0, 0, 0, 0, 0, 0, 0xCD, 0x08, 0x01, 0x18, 0x01], by decide⟩].map
            fun c : RecvData => (7, c))).1 =
        [[0x08, 0x01, 0x18, 0x01], [0x08, 0x01, 0x18, 0x01]].map fun p => (7, p) := by
  apply packMsg_onLevReadDone rfl (by decide) (by decide) (by decide)
  intro pre ev post s' hSplit hPre
  rcases pre with _ | ⟨x, _ | ⟨y, pre⟩⟩
  · cases hPre
    cases hSplit
    decide
  · cases hSplit
    have hBytes := readEvents_ok.mpr ⟨s', hPre, rfl⟩
    have hLast : (bytesEvents heartbeatEnv []
        [(7, ⟨[0xEF, 0, 0, 4, 0, 0, 0, 0, 0, 0, 0, 0, 0, 0, 0, 0xCD, 0x08, 0x01, 0x18, 0x01, 0xEF, 0,
          0], by decide⟩)]).2 = .ok [0xEF, 0, 0] := by decide
    have hSame : s'.lastMsg = [0xEF, 0, 0] := Except.ok.inj (hBytes.symm.trans hLast)
    rw [hSame]
    decide
  · simp at hSplit

/-! ### Interleaved streams -/

/-- The payloads of one connection. -/
def requestsOf (conn : CContext) (steps : List (CContext × ReadStep)) : List (List UInt8) :=
  (requests steps).filterMap fun x => if x.1 = conn then some x.2 else none

/-- The events of one connection. -/
def eventsOf (conn : CContext) (evs : List (CContext × RecvData)) : List (CContext × RecvData) :=
  evs.filter fun ev => ev.1 = conn

@[simp] theorem requestsOf_append (conn : CContext) (xs ys : List (CContext × ReadStep)) :
    requestsOf conn (xs ++ ys) = requestsOf conn xs ++ requestsOf conn ys := by
  rw [requestsOf, requests_append, List.filterMap_append]
  rfl

theorem requestsOf_reading (conn : CContext) (steps : List (CContext × ReadStep)) :
    requestsOf conn (steps.flatMap readingOf) = requestsOf conn steps := by
  rw [requestsOf, requests_reading]
  rfl

/-- The steps of another connection hand nothing on for this one. -/
theorem requestsOf_other {conn conn' : CContext} (h : conn' ≠ conn) (steps : List ReadStep) :
    requestsOf conn (steps.map fun x => (conn', x)) = [] := by
  rw [requestsOf, List.filterMap_eq_nil_iff]
  intro x hx
  obtain ⟨y, hy, hRequest⟩ := List.mem_filterMap.mp hx
  obtain ⟨step, -, rfl⟩ := List.mem_map.mp hy
  have hConn : x.1 = conn' := by
    split at hRequest
    · cases hRequest
      rfl
    · cases hRequest
  rw [if_neg (by rw [hConn]; exact h)]

/-- Every event finds the reassembly buffer empty, or left by an event of its own connection, and
none but the last faults. -/
def Separate (env : Env) (s : ConvertService) (evs : List (CContext × RecvData)) : Prop :=
  ∀ pre ev post, evs = pre ++ ev :: post → ∃ s', (readEvents env s pre).2 = .ok s' ∧
    (s'.lastMsg = [] ∨ ∃ last, pre.getLast? = some last ∧ last.1 = ev.1)

theorem bytesEvents_singleton (env : Env) (b : List UInt8) (ev : CContext × RecvData) :
    bytesEvents env b [ev] =
      ((readBytes env b ev.2).1.map fun x => (ev.1, x), (readBytes env b ev.2).2) := by
  obtain ⟨conn, recvData⟩ := ev
  simp only [bytesEvents]
  cases (readBytes env b recvData).2 <;> simp

theorem bytesEvents_concat {env : Env} {b b' : List UInt8} {evs : List (CContext × RecvData)}
    (h : (bytesEvents env b evs).2 = .ok b') (ev : CContext × RecvData) :
    bytesEvents env b (evs ++ [ev]) =
      ((bytesEvents env b evs).1 ++ (readBytes env b' ev.2).1.map fun x => (ev.1, x),
        (readBytes env b' ev.2).2) := by
  rw [bytesEvents_append, h]
  simp only [bytesEvents_singleton]

/-- The run alone of each connection, after events that are separate: it has read what it read
among the others, and left what it left there. -/
theorem bytesEvents_separate (env : Env) (evs : List (CContext × RecvData))
    (hSeparate : ∀ pre ev post, evs = pre ++ ev :: post → ∃ b, (bytesEvents env [] pre).2 = .ok b ∧
      (b = [] ∨ ∃ last, pre.getLast? = some last ∧ last.1 = ev.1)) (conn : CContext) :
    requestsOf conn (bytesEvents env [] evs).1 =
        requestsOf conn (bytesEvents env [] (eventsOf conn evs)).1 ∧
      ∀ b, (bytesEvents env [] evs).2 = .ok b →
        (bytesEvents env [] (eventsOf conn evs)).2 =
          .ok (if (evs.getLast?.map Prod.fst) = some conn then b else []) := by
  induction evs using List.reverseRecOn with
  | nil => exact ⟨rfl, fun b _ => rfl⟩
  | append_singleton pre ev ih =>
    obtain ⟨hReqs, hLeft⟩ := ih fun p e q hSplit =>
      hSeparate p e (q ++ [ev]) (by rw [hSplit, List.append_assoc]; rfl)
    obtain ⟨b, hPre, hOwn⟩ := hSeparate pre ev [] rfl
    have hAlone := hLeft b hPre
    rw [bytesEvents_concat hPre]
    by_cases hConn : ev.1 = conn
    · have hSame : (if (pre.getLast?.map Prod.fst) = some conn then b else []) = b := by
        rcases hOwn with rfl | ⟨last, hLast, hLastConn⟩
        · exact ite_self _
        · rw [hLast, Option.map_some, hLastConn, hConn, if_pos rfl]
      rw [hSame] at hAlone
      have hEvents : eventsOf conn (pre ++ [ev]) = eventsOf conn pre ++ [ev] := by
        simp [eventsOf, hConn]
      rw [hEvents, bytesEvents_concat hAlone]
      simp only [requestsOf_append, hReqs, List.getLast?_append, List.getLast?_singleton,
        Option.some_or, Option.map_some, hConn, if_true, true_and]
      exact fun b' h => h
    · have hEvents : eventsOf conn (pre ++ [ev]) = eventsOf conn pre := by
        simp [eventsOf, hConn]
      have hNone : (if (pre.getLast?.map Prod.fst) = some conn then b else []) = [] := by
        rcases hOwn with rfl | ⟨last, hLast, hLastConn⟩
        · exact ite_self _
        · rw [hLast, Option.map_some, hLastConn, if_neg (by simpa using hConn)]
      rw [hNone] at hAlone
      rw [hEvents, requestsOf_append, requestsOf_other hConn, List.append_nil]
      refine ⟨hReqs, fun b' _ => ?_⟩
      rw [hAlone, List.getLast?_append, List.getLast?_singleton, Option.some_or, Option.map_some,
        if_neg (by simpa using hConn)]

/-- **Streams are parsed independently** when no event finds bytes that another connection left
in the reassembly buffer. -/
theorem requestsOf_separate {env : Env} {s : ConvertService} {evs : List (CContext × RecvData)}
    (hStart : s.lastMsg = []) (hSeparate : Separate env s evs) (conn : CContext) :
    requestsOf conn (readEvents env s evs).1 =
      requestsOf conn (readEvents env s (eventsOf conn evs)).1 := by
  have hBytes := (bytesEvents_separate env evs (fun pre ev post hSplit => by
    obtain ⟨s', hRun, hOwn⟩ := hSeparate pre ev post hSplit
    refine ⟨s'.lastMsg, ?_, hOwn⟩
    rw [← hStart]
    exact readEvents_ok.mpr ⟨s', hRun, rfl⟩) conn).1
  rw [← hStart, readEvents_eq, readEvents_eq, requestsOf_reading, requestsOf_reading] at hBytes
  exact hBytes

/-- Two connections that send a whole frame each. -/
theorem requestsOf_separate_heartbeats :
    requestsOf 2 (readEvents heartbeatEnv {}
        [(1, ⟨packMsg [0x08, 0x01, 0x18, 0x01], by decide⟩),
          (2, ⟨packMsg [0x08, 0x01, 0x18, 0x01], by decide⟩)]).1 =
      requestsOf 2 (readEvents heartbeatEnv {}
        (eventsOf 2 [(1, ⟨packMsg [0x08, 0x01, 0x18, 0x01], by decide⟩),
          (2, ⟨packMsg [0x08, 0x01, 0x18, 0x01], by decide⟩)])).1 := by
  refine requestsOf_separate rfl ?_ 2
  intro pre ev post hSplit
  rcases pre with _ | ⟨x, _ | ⟨y, pre⟩⟩
  · exact ⟨{}, rfl, .inl rfl⟩
  · cases hSplit
    have hBytes : (bytesEvents heartbeatEnv ({} : ConvertService).lastMsg
        [(1, ⟨packMsg [0x08, 0x01, 0x18, 0x01], by decide⟩)]).2 = .ok [] := by decide
    obtain ⟨s', hRun, hLast⟩ := readEvents_ok.mp hBytes
    exact ⟨s', hRun, .inl hLast⟩
  · simp at hSplit

/-- The header of one connection takes a byte of the next for its body. -/
theorem requestsOf_mixed :
    ¬∀ (env : Env) (s : ConvertService) (evs : List (CContext × RecvData)) (conn : CContext),
      s.lastMsg = [] → requestsOf conn (readEvents env s evs).1 =
        requestsOf conn (readEvents env s (eventsOf conn evs)).1 := by
  intro h
  have hTwo := h deafEnv {}
    [(1, ⟨[0xEF, 0, 0, 1, 0, 0, 0, 0, 0, 0, 0, 0, 0, 0, 0, 0xCD], by decide⟩),
      (2, ⟨packMsg [0x41], by decide⟩)] 2 rfl
  revert hTwo
  decide

end DemoCode.FeedProxy
