import DemoCode.FeedProxy.Streams

/-! Streams with requests that `ProcessReq` rejects.  `OnLevReadDone` then empties the whole
reassembly buffer, so a rejected request takes with it what has come in behind it: the rest of the
stream is read as if nothing had happened only where the read event ended with the request. -/

namespace DemoCode.FeedProxy

/-! ### A pass over any buffer -/

/-- The payloads that a read event hands to `ProcessReq`. -/
def handed (steps : List ReadStep) : List (List UInt8) :=
  steps.filterMap fun x =>
    match x with
    | .request reqStr => some reqStr
    | _ => none

@[simp] theorem handed_append (xs ys : List ReadStep) : handed (xs ++ ys) = handed xs ++ handed ys :=
  List.filterMap_append

theorem requests_handed (conn : CContext) (steps : List ReadStep) :
    requests (steps.map fun x => (conn, x)) = (handed steps).map fun p => (conn, p) := by
  rw [requests, handed, List.filterMap_map, List.map_filterMap]
  apply List.filterMap_congr
  intro x _
  cases x <;> rfl

/-- What follows a request. -/
def afterReq (env : Env) (reqStr rest : List UInt8) (steps : List ReadStep) :
    Loop.Pass (List UInt8) ReadStep (Except Fault (List UInt8)) :=
  match reqVerdict env reqStr with
  | none => .leave steps (.error .handler)
  | some false => .leave steps (.ok [])
  | some true => if rest.length < commonHdrLen then .leave steps (.ok rest) else .again steps rest

/-- Either nothing is handed on, and the buffer stays or its length is no length, or a body is that
fits an `int` together with its header. -/
theorem bytesPass_cases (env : Env) {b : List UInt8} (hHead : commonHdrLen ≤ b.length)
    (hMax : b.length ≤ stringMaxSize) :
    (∃ steps r, bytesPass env b = .leave steps r ∧ handed steps = [] ∧
        (r = .ok b ∨ r = .error .lengthError)) ∨
      ∃ steps reqStr rest, bytesPass env b = afterReq env reqStr rest steps ∧ handed steps = [reqStr] ∧
        b = b.take commonHdrLen ++ reqStr ++ rest ∧ reqStr.length + commonHdrLen < 2 ^ 31 := by
  obtain ⟨hLow, hHigh⟩ := (CommonHdr.read b).intLen_range
  have hMissing := bodyMissing_iff hLow hHigh hHead hMax
  unfold bytesPass
  dsimp only
  rw [if_neg (by omega)]
  by_cases hWait : bodyMissing (CommonHdr.read b).intLen b.length = true
  · rw [if_pos hWait]
    exact .inl ⟨_, _, rfl, rfl, .inl rfl⟩
  rw [if_neg hWait]
  by_cases hNeg : (CommonHdr.read b).intLen < 0
  · rw [if_pos hNeg]
    exact .inl ⟨_, _, rfl, rfl, .inr rfl⟩
  rw [if_neg hNeg]
  rw [hMissing] at hWait
  generalize hLen : (CommonHdr.read b).intLen.toNat = dataLen at hWait
  have hLength : ((b.drop commonHdrLen).take dataLen).length = dataLen := by
    rw [List.length_take, List.length_drop]
    omega
  refine .inr ⟨_, (b.drop commonHdrLen).take dataLen, b.drop (commonHdrLen + dataLen), rfl, rfl, ?_, ?_⟩
  · rw [List.append_assoc, ← List.drop_drop, List.take_append_drop, List.take_append_drop]
  · rw [hLength]
    unfold commonHdrLen at hWait ⊢
    omega

/-! ### No byte is read twice -/

/-- The bytes of requests with their headers. -/
def bytesOf (reqs : List (List UInt8)) : Nat := (reqs.map fun p => commonHdrLen + p.length).sum

@[simp] theorem bytesOf_append (xs ys : List (List UInt8)) : bytesOf (xs ++ ys) = bytesOf xs + bytesOf ys := by
  rw [bytesOf, List.map_append, List.sum_append]
  rfl

@[simp] theorem bytesOf_nil : bytesOf [] = 0 := rfl

@[simp] theorem bytesOf_cons (p : List UInt8) (ps : List (List UInt8)) :
    bytesOf (p :: ps) = commonHdrLen + p.length + bytesOf ps := by
  rw [bytesOf, List.map_cons, List.sum_cons]
  rfl

/-- What a run over `size` bytes can have handed on and left over: no more than these bytes, and all
of them only when nothing came behind a rejected request. -/
def Accounted (env : Env) (size : Nat) (reqs : List (List UInt8)) : Except Fault (List UInt8) → Prop
  | .error _ => bytesOf reqs < size
  | .ok b => bytesOf reqs + b.length ≤ size ∧
      (bytesOf reqs + b.length = size → ∀ pre p post, reqs = pre ++ p :: post →
        reqVerdict env p = some false → post = [] ∧ b = [])

theorem Accounted.none {env : Env} {size : Nat} {b : List UInt8} (hSize : b.length = size) :
    Accounted env size [] (.ok b) := by
  refine ⟨by rw [bytesOf_nil, hSize, Nat.zero_add], fun _ pre p post hSplit => ?_⟩
  exact absurd hSplit (by simp)

/-- An accepted request in front. -/
theorem Accounted.cons {env : Env} {size : Nat} {p : List UInt8} {reqs : List (List UInt8)}
    {r : Except Fault (List UInt8)} (hAccepted : reqVerdict env p = some true)
    (h : Accounted env size reqs r) : Accounted env (commonHdrLen + p.length + size) (p :: reqs) r := by
  cases r with
  | error fault =>
    have hLess : bytesOf reqs < size := h
    show bytesOf (p :: reqs) < _
    rw [bytesOf_cons]
    omega
  | ok b =>
    obtain ⟨hLe, hAll⟩ := h
    refine ⟨by rw [bytesOf_cons]; omega, fun hEq pre q post hSplit hReject => ?_⟩
    rw [bytesOf_cons] at hEq
    cases pre with
    | nil =>
      obtain ⟨rfl, -⟩ := List.cons.inj hSplit
      rw [hAccepted] at hReject
      cases hReject
    | cons x pre =>
      obtain ⟨-, hTail⟩ := List.cons.inj hSplit
      exact hAll (by omega) pre q post hTail hReject

theorem bytesLoop_accounted {env : Env} (b : List UInt8) (hHead : commonHdrLen ≤ b.length)
    (hMax : b.length ≤ stringMaxSize)
    (hReturns : ∀ p ∈ handed ((bytesLoop env).exec b).1, reqVerdict env p ≠ none) :
    (∀ p ∈ handed ((bytesLoop env).exec b).1, p.length + commonHdrLen < 2 ^ 31) ∧
      Accounted env b.length (handed ((bytesLoop env).exec b).1) ((bytesLoop env).exec b).2 := by
  induction hn : b.length using Nat.strongRecOn generalizing b with
  | ind n ih =>
  subst hn
  rcases bytesPass_cases env hHead hMax with
    ⟨steps, r, hPass, hNone, hEnd⟩ | ⟨steps, reqStr, rest, hPass, hOne, hSplit, hFits⟩
  · rw [bytesLoop_leave hPass]
    dsimp only
    rw [hNone]
    refine ⟨fun p hp => absurd hp List.not_mem_nil, ?_⟩
    rcases hEnd with rfl | rfl
    · exact .none rfl
    · show bytesOf [] < b.length
      unfold commonHdrLen at hHead
      rw [bytesOf_nil]
      omega
  have hSize : b.length = commonHdrLen + reqStr.length + rest.length := by
    conv_lhs => rw [hSplit]
    rw [List.length_append, List.length_append, List.length_take, Nat.min_eq_left hHead]
  have hFitsOne : ∀ p ∈ [reqStr], p.length + commonHdrLen < 2 ^ 31 := List.forall_mem_singleton.mpr hFits
  unfold afterReq at hPass
  rcases hv : reqVerdict env reqStr with _ | _ | _
  · rw [hv] at hPass
    rw [bytesLoop_leave hPass] at hReturns
    dsimp only at hReturns
    rw [hOne] at hReturns
    exact absurd hv (hReturns reqStr (List.mem_singleton_self _))
  · rw [hv] at hPass
    rw [bytesLoop_leave hPass]
    dsimp only
    rw [hOne]
    refine ⟨hFitsOne, ?_, fun _ pre p post hCut _ => ?_⟩
    · rw [bytesOf_cons, bytesOf_nil, List.length_nil]
      omega
    · cases pre with
      | nil => exact ⟨(List.cons.inj hCut).2.symm, rfl⟩
      | cons x pre => exact absurd (List.cons.inj hCut).2 (by simp)
  · rw [hv] at hPass
    dsimp only at hPass
    by_cases hLess : rest.length < commonHdrLen
    · rw [if_pos hLess] at hPass
      rw [bytesLoop_leave hPass]
      dsimp only
      rw [hOne, hSize]
      exact ⟨hFitsOne, .cons hv (.none rfl)⟩
    · rw [if_neg hLess] at hPass
      rw [bytesLoop_again hPass] at hReturns ⊢
      dsimp only at hReturns ⊢
      rw [handed_append, hOne] at hReturns ⊢
      obtain ⟨hFitsRest, hRest⟩ := ih rest.length (by unfold commonHdrLen at hSize; omega) rest (by omega)
        (by omega) (fun p hp => hReturns p (List.mem_append_right _ hp)) rfl
      refine ⟨List.forall_mem_append.mpr ⟨hFitsOne, hFitsRest⟩, ?_⟩
      rw [hSize]
      exact .cons hv hRest

/-! ### Read events of one connection -/

/-- The payloads handed on by the read events of a connection, up to the first that faults. -/
def handedBy (env : Env) (b : List UInt8) : List RecvData → List (List UInt8)
  | [] => []
  | c :: chunks =>
    handed (readBytes env b c).1 ++
      match (readBytes env b c).2 with
      | .error _ => []
      | .ok b' => handedBy env b' chunks

theorem requests_events (env : Env) (conn : CContext) (b : List UInt8) (chunks : List RecvData) :
    requests (bytesEvents env b (chunks.map fun c => (conn, c))).1 =
      (handedBy env b chunks).map fun p => (conn, p) := by
  induction chunks generalizing b with
  | nil => rfl
  | cons c chunks ih =>
    simp only [List.map_cons, bytesEvents, handedBy, List.map_append]
    cases (readBytes env b c).2 with
    | error fault => rw [requests_handed, List.map_nil, List.append_nil]
    | ok b' => simp only [requests_append, requests_handed, ih]

/-- Every event finds at least a header. -/
def Headed (env : Env) (conn : CContext) (b : List UInt8) (chunks : List RecvData) : Prop :=
  ∀ pre ev post b', (chunks.map fun c => (conn, c)) = pre ++ ev :: post →
    (bytesEvents env b pre).2 = .ok b' → commonHdrLen ≤ (b' ++ ev.2.val).length

theorem headed_cons {env : Env} {conn : CContext} {b : List UInt8} {c : RecvData}
    {chunks : List RecvData} : Headed env conn b (c :: chunks) ↔
      commonHdrLen ≤ (b ++ c.val).length ∧
        ∀ b', (readBytes env b c).2 = .ok b' → Headed env conn b' chunks :=
  bytesEvents_forall

/-- The bytes of read events. -/
def arrived (chunks : List RecvData) : List UInt8 := (chunks.map Subtype.val).flatten

theorem arrived_cons (c : RecvData) (chunks : List RecvData) :
    arrived (c :: chunks) = c.val ++ arrived chunks := rfl

/-- An event of a run, in the terms of its buffer. -/
theorem readBytes_accounted {env : Env} {b : List UInt8} {c : RecvData}
    (hHead : commonHdrLen ≤ (b ++ c.val).length)
    (hReturns : ∀ p ∈ handed (readBytes env b c).1, reqVerdict env p ≠ none) :
    (∀ p ∈ handed (readBytes env b c).1, p.length + commonHdrLen < 2 ^ 31) ∧
      Accounted env (b ++ c.val).length (handed (readBytes env b c).1) (readBytes env b c).2 := by
  unfold readBytes at hReturns ⊢
  by_cases hMax : stringMaxSize < (b ++ c.val).length
  · rw [if_pos hMax]
    exact ⟨fun p hp => absurd hp List.not_mem_nil, Nat.lt_of_le_of_lt (Nat.zero_le _) hMax⟩
  · rw [if_neg hMax] at hReturns ⊢
    exact bytesLoop_accounted _ hHead (Nat.not_lt.mp hMax) hReturns

/-- A connection whose bytes are all handed on has lost none behind a rejected request, so each of
these ends with an event. -/
theorem handedBy_accounted {env : Env} {conn : CContext} {b : List UInt8} {chunks : List RecvData}
    (hHeaded : Headed env conn b chunks)
    (hReturns : ∀ p ∈ handedBy env b chunks, reqVerdict env p ≠ none) :
    (∀ p ∈ handedBy env b chunks, p.length + commonHdrLen < 2 ^ 31) ∧
      bytesOf (handedBy env b chunks) ≤ (b ++ arrived chunks).length ∧
      (bytesOf (handedBy env b chunks) = (b ++ arrived chunks).length → ∀ pre p post,
        handedBy env b chunks = pre ++ p :: post → reqVerdict env p = some false →
          ∃ k, bytesOf (pre ++ [p]) = (b ++ arrived (chunks.take k)).length) := by
  induction chunks generalizing b with
  | nil =>
    refine ⟨fun p hp => absurd hp List.not_mem_nil, Nat.zero_le _, fun _ pre p post hSplit => ?_⟩
    exact absurd hSplit (by simp [handedBy])
  | cons c chunks ih =>
    obtain ⟨hHead, hNext⟩ := headed_cons.mp hHeaded
    rw [handedBy] at hReturns ⊢
    obtain ⟨hFits, hOne⟩ := readBytes_accounted hHead fun p hp => hReturns p (List.mem_append_left _ hp)
    have hWhole : (b ++ arrived (c :: chunks)).length = (b ++ c.val).length + (arrived chunks).length := by
      rw [arrived_cons, ← List.append_assoc, List.length_append]
    rw [hWhole]
    generalize handed (readBytes env b c).1 = reqs at *
    rcases hRead : (readBytes env b c).2 with fault | b'
    · rw [hRead] at hOne hReturns
      have hLess : bytesOf reqs < (b ++ c.val).length := hOne
      dsimp only
      rw [List.append_nil]
      exact ⟨hFits, by omega, fun hEq => by omega⟩
    · rw [hRead] at hOne hReturns
      dsimp only at hReturns ⊢
      obtain ⟨hLe, hAll⟩ := hOne
      obtain ⟨hFitsRest, hLeRest, hAllRest⟩ := ih (hNext b' hRead) fun p hp =>
        hReturns p (List.mem_append_right _ hp)
      rw [List.length_append] at hLeRest hAllRest
      refine ⟨List.forall_mem_append.mpr ⟨hFits, hFitsRest⟩, ?_, ?_⟩
      · rw [bytesOf_append]
        omega
      intro hEq pre p post hSplit hReject
      rw [bytesOf_append] at hEq
      rcases List.append_eq_append_iff.mp hSplit with ⟨mid, rfl, hLater⟩ | ⟨mid, hFirst, hLater⟩
      · -- the request is one of a later event
        obtain ⟨k, hk⟩ := hAllRest (by omega) mid p post hLater hReject
        refine ⟨k + 1, ?_⟩
        rw [List.take_succ_cons, arrived_cons, ← List.append_assoc, List.length_append,
          List.append_assoc, bytesOf_append, hk, List.length_append]
        omega
      · cases mid with
        | nil =>
          rw [List.append_nil] at hFirst
          subst hFirst
          obtain ⟨k, hk⟩ := hAllRest (by omega) [] p post hLater.symm hReject
          refine ⟨k + 1, ?_⟩
          rw [List.take_succ_cons, arrived_cons, ← List.append_assoc, List.length_append,
            bytesOf_append, ← List.nil_append [p], hk, List.length_append]
          omega
        | cons q mid =>
          obtain ⟨rfl, -⟩ := List.cons.inj hLater
          obtain ⟨rfl, rfl⟩ := hAll (by omega) pre p mid hFirst hReject
          refine ⟨1, ?_⟩
          rw [← hFirst, List.take_succ_cons, List.take_zero, arrived_cons, arrived, List.map_nil,
            List.flatten_nil, List.append_nil]
          rw [List.length_nil] at hLe hLeRest
          omega

/-! ### Framed requests -/

/-- A request behind a header that states its length. -/
structure Framed where
  hdr : CommonHdr
  payload : List UInt8
  length : hdr.dataLen.toNat = payload.length

def Framed.encode (f : Framed) : List UInt8 := f.hdr.encode ++ f.payload

theorem Framed.length_encode (f : Framed) : f.encode.length = commonHdrLen + f.payload.length := by
  rw [Framed.encode, List.length_append, CommonHdr.length_encode]

def streamOf (fs : List Framed) : List UInt8 := (fs.map Framed.encode).flatten

@[simp] theorem streamOf_nil : streamOf [] = [] := rfl

@[simp] theorem streamOf_cons (f : Framed) (fs : List Framed) :
    streamOf (f :: fs) = f.encode ++ streamOf fs := rfl

@[simp] theorem streamOf_append (fs gs : List Framed) : streamOf (fs ++ gs) = streamOf fs ++ streamOf gs := by
  rw [streamOf, List.map_append, List.flatten_append]
  rfl

theorem length_streamOf (fs : List Framed) : (streamOf fs).length = bytesOf (fs.map Framed.payload) := by
  induction fs with
  | nil => rfl
  | cons f fs ih => rw [streamOf_cons, List.length_append, f.length_encode, ih, List.map_cons, bytesOf_cons]

theorem Framed.read (f : Framed) (rest : List UInt8) : CommonHdr.read (f.encode ++ rest) = f.hdr := by
  rw [Framed.encode, List.append_assoc]
  exact CommonHdr.read_encode _ _

theorem Framed.intLen {f : Framed} (hFits : f.payload.length + commonHdrLen < 2 ^ 31) :
    f.hdr.intLen = f.payload.length := by
  unfold commonHdrLen at hFits
  rw [CommonHdr.intLen_small (by rw [f.length]; omega), f.length]

/-- The first frame is not complete. -/
def Incomplete (b : List UInt8) : List Framed → Prop
  | [] => b = []
  | f :: _ => b.length < f.encode.length

theorem incomplete_short {b : List UInt8} {fs : List Framed} (hLess : b.length < commonHdrLen)
    {later : List UInt8} (hStream : b ++ later = streamOf fs) : Incomplete b fs := by
  cases fs with
  | nil => exact (List.append_eq_nil_iff.mp hStream).1
  | cons f fs =>
    show b.length < f.encode.length
    rw [f.length_encode]
    omega

/-- A pass over a part of the first frame. -/
theorem bytesPass_waits {env : Env} {f : Framed} {b later more : List UInt8}
    (hFits : f.payload.length + commonHdrLen < 2 ^ 31) (hHead : commonHdrLen ≤ b.length)
    (hMax : b.length ≤ stringMaxSize) (hStream : b ++ later = f.encode ++ more)
    (hLess : b.length < f.encode.length) : bytesPass env b = .leave [.header b.length] (.ok b) := by
  have hRead : CommonHdr.read b = f.hdr := by
    rw [← CommonHdr.read_append later hHead, hStream, f.read]
  rw [f.length_encode] at hLess
  have hMissing : bodyMissing (CommonHdr.read b).intLen b.length = true := by
    rw [hRead, Framed.intLen hFits, bodyMissing_iff (by omega) (by omega) hHead hMax]
    omega
  unfold bytesPass
  dsimp only
  rw [if_neg (by omega), if_pos hMissing]

/-- A pass over a buffer with the first frame. -/
theorem bytesPass_framed (env : Env) {f : Framed} {rest : List UInt8}
    (hFits : f.payload.length + commonHdrLen < 2 ^ 31) (hMax : (f.encode ++ rest).length ≤ stringMaxSize) :
    ∃ steps, bytesPass env (f.encode ++ rest) = afterReq env f.payload rest steps ∧
      handed steps = [f.payload] := by
  have hBody : ((f.encode ++ rest).drop commonHdrLen).take f.payload.length = f.payload := by
    rw [Framed.encode, List.append_assoc, List.drop_left' f.hdr.length_encode, List.take_left]
  have hDrop : (f.encode ++ rest).drop (commonHdrLen + f.payload.length) = rest :=
    List.drop_left' f.length_encode
  have hLength : (f.encode ++ rest).length = commonHdrLen + f.payload.length + rest.length := by
    rw [List.length_append, f.length_encode]
  have hMissing : ¬bodyMissing f.payload.length (f.encode ++ rest).length = true := by
    rw [bodyMissing_iff (by omega) (by omega) (by omega) hMax]
    omega
  unfold bytesPass bytesBody
  dsimp only
  rw [f.read, Framed.intLen hFits, if_neg (by omega), if_neg hMissing, if_neg (by omega),
    Int.toNat_natCast, hBody, hDrop]
  exact ⟨_, rfl, rfl⟩

/-- What is asked of the requests of a stream: each is answered, and fits an `int`. -/
def Answerable (env : Env) (fs : List Framed) : Prop :=
  ∀ f ∈ fs, reqVerdict env f.payload ≠ none ∧ f.payload.length + commonHdrLen < 2 ^ 31

theorem Incomplete.length_lt {env : Env} {b : List UInt8} {fs : List Framed} (h : Incomplete b fs)
    (hAll : Answerable env fs) : b.length < 2 ^ 31 := by
  cases fs with
  | nil =>
    have hNil : b = [] := h
    rw [hNil]
    decide
  | cons f fs =>
    have hLess : b.length < f.encode.length := h
    have hFits := (hAll f List.mem_cons_self).2
    rw [f.length_encode] at hLess
    omega

/-- No frame ends with the bytes that are left over. -/
theorem Incomplete.ne_streamOf {b : List UInt8} {pre post : List Framed} {f : Framed}
    (h : Incomplete b (pre ++ f :: post)) : b ≠ streamOf (pre ++ [f]) := by
  rintro rfl
  cases pre with
  | nil =>
    have hLess : (streamOf ([] ++ [f])).length < f.encode.length := h
    rw [List.nil_append, streamOf_cons, List.length_append] at hLess
    omega
  | cons g pre =>
    have hLess : (streamOf (g :: pre ++ [f])).length < g.encode.length := h
    rw [List.cons_append, streamOf_cons, List.length_append] at hLess
    omega

/-- The loop over the first bytes of a stream, where a rejected request can only be the end of them. -/
theorem bytesLoop_framed {env : Env} (fs : List Framed) {b later : List UInt8}
    (hStream : b ++ later = streamOf fs) (hHead : commonHdrLen ≤ b.length)
    (hMax : b.length ≤ stringMaxSize) (hAll : Answerable env fs)
    (hEnds : ∀ pre f post, fs = pre ++ f :: post → reqVerdict env f.payload = some false →
      (streamOf (pre ++ [f])).length ≤ b.length → (streamOf (pre ++ [f])).length = b.length) :
    ∃ done rest b', fs = done ++ rest ∧ b = streamOf done ++ b' ∧ Incomplete b' rest ∧
      handed ((bytesLoop env).exec b).1 = done.map Framed.payload ∧
      ((bytesLoop env).exec b).2 = .ok b' := by
  induction fs generalizing b with
  | nil =>
    rw [(List.append_eq_nil_iff.mp hStream).1, commonHdrLen] at hHead
    exact absurd hHead (by decide)
  | cons f fs ih =>
    obtain ⟨hReturns, hFits⟩ := hAll f List.mem_cons_self
    have hRest : Answerable env fs := fun g hg => hAll g (List.mem_cons_of_mem _ hg)
    rw [streamOf_cons] at hStream
    by_cases hLess : b.length < f.encode.length
    · rw [bytesLoop_leave (bytesPass_waits hFits hHead hMax hStream hLess)]
      exact ⟨[], f :: fs, b, rfl, rfl, hLess, rfl, rfl⟩
    obtain ⟨rest, rfl⟩ : f.encode <+: b :=
      List.prefix_of_prefix_length_le ⟨_, hStream.symm⟩ ⟨later, rfl⟩ (Nat.not_lt.mp hLess)
    rw [List.append_assoc, List.append_cancel_left_eq] at hStream
    obtain ⟨steps, hPass, hOne⟩ := bytesPass_framed env hFits hMax
    have hFront : f.encode ++ rest = streamOf [f] ++ rest := by
      rw [streamOf_cons, streamOf_nil, List.append_nil]
    rw [List.length_append] at hMax hEnds
    unfold afterReq at hPass
    rcases hv : reqVerdict env f.payload with _ | _ | _
    · exact absurd hv hReturns
    · have hEnd := hEnds [] f fs rfl hv
      rw [List.nil_append, streamOf_cons, streamOf_nil, List.append_nil] at hEnd
      have hNil : rest = [] := List.length_eq_zero_iff.mp (by have := hEnd (by omega); omega)
      subst hNil
      rw [hv] at hPass
      rw [bytesLoop_leave hPass]
      refine ⟨[f], fs, [], rfl, hFront, ?_, hOne, rfl⟩
      exact incomplete_short (by decide) hStream
    · rw [hv] at hPass
      dsimp only at hPass
      by_cases hShort : rest.length < commonHdrLen
      · rw [if_pos hShort] at hPass
        rw [bytesLoop_leave hPass]
        exact ⟨[f], fs, rest, rfl, hFront, incomplete_short hShort hStream, hOne, rfl⟩
      · rw [if_neg hShort] at hPass
        rw [bytesLoop_again hPass]
        obtain ⟨done, fs', b', rfl, rfl, hMore, hHanded, hLeft⟩ := ih hStream (by omega) (by omega) hRest
          fun pre g post hSplit hReject hLe => by
            have hLater := hEnds (f :: pre) g post (by rw [hSplit]; rfl) hReject
            rw [List.cons_append, streamOf_cons, List.length_append] at hLater
            have hEq := hLater (by omega)
            omega
        refine ⟨f :: done, fs', b', rfl, ?_, hMore, ?_, hLeft⟩
        · rw [streamOf_cons, List.append_assoc]
        · rw [handed_append, hOne, hHanded]
          rfl

/-- The read events of a stream whose rejected requests each end with an event. -/
theorem handedBy_framed {env : Env} {conn : CContext} {b : List UInt8} {chunks : List RecvData}
    {fs : List Framed} (hStream : b ++ arrived chunks = streamOf fs) (hMore : Incomplete b fs)
    (hHeaded : Headed env conn b chunks) (hAll : Answerable env fs)
    (hEnds : ∀ pre f post, fs = pre ++ f :: post → reqVerdict env f.payload = some false →
      ∃ k, b ++ arrived (chunks.take k) = streamOf (pre ++ [f])) :
    handedBy env b chunks = fs.map Framed.payload := by
  induction chunks generalizing b fs with
  | nil =>
    rw [show arrived [] = [] from rfl, List.append_nil] at hStream
    cases fs with
    | nil => rfl
    | cons f fs =>
      have hLess : b.length < f.encode.length := hMore
      rw [hStream, streamOf_cons, List.length_append] at hLess
      omega
  | cons c chunks ih =>
    obtain ⟨hHead, hNext⟩ := headed_cons.mp hHeaded
    rw [arrived_cons, ← List.append_assoc] at hStream
    have hLater : ∀ pre f post, fs = pre ++ f :: post → reqVerdict env f.payload = some false →
        ∃ k, b ++ c.val ++ arrived (chunks.take k) = streamOf (pre ++ [f]) := by
      intro pre f post hSplit hReject
      obtain ⟨k, hk⟩ := hEnds pre f post hSplit hReject
      cases k with
      | zero =>
        rw [List.take_zero, show arrived [] = [] from rfl, List.append_nil] at hk
        subst hSplit
        exact absurd hk hMore.ne_streamOf
      | succ k =>
        refine ⟨k, ?_⟩
        rw [← hk, List.take_succ_cons, arrived_cons, List.append_assoc]
    have hSmall : b.length < 2 ^ 31 := hMore.length_lt hAll
    have hMax : (b ++ c.val).length ≤ stringMaxSize := by
      have hChunk := c.property
      rw [List.length_append, stringMaxSize]
      omega
    obtain ⟨done, rest, b', rfl, hSplit, hRest, hHanded, hLeft⟩ := bytesLoop_framed fs hStream hHead hMax hAll
      fun pre f post hCut hReject hLe => by
        obtain ⟨k, hk⟩ := hLater pre f post hCut hReject
        rw [← hk, List.length_append] at hLe ⊢
        omega
    have hRead : readBytes env b c = (bytesLoop env).exec (b ++ c.val) := if_neg (Nat.not_lt.mpr hMax)
    rw [hSplit, streamOf_append, List.append_assoc, List.append_cancel_left_eq] at hStream
    rw [handedBy, hRead, hHanded, hLeft]
    dsimp only
    rw [ih hStream hRest (hNext b' (by rw [hRead, hLeft])) (fun f hf => hAll f (List.mem_append_right _ hf))
      fun pre f post hCut hReject => ?_, List.map_append]
    obtain ⟨k, hk⟩ := hLater (done ++ pre) f post (by rw [hCut, List.append_assoc]) hReject
    rw [hSplit, List.append_assoc, List.append_assoc, streamOf_append, List.append_cancel_left_eq] at hk
    exact ⟨k, hk⟩

/-! ### Rejected requests -/

/-- A payload for which `ProcessReq` returns a negative value. -/
def Rejected (env : Env) (reqStr : List UInt8) : Prop :=
  ∀ (s : ConvertService) (conn : CContext),
    ∃ s' out ret, processReq env s conn reqStr = some (s', out, ret) ∧ ret < 0

theorem rejected_iff {env : Env} {reqStr : List UInt8} :
    Rejected env reqStr ↔ reqVerdict env reqStr = some false := by
  constructor
  · intro h
    obtain ⟨s', out, ret, hReq, hRet⟩ := h {} 0
    rcases hv : reqVerdict env reqStr with _ | _ | _
    · rw [processReq_fault hv] at hReq
      cases hReq
    · rfl
    · obtain ⟨s'', out', hTaken⟩ := processReq_accept hv {} 0
      rw [hTaken] at hReq
      cases hReq
      exact absurd hRet (by decide)
  · intro h s conn
    exact ⟨_, _, _, processReq_reject h s conn, by decide⟩

instance (env : Env) (reqStr : List UInt8) : Decidable (Rejected env reqStr) :=
  decidable_of_iff _ rejected_iff.symm

theorem reqVerdict_ne_none {env : Env} {reqStr : List UInt8}
    (h : Accepted env reqStr ∨ Rejected env reqStr) : reqVerdict env reqStr ≠ none := by
  rw [accepted_iff, rejected_iff] at h
  rcases h with h | h <;> rw [h] <;> exact Option.some_ne_none _

/-- The frames come in with the first events, and nothing else does. -/
def EndsEvent (chunks : List RecvData) (fs : List Framed) : Prop :=
  ∃ k, arrived (chunks.take k) = streamOf fs

theorem endsEvent_of_length {chunks : List RecvData} {fs : List Framed} (gs : List Framed) (k : Nat)
    (hStream : arrived chunks = streamOf (fs ++ gs))
    (hLength : (streamOf fs).length = (arrived (chunks.take k)).length) : EndsEvent chunks fs := by
  have hTake : arrived chunks = arrived (chunks.take k) ++ arrived (chunks.drop k) := by
    rw [arrived, arrived, arrived, ← List.flatten_append, ← List.map_append, List.take_append_drop]
  rw [hTake, streamOf_append] at hStream
  exact ⟨k, List.append_inj_left hStream hLength.symm⟩

/-- **Rejected requests disturb nothing** exactly when each of them ends with a read event (and no
request is too long for an `int`): then every request, rejected or not, is handed to `ProcessReq`
once and in order. -/
theorem rejected_harmless_iff {env : Env} {s : ConvertService} {conn : CContext} {fs : List Framed}
    {chunks : List RecvData} (hStart : s.lastMsg = [])
    (hReturns : ∀ f ∈ fs, Accepted env f.payload ∨ Rejected env f.payload)
    (hStream : (chunks.map Subtype.val).flatten = streamOf fs)
    (hCut : ∀ pre ev post s', (chunks.map fun c => (conn, c)) = pre ++ ev :: post →
      (readEvents env s pre).2 = .ok s' → 16 ≤ (s'.lastMsg ++ ev.2.val).length) :
    requests (readEvents env s (chunks.map fun c => (conn, c))).1 =
        (fs.map fun f => (conn, f.payload)) ↔
      (∀ f ∈ fs, f.payload.length + 16 < 2 ^ 31) ∧ ∀ pre f post, fs = pre ++ f :: post →
        Rejected env f.payload → EndsEvent chunks (pre ++ [f]) := by
  have hHeaded : Headed env conn [] chunks := by
    intro pre ev post b' hSplit hPre
    rw [← hStart] at hPre
    obtain ⟨s', hRun, rfl⟩ := readEvents_ok.mp hPre
    exact hCut pre ev post s' hSplit hRun
  have hHanded : requests (readEvents env s (chunks.map fun c => (conn, c))).1 =
      (handedBy env [] chunks).map fun p => (conn, p) := by
    rw [← requests_events, ← hStart, readEvents_eq, requests_reading]
  have hPayloads : (fs.map fun f => (conn, f.payload)) = (fs.map Framed.payload).map fun p => (conn, p) := by
    rw [List.map_map]
    rfl
  have hVerdicts : ∀ f ∈ fs, reqVerdict env f.payload ≠ none := fun f hf =>
    reqVerdict_ne_none (hReturns f hf)
  rw [hHanded, hPayloads, List.map_inj_right fun p q h => congrArg Prod.snd h]
  constructor
  · intro hEq
    have hVerdictsHanded : ∀ p ∈ handedBy env [] chunks, reqVerdict env p ≠ none := by
      rw [hEq]
      exact List.forall_mem_map.mpr hVerdicts
    obtain ⟨hFits, -, hAll⟩ := handedBy_accounted hHeaded hVerdictsHanded
    rw [hEq] at hFits hAll
    refine ⟨fun f hf => hFits _ (List.mem_map_of_mem hf), fun pre f post hSplit hReject => ?_⟩
    have hWhole : bytesOf (fs.map Framed.payload) = ([] ++ arrived chunks).length := by
      rw [← length_streamOf, ← hStream, List.nil_append]
      rfl
    obtain ⟨k, hk⟩ := hAll hWhole (pre.map Framed.payload) f.payload (post.map Framed.payload)
      (by rw [hSplit, List.map_append, List.map_cons]) (rejected_iff.mp hReject)
    rw [List.nil_append] at hk
    apply endsEvent_of_length post k
    · rw [List.append_assoc, List.singleton_append, ← hSplit]
      exact hStream
    · rw [length_streamOf, List.map_append]
      exact hk
  · rintro ⟨hFits, hEnds⟩
    refine handedBy_framed (by rw [List.nil_append]; exact hStream) ?_ hHeaded
      (fun f hf => ⟨hVerdicts f hf, hFits f hf⟩) fun pre f post hSplit hReject => ?_
    · cases fs with
      | nil => rfl
      | cons f fs =>
        show 0 < f.encode.length
        rw [f.length_encode, commonHdrLen]
        omega
    · obtain ⟨k, hk⟩ := hEnds pre f post hSplit (rejected_iff.mpr hReject)
      exact ⟨k, by rw [List.nil_append, hk]⟩

/-- A byte that is no carrier. -/
def unreadable : Framed := ⟨{ dataLen := 1 }, [0], rfl⟩

def heartbeat : Framed := ⟨{ dataLen := 4 }, [0x08, 0x01, 0x18, 0x01], rfl⟩

/-- The rejected request ends with the first event. -/
theorem rejected_harmless_iff_apart :
    requests (readEvents heartbeatEnv {} ([⟨unreadable.encode, by decide⟩, ⟨heartbeat.encode, by decide⟩].map
          fun c : RecvData => (7, c))).1 = ([unreadable, heartbeat].map fun f => (7, f.payload)) ↔
      (∀ f ∈ [unreadable, heartbeat], f.payload.length + 16 < 2 ^ 31) ∧
        ∀ pre f post, [unreadable, heartbeat] = pre ++ f :: post → Rejected heartbeatEnv f.payload →
          EndsEvent [⟨unreadable.encode, by decide⟩, ⟨heartbeat.encode, by decide⟩] (pre ++ [f]) := by
  apply rejected_harmless_iff rfl (by decide) (by decide)
  intro pre ev post s' hSplit hPre
  have hLong : 16 ≤ ev.2.val.length := by
    have hMem : ev ∈ ([⟨unreadable.encode, by decide⟩, ⟨heartbeat.encode, by decide⟩].map
        fun c : RecvData => (7, c)) := by
      rw [hSplit]
      exact List.mem_append_right _ List.mem_cons_self
    rcases List.mem_pair.mp hMem with rfl | rfl <;> decide
  rw [List.length_append]
  omega

/-- Behind a rejected request in the same event another one is lost. -/
theorem rejected_disturbs :
    ¬∀ (env : Env) (s : ConvertService) (conn : CContext) (fs : List Framed) (chunks : List RecvData),
      s.lastMsg = [] → (∀ f ∈ fs, Accepted env f.payload ∨ Rejected env f.payload) →
      (∀ f ∈ fs, f.payload.length + 16 < 2 ^ 31) →
      (chunks.map Subtype.val).flatten = streamOf fs →
      (∀ pre ev post s', (chunks.map fun c => (conn, c)) = pre ++ ev :: post →
        (readEvents env s pre).2 = .ok s' → 16 ≤ (s'.lastMsg ++ ev.2.val).length) →
      requests (readEvents env s (chunks.map fun c => (conn, c))).1 =
        fs.map fun f => (conn, f.payload) := by
  intro h
  have hBoth := h heartbeatEnv {} 7 [unreadable, heartbeat]
    [⟨unreadable.encode ++ heartbeat.encode, by decide⟩] rfl (by decide) (by decide) (by decide) ?_
  · rw [← requests_reading] at hBoth
    revert hBoth
    decide
  · intro pre ev post s' hSplit hPre
    have hMem : ev ∈ ([⟨unreadable.encode ++ heartbeat.encode, by decide⟩].map
        fun c : RecvData => ((7 : CContext), c)) := by
      rw [hSplit]
      exact List.mem_append_right _ List.mem_cons_self
    have hLong : 16 ≤ ev.2.val.length := by
      rw [List.mem_singleton.mp hMem]
      decide
    rw [List.length_append]
    omega

end DemoCode.FeedProxy
