import DemoCode.Lib.Search
import DemoCode.WebSocket.Codec

/-! `CWsClient` of `ws_client.hpp`: the check of the upgrade response, and the reading of the
server's stream before and after it.  Nothing catches what `ParseMsg` throws, so the reading ends
there. -/

namespace DemoCode.WebSocket

open Search (find contains)

/-- The bytes of an ASCII text. -/
def ascii (s : String) : List UInt8 := s.toList.map fun c => UInt8.ofNat c.toNat

/-- The loop over `pos`, with the bytes from `start` on: the lines without the byte before their line
feed.  An empty line leaves a count of `2^32 - 1`. -/
def headLines (line : List UInt8) : List UInt8 → List (List UInt8)
  | [] => []
  | b :: bs =>
    if b = 0x0A then
      (if line = [] then (b :: bs).take (2 ^ 32 - 1) else line.dropLast) :: headLines [] bs
    else
      headLines (line ++ [b]) bs

/-- The key and the value of a line, each the whole line when there is no colon. -/
def headField (line : List UInt8) : List UInt8 × List UInt8 :=
  match find (ascii ":") line with
  | none => (line, line)
  | some i => (line.take i, line.drop (i + 1))

/-- `headMap`, the entries set last first. -/
def headMap (lines : List (List UInt8)) : List (List UInt8 × List UInt8) :=
  (lines.map headField).reverse

/-- A field that is there and contains a text. -/
def fieldContains (headMap : List (List UInt8 × List UInt8)) (key text : String) : Bool :=
  match headMap.lookup (ascii key) with
  | none => false
  | some value => contains (ascii text) value

/-- `CheckHandShake`: the size of the upgrade response at the front of the data, 0 when there is
none. -/
def checkHandShake (data : List UInt8) : Nat :=
  match find (ascii "\r\n\r\n") data with
  | none => 0
  | some it =>
    let httpHead := data.take (it + 4)
    match headLines [] httpHead with
    | [] => 0
    | first :: rest =>
      if contains (ascii "HTTP") first && contains (ascii "101") first &&
          fieldContains (headMap rest) "Connection" "Upgrade" &&
          fieldContains (headMap rest) "Upgrade" "websocket" then
        httpHead.length
      else
        0

structure WsClient where
  isWsConnected : Bool
  wsProto : Proto

/-- The bytes of a read event, at least one; their number is that of `evbuffer_get_length`, in 32
bits. -/
abbrev ReadData := {data : List UInt8 // 0 < data.length ∧ data.length < 2 ^ 32}

/-- What `OnReadDone` does: the connection callback, the call of `ParseMsg` with a buffer and the
size beside it, and the message callback. -/
inductive ClientStep where
  | connected
  | parse (rawMsg : List UInt8) (size : Nat)
  | message (cb : Callback)
  deriving DecidableEq, Repr

/-- The client after an event: ready for the next one, ended by what `ParseMsg` threw, or reading
past the end of a buffer. -/
inductive Outcome where
  | running (c : WsClient)
  | threw (c : WsClient)
  | outOfBounds

/-- `m_wsProto.ParseMsg(std::move(rawMsg), size)`, whose value is not looked at. -/
def toParser (defaultDataMaxSize : UInt32) (c : WsClient) (rawMsg : List UInt8) (size : Nat) :
    List ClientStep × Outcome :=
  if rawMsg.length < size then
    ([.parse rawMsg size], .outOfBounds)
  else
    let (out, ending, wsProto) := parseMsg defaultDataMaxSize c.wsProto (rawMsg.take size)
    (.parse rawMsg size :: out.map .message,
      match ending with
      | .returned _ => .running { c with wsProto }
      | .threw => .threw { c with wsProto })

/-- `OnReadDone`. -/
def onReadDone (defaultDataMaxSize : UInt32) (c : WsClient) (data : ReadData) :
    List ClientStep × Outcome :=
  let rawMsg := data.val
  let size := rawMsg.length
  if !c.isWsConnected then
    let httpHeadSize := checkHandShake rawMsg
    if httpHeadSize = 0 then
      ([], .running c)
    else
      let c := { c with isWsConnected := true }
      let realSize := size - httpHeadSize
      if realSize = 0 then
        ([.connected], .running c)
      else
        let parsed := toParser defaultDataMaxSize c (rawMsg.drop httpHeadSize) size
        (.connected :: parsed.1, parsed.2)
  else
    toParser defaultDataMaxSize c rawMsg size

/-- Successive read events, as long as the client is running. -/
def readAll (defaultDataMaxSize : UInt32) (c : WsClient) :
    List ReadData → List ClientStep × Outcome
  | [] => ([], .running c)
  | data :: rest =>
    match onReadDone defaultDataMaxSize c data with
    | (steps, .running c') =>
      (steps ++ (readAll defaultDataMaxSize c' rest).1, (readAll defaultDataMaxSize c' rest).2)
    | ended => ended

/-- The bytes passed to `ParseMsg`. -/
def parsedBytes (steps : List ClientStep) : List UInt8 :=
  steps.flatMap fun step =>
    match step with
    | .parse rawMsg size => rawMsg.take size
    | _ => []

/-! ### The response -/

/-- What is accepted ends with the first empty line of the data. -/
theorem checkHandShake_ne {data : List UInt8} (h : checkHandShake data ≠ 0) :
    ∃ it, find (ascii "\r\n\r\n") data = some it ∧ checkHandShake data = it + 4 := by
  rw [checkHandShake] at h ⊢
  split at h
  · exact absurd rfl h
  rename_i it hFind
  refine ⟨it, hFind, ?_⟩
  have hLength : it + 4 ≤ data.length := Search.find_length (by decide) hFind
  dsimp only at h ⊢
  split at h
  · exact absurd rfl h
  split at h
  · rename_i hChecks
    rw [if_pos hChecks, List.length_take, Nat.min_eq_left hLength]
  · exact absurd rfl h

theorem checkHandShake_le (data : List UInt8) : checkHandShake data ≤ data.length := by
  by_cases h : checkHandShake data = 0
  · omega
  · obtain ⟨it, hFind, hSize⟩ := checkHandShake_ne h
    have hLength : it + 4 ≤ data.length := Search.find_length (by decide) hFind
    omega

/-- A response that ends with its first empty line contains no other, so what is accepted inside it
ends where it ends. -/
theorem checkHandShake_inside {pre data post : List UInt8} (h : checkHandShake data ≠ 0)
    (hWhole : checkHandShake (pre ++ data ++ post) = (pre ++ data ++ post).length) :
    checkHandShake data = data.length ∧ post = [] := by
  obtain ⟨it, hFind, hSize⟩ := checkHandShake_ne h
  have hLength : it + 4 ≤ data.length := Search.find_length (by decide) hFind
  have hPos : 0 < data.length := by omega
  have hNe : checkHandShake (pre ++ data ++ post) ≠ 0 := by
    rw [hWhole, List.length_append, List.length_append]
    omega
  obtain ⟨end_, hEnd, hEndSize⟩ := checkHandShake_ne hNe
  have hStands : ascii "\r\n\r\n" <+: (pre ++ data ++ post).drop (pre.length + it) := by
    rw [List.append_assoc, ← List.drop_drop, List.drop_left,
      List.drop_append_of_le_length (by omega)]
    exact (Search.find_stands hFind).trans (List.prefix_append _ _)
  obtain ⟨first, hLe, hFirst⟩ := Search.find_le (by decide) hStands
  obtain rfl : first = end_ := Option.some.inj (hFirst.symm.trans hEnd)
  rw [hEndSize, List.length_append, List.length_append] at hWhole
  refine ⟨by omega, List.eq_nil_of_length_eq_zero (by omega)⟩

/-- Of events that are not all dropped, there is a first that holds a response. -/
theorem exists_first_response {chunks : List ReadData}
    (h : ¬∀ x ∈ chunks, checkHandShake x.val = 0) :
    ∃ pre data post, chunks = pre ++ data :: post ∧ (∀ x ∈ pre, checkHandShake x.val = 0) ∧
      checkHandShake data.val ≠ 0 := by
  cases hFind : chunks.find? fun x => checkHandShake x.val != 0 with
  | none => exact absurd (by simpa using hFind) h
  | some data =>
    obtain ⟨hNe, pre, post, rfl, hPre⟩ := List.find?_eq_some_iff_append.mp hFind
    exact ⟨pre, data, post, rfl, fun x hIn => by simpa using hPre x hIn, by simpa using hNe⟩

/-! ### The stream -/

/-- The client is connected and has read no buffer past its end, and the bytes passed to the parser are
those. -/
def Delivers (F : List UInt8) (result : List ClientStep × Outcome) : Prop :=
  parsedBytes result.1 = F ∧
    ∃ c, (result.2 = .running c ∨ result.2 = .threw c) ∧ c.isWsConnected = true

/-- No event but the last brings the parser to a message without data. -/
def LastsToEnd (defaultDataMaxSize : UInt32) (p : Proto) : List ReadData → Prop
  | [] => True
  | [_] => True
  | data :: next :: rest =>
    ¬EmptyNext defaultDataMaxSize p data.val ∧
      LastsToEnd defaultDataMaxSize (parseMsg defaultDataMaxSize p data.val).2.2 (next :: rest)

theorem parsedBytes_append (xs ys : List ClientStep) :
    parsedBytes (xs ++ ys) = parsedBytes xs ++ parsedBytes ys := List.flatMap_append

theorem parsedBytes_message (out : List Callback) : parsedBytes (out.map .message) = [] := by
  rw [parsedBytes, List.flatMap_map]
  exact List.flatMap_eq_nil_iff.mpr fun _ _ => rfl

section

variable (defaultDataMaxSize : UInt32) {c : WsClient}

/-- A connected client passes on what it reads, and goes on unless the parser throws. -/
theorem onReadDone_connected (data : ReadData) (h : c.isWsConnected = true) :
    parsedBytes (onReadDone defaultDataMaxSize c data).1 = data.val ∧
      (onReadDone defaultDataMaxSize c data).2 =
        if EmptyNext defaultDataMaxSize c.wsProto data.val then
          .threw { c with wsProto := (parseMsg defaultDataMaxSize c.wsProto data.val).2.2 }
        else
          .running { c with wsProto := (parseMsg defaultDataMaxSize c.wsProto data.val).2.2 } := by
  simp only [onReadDone, h, Bool.not_true, Bool.false_eq_true, if_false, toParser,
    lt_self_iff_false, List.take_length]
  constructor
  · show data.val.take data.val.length ++ parsedBytes (List.map _ _) = data.val
    rw [parsedBytes_message, List.take_length, List.append_nil]
  · by_cases hEmpty : EmptyNext defaultDataMaxSize c.wsProto data.val
    · rw [if_pos hEmpty, parseMsg_threw.mpr hEmpty]
    · rw [if_neg hEmpty]
      cases hEnding : (parseMsg defaultDataMaxSize c.wsProto data.val).2.1 with
      | returned value => rfl
      | threw => exact absurd (parseMsg_threw.mp hEnding) hEmpty

/-- What a run adds when the client goes on after its first event. -/
theorem readAll_running {c' : WsClient} {data : ReadData}
    (h : (onReadDone defaultDataMaxSize c data).2 = .running c') (rest : List ReadData) :
    readAll defaultDataMaxSize c (data :: rest) =
      ((onReadDone defaultDataMaxSize c data).1 ++ (readAll defaultDataMaxSize c' rest).1,
        (readAll defaultDataMaxSize c' rest).2) := by
  rw [readAll, ← Prod.eta (onReadDone defaultDataMaxSize c data), h]

theorem readAll_ended {data : ReadData}
    (h : ∀ c', (onReadDone defaultDataMaxSize c data).2 ≠ .running c') (rest : List ReadData) :
    readAll defaultDataMaxSize c (data :: rest) = onReadDone defaultDataMaxSize c data := by
  rw [readAll]
  split
  · rename_i steps c' hStep
    rw [hStep] at h
    exact absurd rfl (h c')
  · rfl

/-- A connected client passes on nothing but what it reads. -/
theorem parsedBytes_readAll (chunks : List ReadData) (h : c.isWsConnected = true) :
    (parsedBytes (readAll defaultDataMaxSize c chunks).1).length ≤
      (chunks.map Subtype.val).flatten.length := by
  induction chunks generalizing c with
  | nil => exact Nat.le_refl 0
  | cons data rest ih =>
    obtain ⟨hBytes, hNext⟩ := onReadDone_connected defaultDataMaxSize data h
    rw [List.map_cons, List.flatten_cons, List.length_append]
    by_cases hEmpty : EmptyNext defaultDataMaxSize c.wsProto data.val
    · rw [if_pos hEmpty] at hNext
      rw [readAll_ended defaultDataMaxSize (by simp [hNext]), hBytes]
      omega
    · rw [if_neg hEmpty] at hNext
      have hRest := ih (c := { c with
        wsProto := (parseMsg defaultDataMaxSize c.wsProto data.val).2.2 }) h
      rw [readAll_running defaultDataMaxSize hNext, parsedBytes_append, hBytes, List.length_append]
      omega

/-- A connected client passes on all it reads exactly when the parser lasts to the end. -/
theorem readAll_connected (chunks : List ReadData) (h : c.isWsConnected = true) :
    Delivers (chunks.map Subtype.val).flatten (readAll defaultDataMaxSize c chunks) ↔
      LastsToEnd defaultDataMaxSize c.wsProto chunks := by
  induction chunks generalizing c with
  | nil => exact iff_of_true ⟨rfl, c, .inl rfl, h⟩ trivial
  | cons data rest ih =>
    obtain ⟨hBytes, hNext⟩ := onReadDone_connected defaultDataMaxSize data h
    rw [List.map_cons, List.flatten_cons]
    by_cases hEmpty : EmptyNext defaultDataMaxSize c.wsProto data.val
    · rw [if_pos hEmpty] at hNext
      rw [readAll_ended defaultDataMaxSize (by simp [hNext])]
      cases rest with
      | nil => exact iff_of_true ⟨hBytes.trans (List.append_nil _).symm, _, .inr hNext, h⟩ trivial
      | cons next rest =>
        refine iff_of_false ?_ fun hLasts => hLasts.1 hEmpty
        rintro ⟨hAll, -⟩
        have hMore := next.property.1
        have hLength := congrArg List.length (hBytes.symm.trans hAll)
        rw [List.map_cons, List.flatten_cons, List.length_append, List.length_append] at hLength
        omega
    · rw [if_neg hEmpty] at hNext
      have hRest := ih (c := { c with
        wsProto := (parseMsg defaultDataMaxSize c.wsProto data.val).2.2 }) h
      have hCons : LastsToEnd defaultDataMaxSize c.wsProto (data :: rest) ↔
          LastsToEnd defaultDataMaxSize
            (parseMsg defaultDataMaxSize c.wsProto data.val).2.2 rest := by
        cases rest with
        | nil => exact Iff.rfl
        | cons next rest => exact and_iff_right hEmpty
      rw [hCons, ← hRest, readAll_running defaultDataMaxSize hNext]
      unfold Delivers
      dsimp only
      rw [parsedBytes_append, hBytes, List.append_cancel_left_eq]

/-- Before the connection, events without a response are dropped. -/
theorem readAll_dropped (h : c.isWsConnected = false) {pre : List ReadData}
    (hPre : ∀ x ∈ pre, checkHandShake x.val = 0) (rest : List ReadData) :
    readAll defaultDataMaxSize c (pre ++ rest) = readAll defaultDataMaxSize c rest := by
  induction pre with
  | nil => rfl
  | cons data pre ih =>
    have hStep : onReadDone defaultDataMaxSize c data = ([], .running c) := by
      simp only [onReadDone, h, Bool.not_false, if_true, hPre data List.mem_cons_self]
    rw [List.cons_append, readAll, hStep]
    exact ih fun x hIn => hPre x (List.mem_cons_of_mem data hIn)

/-- An event that is a response and nothing else connects the client. -/
theorem readAll_response (h : c.isWsConnected = false) {data : ReadData}
    (hNe : checkHandShake data.val ≠ 0) (hWhole : checkHandShake data.val = data.val.length)
    (F : List UInt8) (post : List ReadData) :
    Delivers F (readAll defaultDataMaxSize c (data :: post)) ↔
      Delivers F (readAll defaultDataMaxSize { c with isWsConnected := true } post) := by
  have hStep : onReadDone defaultDataMaxSize c data =
      ([.connected], .running { c with isWsConnected := true }) := by
    simp only [onReadDone, h, Bool.not_false, if_true, if_neg hNe]
    rw [if_pos (Nat.sub_eq_zero_of_le hWhole.ge)]
  rw [readAll, hStep]
  rfl

/-- A response with bytes behind it in the same event is read past its end. -/
theorem readAll_outOfBounds (h : c.isWsConnected = false) {data : ReadData}
    (hNe : checkHandShake data.val ≠ 0) (hMore : checkHandShake data.val ≠ data.val.length)
    (F : List UInt8) (post : List ReadData) :
    ¬Delivers F (readAll defaultDataMaxSize c (data :: post)) := by
  have hLe := checkHandShake_le data.val
  have hStep : (onReadDone defaultDataMaxSize c data).2 = .outOfBounds := by
    simp only [onReadDone, h, Bool.not_false, if_true, if_neg hNe, toParser, List.length_drop]
    rw [if_neg (by omega), if_pos (by omega)]
  rintro ⟨-, c', hSome, -⟩
  rw [readAll_ended defaultDataMaxSize (by simp [hStep]), hStep] at hSome
  rcases hSome with hSome | hSome <;> cases hSome

/-- The events before the one that ends the response hold none. -/
theorem no_response_before {response : List UInt8} (hAccepted : checkHandShake response = response.length)
    {pre : List ReadData} {data : ReadData} (hEnds : (pre.map Subtype.val).flatten ++ data.val = response)
    (hNe : checkHandShake data.val ≠ 0) : ∀ x ∈ pre, checkHandShake x.val = 0 := by
  intro x hIn
  by_contra hOther
  obtain ⟨front, back, rfl⟩ := List.append_of_mem hIn
  have hWhole : (front.map Subtype.val).flatten ++ x.val ++
      ((back.map Subtype.val).flatten ++ data.val) = response := by
    rw [← hEnds, List.map_append, List.map_cons, List.flatten_append, List.flatten_cons]
    simp only [List.append_assoc]
  rw [← hWhole] at hAccepted
  have hPost := (checkHandShake_inside hOther hAccepted).2
  rw [(List.append_eq_nil_iff.mp hPost).2] at hNe
  exact hNe rfl

/-- Where the bytes behind the response are passed on, the event that holds a response ends it: what is
passed on comes from behind the event, so that the response reaches at least to its end. -/
theorem response_ends {response F : List UInt8} (hAccepted : checkHandShake response = response.length)
    {pre post : List ReadData} {data : ReadData} (hNe : checkHandShake data.val ≠ 0)
    (hStream : ((pre ++ data :: post).map Subtype.val).flatten = response ++ F)
    (hLength : F.length ≤ (post.map Subtype.val).flatten.length) :
    (pre.map Subtype.val).flatten ++ data.val = response ∧ (post.map Subtype.val).flatten = F := by
  rw [List.map_append, List.map_cons, List.flatten_append, List.flatten_cons,
    ← List.append_assoc] at hStream
  have hSizes : ((pre.map Subtype.val).flatten ++ data.val).length +
      (post.map Subtype.val).flatten.length = response.length + F.length := by
    rw [← List.length_append, ← List.length_append, hStream]
  obtain ⟨back, rfl⟩ : (pre.map Subtype.val).flatten ++ data.val <+: response :=
    List.prefix_of_prefix_length_le ⟨_, hStream⟩ ⟨_, rfl⟩ (by omega)
  obtain ⟨-, rfl⟩ := checkHandShake_inside hNe hAccepted
  rw [List.append_nil] at hStream ⊢
  exact ⟨rfl, List.append_cancel_left hStream⟩

/-- **Handshake**: of a response and the bytes behind it, in whatever read events, the client passes
on exactly those bytes, reading no buffer past its end, if and only if the event that ends the
response ends with it and is a response by itself, and none of the events behind it but the last
brings the parser to a message without data. -/
theorem readAll_exact {response F : List UInt8} {chunks : List ReadData}
    (hFresh : c.isWsConnected = false) (hAccepted : checkHandShake response = response.length)
    (hStream : (chunks.map Subtype.val).flatten = response ++ F) :
    Delivers F (readAll defaultDataMaxSize c chunks) ↔
      ∃ pre data post, chunks = pre ++ data :: post ∧
        (pre.map Subtype.val).flatten ++ data.val = response ∧ checkHandShake data.val ≠ 0 ∧
        LastsToEnd defaultDataMaxSize c.wsProto post := by
  constructor
  · intro hDelivers
    by_cases hNone : ∀ x ∈ chunks, checkHandShake x.val = 0
    · obtain ⟨-, c', hSome, hConnected⟩ := hDelivers
      have hDropped := readAll_dropped defaultDataMaxSize hFresh hNone []
      rw [List.append_nil] at hDropped
      rw [hDropped] at hSome
      rcases hSome with hSome | hSome <;> cases hSome
      rw [hFresh] at hConnected
      cases hConnected
    obtain ⟨pre, data, post, rfl, hPre, hNe⟩ := exists_first_response hNone
    rw [readAll_dropped defaultDataMaxSize hFresh hPre] at hDelivers
    by_cases hWhole : checkHandShake data.val = data.val.length
    · rw [readAll_response defaultDataMaxSize hFresh hNe hWhole] at hDelivers
      have hLength := parsedBytes_readAll defaultDataMaxSize
        (c := { c with isWsConnected := true }) post rfl
      rw [hDelivers.1] at hLength
      obtain ⟨hEnds, hRest⟩ := response_ends hAccepted hNe hStream hLength
      rw [← hRest] at hDelivers
      exact ⟨pre, data, post, rfl, hEnds, hNe, (readAll_connected defaultDataMaxSize
        (c := { c with isWsConnected := true }) post rfl).mp hDelivers⟩
    · exact absurd hDelivers (readAll_outOfBounds defaultDataMaxSize hFresh hNe hWhole F post)
  · rintro ⟨pre, data, post, rfl, hEnds, hNe, hLasts⟩
    rw [List.map_append, List.map_cons, List.flatten_append, List.flatten_cons, ← List.append_assoc,
      hEnds] at hStream
    have hData : checkHandShake data.val = data.val.length := by
      refine (@checkHandShake_inside (pre.map Subtype.val).flatten data.val [] hNe ?_).1
      rw [List.append_nil, hEnds, hAccepted]
    have hPre := no_response_before hAccepted hEnds hNe
    rw [readAll_dropped defaultDataMaxSize hFresh hPre,
      readAll_response defaultDataMaxSize hFresh hNe hData, ← List.append_cancel_left hStream]
    exact (readAll_connected defaultDataMaxSize
      (c := { c with isWsConnected := true }) post rfl).mpr hLasts

end

def upgradeResponse : List UInt8 :=
  ascii "HTTP/1.1 101 Switching Protocols\r\nUpgrade: websocket\r\nConnection: Upgrade\r\n\r\n"

/-- A ping frame with one byte of data. -/
def pingFrame : List UInt8 := [0x89, 0x01, 0x41]

/-- The response in an event of its own, and a ping in two. -/
theorem readAll_exact_ping :
    Delivers pingFrame (readAll 1024 ⟨false, .fresh⟩
      [⟨upgradeResponse, by decide⟩, ⟨[0x89, 0x01], by decide⟩, ⟨[0x41], by decide⟩]) := by
  have hAccepted : checkHandShake upgradeResponse = upgradeResponse.length := by decide
  exact (readAll_exact 1024 rfl hAccepted rfl).mpr
    ⟨[], ⟨upgradeResponse, by decide⟩, [⟨[0x89, 0x01], by decide⟩, ⟨[0x41], by decide⟩], rfl, rfl,
      by decide, by decide, trivial⟩

/-- A frame in the same event as the response: the parser is given the size of both. -/
theorem readAll_coalesced :
    ¬∀ (defaultDataMaxSize : UInt32) (c : WsClient) (response F : List UInt8)
      (chunks : List ReadData), c.isWsConnected = false →
      checkHandShake response = response.length → response ≠ [] →
      (chunks.map Subtype.val).flatten = response ++ F →
      Delivers F (readAll defaultDataMaxSize c chunks) := by
  intro h
  obtain ⟨-, c, hEnd, -⟩ := h 1024 ⟨false, .fresh⟩ upgradeResponse pingFrame
    [⟨upgradeResponse ++ pingFrame, by decide⟩] rfl (by decide) (by decide) rfl
  have hFault : (readAll 1024 ⟨false, .fresh⟩ [⟨upgradeResponse ++ pingFrame, by decide⟩]).2 =
      .outOfBounds := rfl
  rw [hFault] at hEnd
  rcases hEnd with hEnd | hEnd <;> cases hEnd

end DemoCode.WebSocket
