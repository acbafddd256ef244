import Mathlib.Data.Nat.Pairing
import Mathlib.Data.List.Pairwise
import DemoCode.ZeroMq.ZmqWrapper

/-! What the peers receive when calls of `zmq_send` fail.  A part that fails is left out of its message,
and when the last part fails, the others wait on the socket and join the next message. -/

namespace DemoCode.ZeroMq

variable {socketType : SocketType} {fails : ℕ → Bool}

/-- A message as a peer should receive it. -/
def ZmqMsg.wire (socketType : SocketType) (msg : ZmqMsg) : List Frame :=
  if msg.routed socketType then msg.routingID :: msg.msgVec else msg.msgVec

/-- Every message that was received is one of the queue. -/
def AllOrNothing (socketType : SocketType) (queue : List (Option ZmqMsg))
    (received : List (List Frame)) : Prop :=
  ∀ m ∈ received, ∃ msg, some msg ∈ queue ∧ m = msg.wire socketType

/-- What decides how a message is sent: whether it has a routing id, and how many parts. -/
structure Shape where
  addressed : Bool
  parts : ℕ
  deriving DecidableEq, Repr

def ZmqMsg.shape (msg : ZmqMsg) : Shape := ⟨msg.routingID ≠ [], msg.msgVec.length⟩

def Shape.routed (socketType : SocketType) (shape : Shape) : Bool :=
  shape.addressed ∧ (socketType = .router ∨ socketType = .stream)

/-- How many frames come before the last one. -/
def Shape.front (socketType : SocketType) (shape : Shape) : ℕ :=
  if shape.routed socketType then shape.parts else shape.parts - 1

def noneFails (fails : ℕ → Bool) (calls n : ℕ) : Bool := (List.range n).all fun j => !fails (calls + j)

def allFail (fails : ℕ → Bool) (calls n : ℕ) : Bool := (List.range n).all fun j => fails (calls + j)

/-- The condition on the failures: whenever the last part of a message is accepted, so was each frame
before it, and no frame of an earlier message was accepted without its last part and still waits. -/
def Clean (socketType : SocketType) (fails : ℕ → Bool) : ℕ → Bool → List (Option Shape) → Prop
  | _, _, [] => True
  | calls, waits, none :: rest => Clean socketType fails calls waits rest
  | calls, waits, some shape :: rest =>
    if shape.parts = 0 then
      Clean socketType fails calls waits rest
    else if shape.routed socketType ∧ fails calls then
      Clean socketType fails (calls + 1) waits rest
    else
      let front := shape.front socketType
      if fails (calls + front) then
        Clean socketType fails (calls + front + 1) (waits || !allFail fails calls front) rest
      else
        waits = false ∧ noneFails fails calls front ∧
          Clean socketType fails (calls + front + 1) false rest

/-! ### The frames of one message -/

/-- The frames that are accepted, from a call on. -/
def accepted (fails : ℕ → Bool) : ℕ → List Frame → List Frame
  | _, [] => []
  | calls, frame :: rest =>
    if fails calls then accepted fails (calls + 1) rest
    else frame :: accepted fails (calls + 1) rest

theorem accepted_sublist (fails : ℕ → Bool) (calls : ℕ) (frames : List Frame) :
    (accepted fails calls frames).Sublist frames := by
  induction frames generalizing calls with
  | nil => exact List.Sublist.refl []
  | cons frame rest ih =>
    rw [accepted]
    split
    next => exact (ih (calls + 1)).cons frame
    next => exact (ih (calls + 1)).cons_cons frame

theorem noneFails_succ (calls n : ℕ) :
    noneFails fails calls (n + 1) = (!fails calls && noneFails fails (calls + 1) n) := by
  simp [noneFails, List.range_succ_eq_map, Function.comp_def, Nat.add_assoc, Nat.add_comm 1]

theorem allFail_succ (calls n : ℕ) :
    allFail fails calls (n + 1) = (fails calls && allFail fails (calls + 1) n) := by
  simp [allFail, List.range_succ_eq_map, Function.comp_def, Nat.add_assoc, Nat.add_comm 1]

theorem accepted_eq_iff (calls : ℕ) (frames : List Frame) :
    accepted fails calls frames = frames ↔ noneFails fails calls frames.length = true := by
  induction frames generalizing calls with
  | nil => simp [accepted, noneFails]
  | cons frame rest ih =>
    rw [accepted, List.length_cons, noneFails_succ]
    cases hFails : fails calls with
    | true =>
      have hShort : accepted fails (calls + 1) rest ≠ frame :: rest := fun hEq => by
        have hLe := (accepted_sublist fails (calls + 1) rest).length_le
        rw [hEq, List.length_cons] at hLe
        omega
      simpa using hShort
    | false => simpa using ih (calls + 1)

theorem accepted_nil_iff (fails : ℕ → Bool) (calls : ℕ) (frames : List Frame) :
    accepted fails calls frames = [] ↔ allFail fails calls frames.length = true := by
  induction frames generalizing calls with
  | nil => simp [accepted, allFail]
  | cons frame rest ih =>
    rw [accepted, List.length_cons, allFail_succ]
    cases hFails : fails calls with
    | true => simpa using ih (calls + 1)
    | false => simp

theorem sendParts_eq (s : Socket) (frames : List Frame) :
    sendParts fails s frames = { s with
      parts := s.parts ++ accepted fails s.calls frames
      calls := s.calls + frames.length } := by
  induction frames generalizing s with
  | nil => simp [sendParts, accepted]
  | cons frame rest ih =>
    rw [sendParts, ih, accepted]
    cases hFails : fails s.calls with
    | true => simp [zmqSend, hFails, Nat.add_assoc, Nat.add_comm 1]
    | false => simp [zmqSend, hFails, Nat.add_assoc, Nat.add_comm 1]

theorem sendMsgVec_concat (s : Socket) (front : List Frame) (back : Frame) :
    sendMsgVec fails s (front ++ [back]) = (zmqSend fails (sendParts fails s front) back false).1 := by
  rw [sendMsgVec, List.getLast?_concat, List.dropLast_concat]

theorem routed_shape (socketType : SocketType) (msg : ZmqMsg) :
    msg.shape.routed socketType = msg.routed socketType := by
  simp [Shape.routed, ZmqMsg.shape, ZmqMsg.routed]

theorem shape_front (socketType : SocketType) (msg : ZmqMsg) : msg.shape.front socketType =
    if msg.routed socketType then msg.msgVec.length else msg.msgVec.length - 1 := by
  rw [Shape.front, routed_shape]
  rfl

/-- The socket after a message whose frames before the last one are `front`. -/
def Socket.sent (s : Socket) (fails : ℕ → Bool) (front : List Frame) (back : Frame) : Socket :=
  if fails (s.calls + front.length) then
    { s with
      parts := s.parts ++ accepted fails s.calls front
      calls := s.calls + front.length + 1 }
  else
    { parts := []
      received := s.received ++ [s.parts ++ accepted fails s.calls front ++ [back]]
      calls := s.calls + front.length + 1 }

theorem zmqSend_sent (s : Socket) (front : List Frame) (back : Frame) :
    (zmqSend fails (sendParts fails s front) back false).1 = s.sent fails front back := by
  rw [sendParts_eq, zmqSend, Socket.sent]
  cases hFails : fails (s.calls + front.length) <;> simp

/-- **Step lemma**: a message with parts, unless its routing id is not accepted. -/
theorem sendOne_sent (s : Socket) {msg : ZmqMsg} (hParts : msg.msgVec ≠ [])
    (hFirst : ¬ (msg.routed socketType = true ∧ fails s.calls = true)) :
    ∃ front back, msg.wire socketType = front ++ [back] ∧
      front.length = msg.shape.front socketType ∧
      sendOne socketType fails s (some msg) = s.sent fails front back := by
  obtain ⟨front, back, hVec⟩ := (List.eq_nil_or_concat msg.msgVec).resolve_left hParts
  rw [List.concat_eq_append] at hVec
  cases hRouted : msg.routed socketType with
  | false =>
    refine ⟨front, back, by simp [ZmqMsg.wire, hRouted, hVec], ?_, ?_⟩
    · simp [shape_front, hRouted, hVec]
    · rw [sendOne, if_neg hParts, hRouted, hVec, sendMsgVec_concat, zmqSend_sent]
      rfl
  | true =>
    have hAccepts : fails s.calls = false := by simpa [hRouted] using hFirst
    refine ⟨msg.routingID :: front, back, by simp [ZmqMsg.wire, hRouted, hVec], ?_, ?_⟩
    · simp [shape_front, hRouted, hVec]
    · have hOk : (zmqSend fails s msg.routingID true).2 = true := by simp [zmqSend, hAccepts]
      rw [sendOne, if_neg hParts, if_pos hRouted, ← zmqSend_sent, sendParts, ← sendMsgVec_concat, ← hVec]
      simp only [hOk, if_true]

/-- A message that is skipped: it has no parts, or its routing id is not accepted. -/
theorem sendOne_routing_fails (s : Socket) {msg : ZmqMsg} (hParts : msg.msgVec ≠ [])
    (hRouted : msg.routed socketType = true) (hFails : fails s.calls = true) :
    sendOne socketType fails s (some msg) = { s with calls := s.calls + 1 } := by
  simp [sendOne, hParts, hRouted, zmqSend, hFails]

/-! ### The condition, message by message -/

/-- Whether frames wait on a socket. -/
def Socket.waits (s : Socket) : Bool := s.parts ≠ []

/-- Whether the rest of a queue meets the condition. -/
def CleanFrom (socketType : SocketType) (fails : ℕ → Bool) (s : Socket)
    (queue : List (Option ZmqMsg)) : Prop :=
  Clean socketType fails s.calls s.waits (queue.map (Option.map ZmqMsg.shape))

/-- **Step lemma**: what one message does to the socket and to the condition.  Either nothing is
received, or the frames that waited and the accepted ones of this message are. -/
theorem sendOne_cases (socketType : SocketType) (fails : ℕ → Bool) (s : Socket) (msg : ZmqMsg)
    (rest : List (Option ZmqMsg)) :
    ((sendOne socketType fails s (some msg)).received = s.received ∧
      (∀ frame ∈ (sendOne socketType fails s (some msg)).parts,
        frame ∈ s.parts ∨ frame ∈ msg.wire socketType) ∧
      (CleanFrom socketType fails s (some msg :: rest) ↔
        CleanFrom socketType fails (sendOne socketType fails s (some msg)) rest)) ∨
    ∃ front back, msg.wire socketType = front ++ [back] ∧
      (sendOne socketType fails s (some msg)).parts = [] ∧
      (sendOne socketType fails s (some msg)).received =
        s.received ++ [s.parts ++ accepted fails s.calls front ++ [back]] ∧
      (CleanFrom socketType fails s (some msg :: rest) ↔
        s.parts = [] ∧ accepted fails s.calls front = front ∧
          CleanFrom socketType fails (sendOne socketType fails s (some msg)) rest) := by
  rw [CleanFrom, List.map_cons, Option.map_some, Clean, routed_shape]
  by_cases hParts : msg.msgVec = []
  · have hNone : msg.shape.parts = 0 := by simp [ZmqMsg.shape, hParts]
    rw [if_pos hNone, sendOne, if_pos hParts]
    exact .inl ⟨rfl, fun _ => .inl, Iff.rfl⟩
  have hSome : ¬ msg.shape.parts = 0 := by simpa [ZmqMsg.shape] using hParts
  rw [if_neg hSome]
  by_cases hFirst : msg.routed socketType = true ∧ fails s.calls = true
  · rw [if_pos hFirst, sendOne_routing_fails s hParts hFirst.1 hFirst.2]
    exact .inl ⟨rfl, fun _ => .inl, Iff.rfl⟩
  obtain ⟨front, back, hWire, hFront, hSent⟩ := sendOne_sent s hParts hFirst
  rw [if_neg hFirst, ← hFront, hSent]
  cases hLast : fails (s.calls + front.length) with
  | true =>
    have hAfter : s.sent fails front back = { s with
        parts := s.parts ++ accepted fails s.calls front
        calls := s.calls + front.length + 1 } := by
      rw [Socket.sent, if_pos hLast]
    rw [hAfter]
    refine .inl ⟨rfl, fun frame hFrame => ?_, ?_⟩
    · rcases List.mem_append.mp hFrame with hOld | hNew
      · exact .inl hOld
      · rw [hWire]
        exact .inr (List.mem_append_left _ ((accepted_sublist fails s.calls front).subset hNew))
    · have hWaits : Socket.waits { s with
          parts := s.parts ++ accepted fails s.calls front
          calls := s.calls + front.length + 1 } = (s.waits || !allFail fails s.calls front.length) := by
        have hNil := accepted_nil_iff fails s.calls front
        rw [Bool.eq_iff_iff]
        simp [Socket.waits, hNil, imp_iff_not_or]
      rw [if_pos hLast, CleanFrom, hWaits]
  | false =>
    have hAfter : s.sent fails front back =
        { parts := []
          received := s.received ++ [s.parts ++ accepted fails s.calls front ++ [back]]
          calls := s.calls + front.length + 1 } := by
      rw [Socket.sent, hLast]
      rfl
    rw [hAfter]
    refine .inr ⟨front, back, hWire, rfl, rfl, ?_⟩
    rw [accepted_eq_iff]
    simp [CleanFrom, Socket.waits, hLast]

/-- Clean failures are enough, whatever the frames are. -/
theorem allOrNothing_of_clean (queue : List (Option ZmqMsg)) {s : Socket}
    {rest : List (Option ZmqMsg)} (hIn : ∀ msg, some msg ∈ rest → some msg ∈ queue)
    (hHere : AllOrNothing socketType queue s.received) (hClean : CleanFrom socketType fails s rest) :
    AllOrNothing socketType queue (doDequeueMsg socketType fails s rest).received := by
  induction rest generalizing s with
  | nil => exact hHere
  | cons oneMsg rest ih =>
    have hLater : ∀ msg, some msg ∈ rest → some msg ∈ queue :=
      fun msg hMsg => hIn msg (List.mem_cons_of_mem oneMsg hMsg)
    rw [doDequeueMsg]
    cases oneMsg with
    | none => exact ih hLater hHere hClean
    | some msg =>
      rcases sendOne_cases socketType fails s msg rest with
        ⟨hSame, -, hIff⟩ | ⟨front, back, hWire, -, hNew, hIff⟩
      · exact ih hLater (hSame ▸ hHere) (hIff.mp hClean)
      · obtain ⟨hNil, hWhole, hNext⟩ := hIff.mp hClean
        refine ih hLater (fun m hm => ?_) hNext
        rw [hNew, hNil, hWhole, List.nil_append, ← hWire, List.mem_append, List.mem_singleton] at hm
        rcases hm with hOld | rfl
        · exact hHere m hOld
        · exact ⟨msg, hIn msg List.mem_cons_self, rfl⟩

/-! ### Other failures are not, when the frames tell the messages apart -/

/-- No two messages of a queue share a frame. -/
def Apart (socketType : SocketType) (queue : List (Option ZmqMsg)) : Prop :=
  queue.Pairwise fun a b => ∀ m ∈ a, ∀ m' ∈ b, (m.wire socketType).Disjoint (m'.wire socketType)

theorem doDequeueMsg_received (s : Socket) (queue : List (Option ZmqMsg)) :
    s.received <+: (doDequeueMsg socketType fails s queue).received := by
  induction queue generalizing s with
  | nil => exact List.prefix_rfl
  | cons oneMsg rest ih =>
    rw [doDequeueMsg]
    cases oneMsg with
    | none => exact ih s
    | some msg =>
      rcases sendOne_cases socketType fails s msg rest with
        ⟨hSame, -⟩ | ⟨front, back, -, -, hNew, -⟩
      · exact hSame ▸ ih _
      · exact (hNew ▸ List.prefix_append s.received _).trans (ih _)

/-- A frame belongs to one message of such a queue only. -/
theorem Apart.eq {done rest : List (Option ZmqMsg)} {msg m : ZmqMsg} {frame : Frame}
    (h : Apart socketType (done ++ some msg :: rest)) (hm : some m ∈ done ++ some msg :: rest)
    (hFrame : frame ∈ msg.wire socketType) (hIn : frame ∈ m.wire socketType) :
    m = msg ∧ some m ∉ done := by
  obtain ⟨-, hLater, hCross⟩ := List.pairwise_append.mp h
  have hNot : some m ∉ done := fun hDone =>
    hCross (some m) hDone (some msg) List.mem_cons_self m rfl msg rfl hIn hFrame
  refine ⟨?_, hNot⟩
  rcases List.mem_append.mp hm with hDone | hRest
  · exact absurd hDone hNot
  rcases List.mem_cons.mp hRest with hSame | hAfter
  · exact Option.some.inj hSame
  · exact (List.rel_of_pairwise_cons hLater hAfter msg rfl m rfl hFrame hIn).elim

/-- Frames of earlier messages and the last frame of this one are a message of the queue only if they
are this message. -/
theorem Apart.whole {done rest : List (Option ZmqMsg)} {msg m : ZmqMsg} {waiting front taken : List Frame}
    {back : Frame} (h : Apart socketType (done ++ some msg :: rest))
    (hWaiting : ∀ frame ∈ waiting, ∃ msg, some msg ∈ done ∧ frame ∈ msg.wire socketType)
    (hWire : msg.wire socketType = front ++ [back]) (hm : some m ∈ done ++ some msg :: rest)
    (hEq : m.wire socketType = waiting ++ taken ++ [back]) : waiting = [] ∧ taken = front := by
  have hBack : back ∈ m.wire socketType := by
    rw [hEq]
    simp
  obtain ⟨rfl, hNot⟩ := h.eq hm (by simp [hWire]) hBack
  have hNil : waiting = [] := by
    apply List.eq_nil_iff_forall_not_mem.mpr
    intro frame hFrame
    obtain ⟨m', hDone, hFrameIn⟩ := hWaiting frame hFrame
    have hHere : frame ∈ m.wire socketType := by
      rw [hEq]
      simp [hFrame]
    obtain ⟨rfl, hNot'⟩ := h.eq (List.mem_append_left _ hDone) hHere hFrameIn
    exact hNot' hDone
  refine ⟨hNil, ?_⟩
  rw [hNil, List.nil_append, hWire] at hEq
  exact (List.append_cancel_right hEq).symm

theorem clean_of_allOrNothing {done rest : List (Option ZmqMsg)} {s : Socket}
    (hApart : Apart socketType (done ++ rest))
    (hParts : ∀ frame ∈ s.parts, ∃ msg, some msg ∈ done ∧ frame ∈ msg.wire socketType)
    (hAll : AllOrNothing socketType (done ++ rest)
      (doDequeueMsg socketType fails s rest).received) : CleanFrom socketType fails s rest := by
  induction rest generalizing s done with
  | nil => exact trivial
  | cons oneMsg rest ih =>
    have hShift : done ++ oneMsg :: rest = done ++ [oneMsg] ++ rest := by simp
    cases oneMsg with
    | none =>
      rw [hShift] at hApart hAll
      refine ih hApart (fun frame hFrame => ?_) hAll
      obtain ⟨msg, hDone, hIn⟩ := hParts frame hFrame
      exact ⟨msg, List.mem_append_left _ hDone, hIn⟩
    | some msg =>
      have hLast : some msg ∈ done ++ [some msg] := by simp
      rw [doDequeueMsg] at hAll
      rcases sendOne_cases socketType fails s msg rest with
        ⟨-, hFrames, hIff⟩ | ⟨front, back, hWire, hNone, hNew, hIff⟩
      · rw [hIff]
        rw [hShift] at hApart hAll
        refine ih hApart (fun frame hFrame => ?_) hAll
        rcases hFrames frame hFrame with hOld | hHere
        · obtain ⟨m, hDone, hIn⟩ := hParts frame hOld
          exact ⟨m, List.mem_append_left _ hDone, hIn⟩
        · exact ⟨msg, hLast, hHere⟩
      · rw [hIff]
        -- what was received has the last frame of this message, so it has to be this message
        have hReceived : s.parts ++ accepted fails s.calls front ++ [back] ∈
            (doDequeueMsg socketType fails (sendOne socketType fails s (some msg)) rest).received := by
          refine (doDequeueMsg_received _ rest).subset ?_
          rw [hNew]
          simp
        obtain ⟨m, hIn, hEq⟩ := hAll _ hReceived
        obtain ⟨hNil, hWhole⟩ := hApart.whole hParts hWire hIn hEq.symm
        rw [hShift] at hApart hAll
        refine ⟨hNil, hWhole, ih hApart (fun frame hFrame => ?_) hAll⟩
        rw [hNone] at hFrame
        cases hFrame

/-! ### Frames that tell the messages apart -/

/-- Frame `k` of message `n`. -/
def label (n k : ℕ) : Frame := List.replicate (Nat.pair n k + 1) 0

theorem label_inj {n k n' k' : ℕ} (h : label n k = label n' k') : n = n' := by
  have hLength := congrArg List.length h
  simp only [label, List.length_replicate, Nat.add_right_cancel_iff] at hLength
  exact (Nat.pair_eq_pair.mp hLength).1

/-- A message of the same shape with the labels of message `n`. -/
def ZmqMsg.relabel (n : ℕ) (msg : ZmqMsg) : ZmqMsg where
  routingID := if msg.routingID = [] then [] else label n 0
  msgVec := (List.range msg.msgVec.length).map fun k => label n (k + 1)

/-- A queue of the same shape with a label for each frame. -/
def relabel : ℕ → List (Option ZmqMsg) → List (Option ZmqMsg)
  | _, [] => []
  | n, oneMsg :: rest => oneMsg.map (ZmqMsg.relabel n) :: relabel (n + 1) rest

theorem ZmqMsg.relabel_shape (n : ℕ) (msg : ZmqMsg) : (msg.relabel n).shape = msg.shape := by
  by_cases hId : msg.routingID = [] <;> simp [ZmqMsg.relabel, ZmqMsg.shape, hId, label]

theorem ZmqMsg.relabel_wire {n : ℕ} {msg : ZmqMsg} {frame : Frame}
    (h : frame ∈ (msg.relabel n).wire socketType) : ∃ k, frame = label n k := by
  have hVec : ∀ part ∈ (msg.relabel n).msgVec, ∃ k, part = label n k := by
    intro part hPart
    obtain ⟨k, -, rfl⟩ := List.mem_map.mp hPart
    exact ⟨k + 1, rfl⟩
  rw [ZmqMsg.wire] at h
  split at h
  next hRouted =>
    rcases List.mem_cons.mp h with rfl | hPart
    · have hId : msg.routingID ≠ [] := by
        intro hEmpty
        simp [ZmqMsg.routed, ZmqMsg.relabel, hEmpty] at hRouted
      exact ⟨0, if_neg hId⟩
    · exact hVec frame hPart
  next => exact hVec frame h

theorem relabel_shape (n : ℕ) (queue : List (Option ZmqMsg)) :
    (relabel n queue).map (Option.map ZmqMsg.shape) = queue.map (Option.map ZmqMsg.shape) := by
  induction queue generalizing n with
  | nil => rfl
  | cons oneMsg rest ih =>
    have hSame : ZmqMsg.shape ∘ ZmqMsg.relabel n = ZmqMsg.shape := funext fun msg => msg.relabel_shape n
    rw [relabel, List.map_cons, List.map_cons, ih, Option.map_map, hSame]

theorem mem_relabel {n : ℕ} {queue : List (Option ZmqMsg)} {msg : ZmqMsg}
    (h : some msg ∈ relabel n queue) : ∃ j msg', n ≤ j ∧ msg = ZmqMsg.relabel j msg' := by
  induction queue generalizing n with
  | nil => cases h
  | cons oneMsg rest ih =>
    rcases List.mem_cons.mp h with hHere | hLater
    · obtain ⟨msg', -, hEq⟩ := Option.map_eq_some_iff.mp hHere.symm
      exact ⟨n, msg', Nat.le_refl n, hEq.symm⟩
    · obtain ⟨j, msg', hLe, hEq⟩ := ih hLater
      exact ⟨j, msg', by omega, hEq⟩

theorem relabel_apart (n : ℕ) (queue : List (Option ZmqMsg)) :
    Apart socketType (relabel n queue) := by
  induction queue generalizing n with
  | nil => exact List.Pairwise.nil
  | cons oneMsg rest ih =>
    refine List.Pairwise.cons (fun other hOther m hm m' hm' frame hFrame hFrame' => ?_) (ih (n + 1))
    obtain ⟨msg, -, rfl⟩ := Option.map_eq_some_iff.mp hm
    obtain ⟨j, msg', hLe, rfl⟩ := mem_relabel (hm' ▸ hOther)
    obtain ⟨k, rfl⟩ := ZmqMsg.relabel_wire hFrame
    obtain ⟨k', hEq⟩ := ZmqMsg.relabel_wire hFrame'
    have hSame := label_inj hEq
    omega

/-- The peers receive only messages of the queue, for every queue of a shape, exactly if the failures
are clean for this shape. -/
theorem allOrNothing_iff (socketType : SocketType) (fails : ℕ → Bool)
    (queue : List (Option ZmqMsg)) :
    (∀ queue', queue'.map (Option.map ZmqMsg.shape) = queue.map (Option.map ZmqMsg.shape) →
      AllOrNothing socketType queue' (doDequeueMsg socketType fails {} queue').received) ↔
    Clean socketType fails 0 false (queue.map (Option.map ZmqMsg.shape)) := by
  constructor
  · intro hAll
    have hLabelled := hAll (relabel 0 queue) (relabel_shape 0 queue)
    have hApart : Apart socketType ([] ++ relabel 0 queue) := relabel_apart 0 queue
    have hClean : CleanFrom socketType fails {} (relabel 0 queue) :=
      clean_of_allOrNothing hApart (fun _ hFrame => absurd hFrame nofun) hLabelled
    rwa [CleanFrom, relabel_shape] at hClean
  · intro hClean queue' hShape
    refine allOrNothing_of_clean queue' (fun _ => id) (fun _ hm => absurd hm nofun) ?_
    rw [CleanFrom, hShape]
    exact hClean

/-- The first of the three parts of the only message is not accepted. -/
theorem not_allOrNothing :
    ¬ AllOrNothing .dealer (send [] true [[1], [2], [3]] []).1
      (doDequeueMsg .dealer (fun n => n = 0) {} (send [] true [[1], [2], [3]] []).1).received := by
  intro h
  obtain ⟨msg, hIn, hEq⟩ := h [[2], [3]] (by decide)
  obtain rfl : msg = ⟨[], [[1], [2], [3]]⟩ := by simpa [send] using hIn
  cases hEq

end DemoCode.ZeroMq
