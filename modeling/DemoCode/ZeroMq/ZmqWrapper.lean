import Mathlib.Data.List.Basic

/-! The sending side of `CZmqWrapper` in `zmq_wrapper.cpp`: `Send` puts a message in a queue, and
`DoDequeueMsg` hands its frames to `zmq_send`. -/

namespace DemoCode.ZeroMq

abbrev Frame := List UInt8

inductive SocketType where
  | pair | pub | sub | req | rep | dealer | router | pull | push | xpub | xsub | stream
  deriving DecidableEq, Repr

structure ZmqMsg where
  routingID : Frame
  msgVec : List Frame
  deriving DecidableEq, Repr

/-- `Send`: the queue after it, and what it returns.  `notified` tells whether the write to the event
descriptor worked. -/
def send (sendQueue : List (Option ZmqMsg)) (notified : Bool) (msgVec : List Frame)
    (routingID : Frame) : List (Option ZmqMsg) × Int :=
  if msgVec = [] then
    (sendQueue, -1)
  else
    (sendQueue ++ [some ⟨routingID, msgVec⟩], if notified then 0 else -1)

/-- A socket: the frames that were accepted since the last one without `ZMQ_SNDMORE`, the messages that
its peers received, and how many calls of `zmq_send` there were. -/
structure Socket where
  parts : List Frame := []
  received : List (List Frame) := []
  calls : ℕ := 0
  deriving DecidableEq, Repr

/-- `zmq_send`, with whether it accepted the frame; `fails` tells of each call whether it fails. -/
def zmqSend (fails : ℕ → Bool) (s : Socket) (frame : Frame) (sndMore : Bool) : Socket × Bool :=
  if fails s.calls then
    ({ s with calls := s.calls + 1 }, false)
  else if sndMore then
    ({ s with parts := s.parts ++ [frame], calls := s.calls + 1 }, true)
  else
    ({ parts := [], received := s.received ++ [s.parts ++ [frame]], calls := s.calls + 1 }, true)

/-- The loop over the parts before the last one; its `continue` goes on with the next part. -/
def sendParts (fails : ℕ → Bool) (s : Socket) : List Frame → Socket
  | [] => s
  | frame :: rest => sendParts fails (zmqSend fails s frame true).1 rest

/-- The parts of a message, the last one without `ZMQ_SNDMORE`. -/
def sendMsgVec (fails : ℕ → Bool) (s : Socket) (msgVec : List Frame) : Socket :=
  match msgVec.getLast? with
  | none => s
  | some back => (zmqSend fails (sendParts fails s msgVec.dropLast) back false).1

/-- Whether a message goes out behind its routing id. -/
def ZmqMsg.routed (socketType : SocketType) (msg : ZmqMsg) : Bool :=
  msg.routingID ≠ [] ∧ (socketType = .router ∨ socketType = .stream)

/-- One round of the loop of `DoDequeueMsg`. -/
def sendOne (socketType : SocketType) (fails : ℕ → Bool) (s : Socket) (oneMsg : Option ZmqMsg) :
    Socket :=
  match oneMsg with
  | none => s
  | some msg =>
    if msg.msgVec = [] then
      s
    else if msg.routed socketType then
      let (s', ok) := zmqSend fails s msg.routingID true
      if ok then sendMsgVec fails s' msg.msgVec else s'
    else
      sendMsgVec fails s msg.msgVec

/-- `DoDequeueMsg`, until the queue is empty. -/
def doDequeueMsg (socketType : SocketType) (fails : ℕ → Bool) (s : Socket) :
    List (Option ZmqMsg) → Socket
  | [] => s
  | oneMsg :: rest => doDequeueMsg socketType fails (sendOne socketType fails s oneMsg) rest

end DemoCode.ZeroMq
