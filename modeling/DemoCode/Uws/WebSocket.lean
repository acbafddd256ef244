import DemoCode.Lib.Endian
import DemoCode.Uws.Utf8

/-! `WebSocket` of uWS: the state of a connection, and what `handleFragment` makes of the payloads that
the protocol takes out of the stream.  Inflating and the handlers of the group are parameters; a
handler has a state of its own and may close or terminate the connection. -/

namespace DemoCode.Uws

namespace OpCode

def text : UInt8 := 1
def binary : UInt8 := 2
def close : UInt8 := 8
def ping : UInt8 := 9
def pong : UInt8 := 10

end OpCode

inductive CompressionStatus where
  | disabled
  | enabled
  | compressedFrame
  deriving DecidableEq, Repr

/-- What a connection does, in order: calls of the handlers, and messages that are sent. -/
inductive Event where
  | message (opCode : UInt8) (data : List UInt8)
  | ping (data : List UInt8)
  | pong (data : List UInt8)
  | disconnection (code : ℕ) (message : List UInt8)
  | send (opCode : UInt8) (data : List UInt8)
  deriving DecidableEq, Repr

/-- What a handler does to the connection. -/
inductive Ending where
  | none
  | close
  | terminate
  deriving DecidableEq, Repr

/-- What the protocol keeps between two reads.  `spill` has the first `spillLength` bytes of its array,
and `opStack` the operation codes up to the index `opStack`, the last one first. -/
structure WebSocketState where
  wantsHead : Bool := true
  spill : List UInt8 := []
  opStack : List UInt8 := []
  lastFin : Bool := true
  remainingBytes : ℕ := 0
  mask : List UInt8 := [0, 0, 0, 0]
  deriving DecidableEq, Repr

/-- A connection.  `user` is what its handlers keep, and `out` what it has done so far. -/
structure WebSocket (σ : Type) extends WebSocketState where
  fragmentBuffer : List UInt8 := []
  compressionStatus : CompressionStatus := .disabled
  controlTipLength : ℕ := 0
  hasOutstandingPong : Bool := false
  shuttingDown : Bool := false
  closed : Bool := false
  user : σ
  out : List Event := []
  deriving DecidableEq

/-- What a `Group` brings to its connections. -/
structure Group (σ : Type) where
  maxPayload : UInt32
  inflate : List UInt8 → Option (List UInt8)
  handler : σ → Event → σ × Ending
  disconnectionHandler : σ → ℕ → List UInt8 → σ

variable {σ : Type}

namespace WebSocket

/-- `isClosed() || isShuttingDown()` -/
def ended (w : WebSocket σ) : Bool := w.closed || w.shuttingDown

/-- A handler of the group is called. -/
def call (g : Group σ) (event : Event) (w : WebSocket σ) : WebSocket σ :=
  let (user, ending) := g.handler w.user event
  { w with
    user := user
    out := w.out ++ [event]
    closed := w.closed || ending = .terminate
    shuttingDown := w.shuttingDown || ending = .close }

def disconnect (g : Group σ) (code : ℕ) (message : List UInt8) (w : WebSocket σ) : WebSocket σ :=
  { w with
    user := g.disconnectionHandler w.user code message
    out := w.out ++ [.disconnection code message] }

def send (opCode : UInt8) (message : List UInt8) (w : WebSocket σ) : WebSocket σ :=
  { w with out := w.out ++ [.send opCode message] }

/-- `terminate`, by `onEnd`. -/
def forceClose (g : Group σ) (w : WebSocket σ) : WebSocket σ :=
  let w := if w.shuttingDown then w else w.disconnect g 1006 []
  { w with closed := true }

end WebSocket

structure CloseFrame where
  code : ℕ := 0
  message : List UInt8 := []
  deriving DecidableEq, Repr

/-- The codes that a close frame may not have. -/
def badCode (code : ℕ) : Bool :=
  code < 1000 || 4999 < code || (1011 < code && code < 4000) || (1004 ≤ code && code ≤ 1006)

def parseClosePayload (src : List UInt8) : CloseFrame :=
  match src with
  | b0 :: b1 :: message =>
    let code := Endian.ofBig [b0, b1]
    if badCode code || !isValidUtf8 message then {} else ⟨code, message⟩
  | _ => {}

def formatClosePayload (code : ℕ) (message : List UInt8) : List UInt8 :=
  if code % 2 ^ 16 ≠ 0 then Endian.big 2 code ++ message else []

def maxClosePayload : ℕ := 123

namespace WebSocket

def close (g : Group σ) (code : ℕ) (message : List UInt8) (w : WebSocket σ) : WebSocket σ :=
  let message := message.take maxClosePayload
  let w := w.disconnect g code message
  let w := { w with shuttingDown := true }
  w.send OpCode.close (formatClosePayload code message)

/-- The data of a message, inflated if its first frame was compressed. -/
def inflated (g : Group σ) (data : List UInt8) (w : WebSocket σ) :
    Option (List UInt8) × WebSocket σ :=
  if w.compressionStatus = .compressedFrame then
    (g.inflate data, { w with compressionStatus := .enabled })
  else (some data, w)

/-- A message that is inflated. -/
def deliver (g : Group σ) (opCode : UInt8) (data : List UInt8) (w : WebSocket σ) :
    Bool × WebSocket σ :=
  if opCode = 1 && !isValidUtf8 data then (true, w.forceClose g)
  else
    let w := w.call g (.message opCode data)
    (w.ended, w)

/-- A whole message. -/
def handleMessage (g : Group σ) (opCode : UInt8) (data : List UInt8) (w : WebSocket σ) :
    Bool × WebSocket σ :=
  match w.inflated g data with
  | (none, w) => (true, w.forceClose g)
  | (some data, w) => w.deliver g opCode data

/-- A whole control frame. -/
def handleControl (g : Group σ) (opCode : UInt8) (data : List UInt8) (w : WebSocket σ) :
    Bool × WebSocket σ :=
  if opCode = OpCode.close then
    let closeFrame := parseClosePayload data
    (true, w.close g closeFrame.code closeFrame.message)
  else if opCode = OpCode.ping then
    let w := (w.send OpCode.pong data).call g (.ping data)
    (w.ended, w)
  else if opCode = OpCode.pong then
    let w := w.call g (.pong data)
    (w.ended, w)
  else (false, w)

/-- `handleFragment`; it tells whether the connection has ended. -/
def handleFragment (g : Group σ) (data : List UInt8) (remainingBytes : ℕ) (opCode : UInt8)
    (fin : Bool) (w : WebSocket σ) : Bool × WebSocket σ :=
  if opCode < 3 then
    if remainingBytes = 0 ∧ fin ∧ w.fragmentBuffer = [] then w.handleMessage g opCode data
    else
      let w := { w with fragmentBuffer := w.fragmentBuffer ++ data }
      if remainingBytes = 0 ∧ fin then
        let (stop, w) := w.handleMessage g opCode w.fragmentBuffer
        if stop then (true, w) else (false, { w with fragmentBuffer := [] })
      else (false, w)
  else
    if remainingBytes = 0 ∧ fin ∧ w.controlTipLength = 0 then w.handleControl g opCode data
    else
      let w := { w with
        fragmentBuffer := w.fragmentBuffer ++ data
        controlTipLength := (w.controlTipLength + data.length) % 2 ^ 8 }
      if remainingBytes = 0 ∧ fin then
        let kept := w.fragmentBuffer.length - w.controlTipLength
        let (stop, w) := w.handleControl g opCode (w.fragmentBuffer.drop kept)
        if stop then (true, w)
        else (false, { w with fragmentBuffer := w.fragmentBuffer.take kept, controlTipLength := 0 })
      else (false, w)

end WebSocket

end DemoCode.Uws
