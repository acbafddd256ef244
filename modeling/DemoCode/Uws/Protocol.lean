import DemoCode.Uws.Unmask
import DemoCode.Uws.WebSocket

/-! `WebSocketProtocol::consume` in `WebSocketProtocol.h`, on the receive buffer: what was left of the
last read is put in front of the new bytes, frames are unmasked where they stand, and a frame that
is not there to its end is handed on in parts.  Every access to the buffer is checked. -/

namespace DemoCode.Uws

variable {σ : Type}

def shortMessageHeader (isServer : Bool) : ℕ := if isServer then 6 else 2
def mediumMessageHeader (isServer : Bool) : ℕ := if isServer then 8 else 4
def longMessageHeader (isServer : Bool) : ℕ := if isServer then 14 else 10

def isFin (b0 : UInt8) : Bool := b0 &&& 128 ≠ 0
def getOpCode (b0 : UInt8) : UInt8 := b0 &&& 15
def payloadLength (b1 : UInt8) : UInt8 := b1 &&& 127
def rsv23 (b0 : UInt8) : Bool := b0 &&& 48 ≠ 0
def rsv1 (b0 : UInt8) : Bool := b0 &&& 64 ≠ 0

/-- The size of a header by its second byte. -/
def headerLength (isServer : Bool) (b1 : UInt8) : ℕ :=
  if payloadLength b1 < 126 then shortMessageHeader isServer
  else if payloadLength b1 = 126 then mediumMessageHeader isServer
  else longMessageHeader isServer

/-- The length that a header states. -/
def statedLength (header : List UInt8) (b1 : UInt8) : ℕ :=
  if payloadLength b1 < 126 then (payloadLength b1).toNat
  else if payloadLength b1 = 126 then Endian.ofBig ((header.drop 2).take 2)
  else Endian.ofBig ((header.drop 2).take 8)

/-- `Impl::setCompressed` -/
def setCompressed (w : WebSocket σ) : Option (WebSocket σ) :=
  if w.compressionStatus = .enabled then some { w with compressionStatus := .compressedFrame }
  else none

/-- The test of a frame's first two bytes; nothing when the connection is to be closed. -/
def checkHead (b0 b1 : UInt8) (w : WebSocket σ) : Option (WebSocket σ) := do
  let w ← if rsv1 b0 then setCompressed w else some w
  if rsv23 b0 || (2 < getOpCode b0 && getOpCode b0 < 8) || 10 < getOpCode b0 ||
      (2 < getOpCode b0 && (!isFin b0 || 125 < payloadLength b1)) then none
  else some w

/-- The first lines of `consumeMessage`; nothing when the connection is to be closed. -/
def startMessage (g : Group σ) (b0 : UInt8) (payLength : ℕ) (w : WebSocket σ) :
    Option (WebSocket σ) := do
  let w ←
    if getOpCode b0 ≠ 0 then
      if w.opStack.length = 2 ∨ (w.lastFin = false ∧ getOpCode b0 < 2) then none
      else some { w with opStack := getOpCode b0 :: w.opStack }
    else if w.opStack = [] then none
    else some w
  if g.maxPayload.toNat < payLength then none else some { w with lastFin := isFin b0 }

/-- The buffer, the place in it, and the bytes from there on that were received. -/
structure Input where
  mem : List UInt8
  src : ℕ
  length : ℕ

section Parser

variable (g : Group σ) (isServer : Bool)

/-- `consumeMessage`; it tells whether `consume` returns. -/
def consumeMessage (messageHeader payLength : ℕ) (p : Input) (w : WebSocket σ) :
    Option (Bool × Input × WebSocket σ) := do
  let b0 ← p.mem[p.src]?
  match startMessage g b0 payLength w with
  | none => some (true, p, w.forceClose g)
  | some w =>
    let opCode ← w.opStack.head?
    if payLength + messageHeader ≤ p.length then
      let start := if isServer then p.src + messageHeader - 4 else p.src + messageHeader
      let mem ←
        if isServer then
          unmaskImpreciseCopyMask p.mem start (p.src + messageHeader) start payLength
        else some p.mem
      let data ← readAt mem start payLength
      let (stop, w) := w.handleFragment g data 0 opCode (isFin b0)
      if stop then some (true, { p with mem := mem }, w)
      else
        let b0 ← mem[p.src]?
        let w := if isFin b0 then { w with opStack := w.opStack.tail } else w
        some (false, ⟨mem, p.src + (payLength + messageHeader), p.length - (payLength + messageHeader)⟩,
          { w with spill := [] })
    else
      let remainingBytes := (payLength + messageHeader - p.length) % 2 ^ 32
      let w := { w with spill := [], wantsHead := false, remainingBytes := remainingBytes }
      if isServer then
        let mask ← readAt p.mem (p.src + messageHeader - 4) 4
        let mem ← unmaskImprecise p.mem p.src (p.src + messageHeader) mask (p.length - messageHeader)
        let data ← readAt mem p.src (p.length - messageHeader)
        let w := { w with mask := rotateMask (4 - (p.length - messageHeader) % 4) mask }
        let (_, w) := w.handleFragment g data remainingBytes opCode (isFin b0)
        some (true, { p with mem := mem }, w)
      else
        let data ← readAt p.mem (p.src + messageHeader) (p.length - messageHeader)
        let (_, w) := w.handleFragment g data remainingBytes opCode (isFin b0)
        some (true, { p with src := p.src + messageHeader }, w)

/-- `consumeContinuation`; it tells whether `consume` goes on with the next frame. -/
def consumeContinuation (p : Input) (w : WebSocket σ) : Option (Bool × Input × WebSocket σ) := do
  let opCode ← w.opStack.head?
  if w.remainingBytes ≤ p.length then
    let mem ← (if isServer then unmaskEnd p.mem p.src w.mask w.remainingBytes else some p.mem)
    let data ← readAt mem p.src w.remainingBytes
    let (stop, w') := w.handleFragment g data 0 opCode w.lastFin
    if stop then some (false, { p with mem := mem }, w')
    else
      let w' := if w'.lastFin then { w' with opStack := w'.opStack.tail } else w'
      some (true, ⟨mem, p.src + w.remainingBytes, p.length - w.remainingBytes⟩,
        { w' with wantsHead := true })
  else
    let mem ←
      if isServer then unmaskInplace p.mem p.src (p.src + (p.length / 4 + 1) * 4) w.mask
      else some p.mem
    let data ← readAt mem p.src p.length
    let w := { w with remainingBytes := w.remainingBytes - p.length }
    let (stop, w) := w.handleFragment g data w.remainingBytes opCode w.lastFin
    if stop then some (false, { p with mem := mem }, w)
    else
      let w :=
        if isServer ∧ p.length % 4 ≠ 0 then
          { w with mask := rotateMask (4 - p.length % 4) w.mask }
        else w
      some (false, { p with mem := mem }, w)

/-- What is left of the buffer is kept for the next read. -/
def spillRest (p : Input) (w : WebSocket σ) : Option (WebSocket σ) :=
  if p.length = 0 then some w
  else if p.length ≤ longMessageHeader isServer - 1 then do
    let spill ← readAt p.mem p.src p.length
    some { w with spill := spill }
  else none

/-- The loop from `parseNext` on, with a bound on its passes. -/
def parseNext : ℕ → Input → WebSocket σ → Option (WebSocket σ)
  | 0, _, _ => none
  | fuel + 1, p, w =>
    if p.length < shortMessageHeader isServer then spillRest isServer p w
    else do
      let b0 ← p.mem[p.src]?
      let b1 ← p.mem[p.src + 1]?
      match checkHead b0 b1 w with
      | none => some (w.forceClose g)
      | some w =>
        if p.length < headerLength isServer b1 then spillRest isServer p w
        else
          let header ← readAt p.mem p.src (headerLength isServer b1)
          let (stop, p, w) ←
            consumeMessage g isServer (headerLength isServer b1) (statedLength header b1) p w
          if stop then some w else parseNext fuel p w

def consume (p : Input) (w : WebSocket σ) : Option (WebSocket σ) := do
  let p ←
    if w.spill = [] then some p
    else if p.src < w.spill.length then none
    else do
      let src := p.src - w.spill.length
      let mem ← writeAt p.mem src w.spill
      some ⟨mem, src, p.length + w.spill.length⟩
  if w.wantsHead then parseNext g isServer (p.length + 1) p w
  else
    let (next, p, w) ← consumeContinuation g isServer p w
    if next then parseNext g isServer (p.length + 1) p w else some w

def consumePrePadding : ℕ := longMessageHeader isServer - 1
def consumePostPadding : ℕ := 4

/-- `onData`, with the bytes that stand in the buffer before and behind the received ones. -/
def onData (pre data post : List UInt8) (w : WebSocket σ) : Option (WebSocket σ) :=
  let w := { w with hasOutstandingPong := false }
  if w.ended then some w
  else consume g isServer ⟨pre ++ data ++ post, pre.length, data.length⟩ w

end Parser

end DemoCode.Uws
