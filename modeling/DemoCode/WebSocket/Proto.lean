import DemoCode.Lib.Loop
import DemoCode.WebSocket.Frame

/-! `CWebSocketProto` of `ws_proto.hpp`: the parser of a received stream and the packer of outgoing
messages.  The limit `defaultDataMaxSize` is a parameter, the callback's calls are the events of
the parser, and the bytes that `rand` yields for a mask are a parameter of the packer.  For a
message of no bytes the parser does not come to the callback: `new char[0]{0}` has an initializer too
many, and throws. -/

namespace DemoCode.WebSocket

/-- The two caches of a `CWebSocketProto`. -/
structure Proto where
  pkgCache : List UInt8
  dataCache : List UInt8
  deriving DecidableEq, Repr

def Proto.fresh : Proto := ⟨[], []⟩

/-- A call of `m_cb`: the `len` bytes at `data`, and the operation code. -/
structure Callback where
  payload : List UInt8
  opCode : OpCode
  deriving DecidableEq, Repr

/-- The call of `m_cb` for a message; its length is passed as a `uint32_t`. -/
def Callback.ofData (dataCache : List UInt8) (opCode : OpCode) : Callback :=
  ⟨dataCache.take (UInt32.ofNat dataCache.length).toNat, opCode⟩

/-- The length of the mask of a frame. -/
def Head.maskLen (pHead : Head) : Nat := if pHead.mask then 4 else 0

/-- How a call of `ParseMsg` ends: with a value returned, or with the exception of
`new char[m_dataCache.size()]{0}`. -/
inductive Ending where
  | returned (value : Int)
  | threw
  deriving DecidableEq, Repr

def closeClear : Ending × Proto := (.returned (-2), .fresh)

/-- The number of bytes that state the length and the length they state, once they are there. -/
def keyAndDataLen (head : Head) (pkgCache : List UInt8) : Option (Nat × Nat) :=
  if head.payloadLen.val < 126 then
    some (0, head.payloadLen)
  else if head.payloadLen.val = 126 then
    if pkgCache.length < 2 + 2 then none else some (2, Endian.ofBig ((pkgCache.drop 2).take 2))
  else if pkgCache.length < 8 + 2 then
    none
  else
    some (8, Endian.ofBig ((pkgCache.drop 2).take 8))

/-- The test that ends a pass: the loop ends with 0 when the package cache is empty. -/
def endPass (out : List Callback) (next : Proto) : Loop.Pass Proto Callback (Ending × Proto) :=
  if next.pkgCache.isEmpty then .leave out (.returned 0, next) else .again out next

/-- The end of a pass whose frame is in both caches, `rest` behind it: a final frame gives the data
to the callback, in an array that cannot be empty, and the frame leaves the package cache. -/
def finishFrame (pHead : Head) (p : Proto) (rest : List UInt8) :
    Loop.Pass Proto Callback (Ending × Proto) :=
  if pHead.fin then
    if p.dataCache.isEmpty then
      .leave [] (.threw, p)
    else
      endPass [Callback.ofData p.dataCache (.ofCode pHead.opCode)] ⟨rest, []⟩
  else
    endPass [] ⟨rest, p.dataCache⟩

/-- A pass with a whole frame in the cache: its data goes to the data cache. -/
def takeFrame (p : Proto) (pHead : Head) (keyLen dataLen : Nat) :
    Loop.Pass Proto Callback (Ending × Proto) :=
  let totalHeadLen := 2 + keyLen + pHead.maskLen
  let dataStart := (p.pkgCache.drop totalHeadLen).take dataLen
  let cMask := (p.pkgCache.drop (2 + keyLen)).take 4
  let dataCache := p.dataCache ++ if pHead.mask then xorMask cMask dataStart else dataStart
  finishFrame pHead ⟨p.pkgCache, dataCache⟩ (p.pkgCache.drop (totalHeadLen + dataLen))

/-- One pass of the `while (true)` of `ParseMsg`. -/
def parsePass (defaultDataMaxSize : UInt32) (p : Proto) :
    Loop.Pass Proto Callback (Ending × Proto) :=
  match p.pkgCache with
  | b0 :: b1 :: _ =>
    let pHead := Head.ofBytes b0 b1
    if !checkOpCode (.ofCode pHead.opCode) then
      .leave [] closeClear
    else
      match keyAndDataLen pHead p.pkgCache with
      | none => .leave [] (.returned (-1), p)
      | some (keyLen, dataLen) =>
        if defaultDataMaxSize.toNat < dataLen then
          .leave [] closeClear
        else if p.pkgCache.length < 2 + keyLen + pHead.maskLen + dataLen then
          .leave [] (.returned (-1), p)
        else
          takeFrame p pHead keyLen dataLen
  | _ => .leave [] closeClear

theorem endPass_again {out out' : List Callback} {next p' : Proto}
    (h : endPass out next = .again out' p') : p' = next := by
  unfold endPass at h
  split at h
  · cases h
  · cases h
    rfl

theorem finishFrame_again {pHead : Head} {p p' : Proto} {rest : List UInt8} {out : List Callback}
    (h : finishFrame pHead p rest = .again out p') : p'.pkgCache = rest := by
  rcases ite_eq_iff.mp h with ⟨-, hFinal⟩ | ⟨-, hPart⟩
  · rcases ite_eq_iff.mp hFinal with ⟨-, hThrew⟩ | ⟨-, hData⟩
    · cases hThrew
    · rw [endPass_again hData]
  · rw [endPass_again hPart]

theorem takeFrame_again {p p' : Proto} {pHead : Head} {keyLen dataLen : Nat} {out : List Callback}
    (h : takeFrame p pHead keyLen dataLen = .again out p') (hp : p.pkgCache ≠ []) :
    p'.pkgCache.length < p.pkgCache.length := by
  have hPos := List.length_pos_iff.mpr hp
  rw [finishFrame_again h, List.length_drop]
  omega

theorem parsePass_again {limit : UInt32} {p p' : Proto} {out : List Callback}
    (h : parsePass limit p = .again out p') : p'.pkgCache.length < p.pkgCache.length := by
  unfold parsePass at h
  split at h
  · rename_i hp
    dsimp only at h
    split at h
    · cases h
    split at h
    · cases h
    split at h
    · cases h
    split at h
    · cases h
    · exact takeFrame_again h (by simp [hp])
  · cases h

def parseLoop (defaultDataMaxSize : UInt32) : Loop.Body Proto Callback (Ending × Proto) where
  pass := parsePass defaultDataMaxSize
  measure p := p.pkgCache.length
  lowers := parsePass_again

/-- `ParseMsg`: the calls of the callback, how it ends, and the caches after it. -/
def parseMsg (defaultDataMaxSize : UInt32) (p : Proto) (rawMsg : List UInt8) :
    List Callback × (Ending × Proto) :=
  (parseLoop defaultDataMaxSize).exec { p with pkgCache := p.pkgCache ++ rawMsg }

/-- Successive calls of `ParseMsg` on the chunks of a stream, up to the first that returns -2: the
calls of the callback, how the calls end, and the caches after the last call. -/
def parseChunks (defaultDataMaxSize : UInt32) (p : Proto) :
    List (List UInt8) → List Callback × List Ending × Proto
  | [] => ([], [], p)
  | c :: cs =>
    let (out, ending, p') := parseMsg defaultDataMaxSize p c
    if ending = .returned (-2) then
      (out, [ending], p')
    else
      let (out', endings, p'') := parseChunks defaultDataMaxSize p' cs
      (out ++ out', ending :: endings, p'')

/-! ### Packing -/

/-- A call of `PackMsg`: the arguments, and the mask that `rand` yields for the `k`-th package. -/
structure PackReq where
  isServer : Bool
  opCode : OpCode
  rawMsg : List UInt8
  dataMaxSize : Nat
  cMask : Nat → Mask

/-- The number of bytes that state a length. -/
def packKeyLen (dataLen : Nat) : Nat :=
  if dataLen < 126 then 0 else if dataLen < 65535 then 2 else 8

/-- The bytes of one package: the head, the length behind it, the mask, and the data. -/
def packBytes (fin : Bool) (opCode : OpCode) (mask : Option Mask) (data : List UInt8) :
    List UInt8 :=
  let keyLen := packKeyLen data.length
  let sendHead : Head :=
    { opCode := opCode.code
      rsv := 0
      fin
      payloadLen := if keyLen = 0 then Fin.ofNat 128 data.length else if keyLen = 2 then 126 else 127
      mask := mask.isSome }
  [sendHead.byte0, sendHead.byte1] ++ Endian.big keyLen data.length ++ maskBytes mask ++
    applyMask mask data

/-- One pass of the `while (true)` of `PackMsg`, with the bytes from `pos` on, the number of
packages before it, and `isFirstPkgs`. -/
def packPass (r : PackReq) (t : List UInt8 × Nat × Bool) :
    Loop.Pass (List UInt8 × Nat × Bool) (List UInt8) Unit :=
  let (data, k, isFirstPkgs) := t
  let len := data.length
  let dataLen := if len < r.dataMaxSize then len else r.dataMaxSize
  let pkg := packBytes (decide (len ≤ r.dataMaxSize)) (if isFirstPkgs then r.opCode else .frame)
    (if r.isServer then none else some (r.cMask k)) (data.take dataLen)
  let data' := data.drop dataLen
  if data'.length ≤ 0 then .leave [pkg] () else .again [pkg] (data', k + 1, false)

/-- `PackMsg`: the packages, or nothing when its loop does not end (a `dataMaxSize` of 0). -/
def packMsg (r : PackReq) : Option (List (List UInt8)) :=
  (Loop.run (packPass r) (r.rawMsg.length + 1) (r.rawMsg, 0, true)).map Prod.fst

end DemoCode.WebSocket
