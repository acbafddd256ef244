import DemoCode.Lib.Endian
import DemoCode.Lib.Loop

/-! `LogLine` in `eddid_nano_logger.h`: the arguments of a log line are put into a byte buffer, each
behind the index of its type, and printed from there later.  A read or a write outside of the current
buffer is a fault. -/

namespace DemoCode.NanoLog

open Endian

/-- The types of `SupportedTypes`. -/
inductive SupportedType where
  | bool
  | int8
  | uint8
  | uint32
  | uint64
  | int32
  | int64
  | double
  | float
  | int16
  | uint16
  | constCharPtr
  | charPtr
  deriving DecidableEq, Repr

def supportedTypes : List SupportedType :=
  [.bool, .int8, .uint8, .uint32, .uint64, .int32, .int64, .double, .float, .int16, .uint16,
    .constCharPtr, .charPtr]

namespace SupportedType

/-- `sizeof`. -/
def size : SupportedType → Nat
  | .bool | .int8 | .uint8 => 1
  | .int16 | .uint16 => 2
  | .uint32 | .int32 | .float => 4
  | .uint64 | .int64 | .double | .constCharPtr | .charPtr => 8

/-- `is_arithmetic_v`. -/
def isArithmetic : SupportedType → Bool
  | .constCharPtr | .charPtr => false
  | _ => true

/-- `TupleIndex`. -/
def tupleIndex (ty : SupportedType) : List SupportedType → Nat
  | [] => 0
  | u :: rest => if ty = u then 0 else 1 + tupleIndex ty rest

end SupportedType

/-- The bytes of a value. -/
def toBytes {size : Nat} (bits : BitVec (8 * size)) : List UInt8 := little size bits.toNat

def ofBytes (size : Nat) (bytes : List UInt8) : BitVec (8 * size) := BitVec.ofNat _ (ofLittle bytes)

/-- A NUL-terminated string, without the NUL. -/
structure CString where
  bytes : List UInt8
  noNul : 0 ∉ bytes

/-- An argument of a log line: a number by its bits, or a string that may be null. -/
inductive Arg where
  | number (ty : SupportedType) (isArithmetic : ty.isArithmetic = true) (bits : BitVec (8 * ty.size))
  | str (arg : Option CString)

/-- What the constructor puts in front: the strings by their addresses, the level by its number. -/
structure Header where
  timestamp : BitVec (8 * 8)
  processId : BitVec (8 * 8)
  threadId : BitVec (8 * 8)
  file : BitVec (8 * 8)
  func : BitVec (8 * 8)
  line : BitVec (8 * 4)
  level : BitVec (8 * 1)

structure LogLine where
  bufferSize : Nat
  usedByted : Nat
  headBuffer : Option (List UInt8) := none
  stackBuffer : List UInt8

/-- What new memory holds. -/
abbrev Fresh := (n : Nat) → { bytes : List UInt8 // bytes.length = n }

def defaultStackBufferSize : Nat := 512

/-- `sizeof(stack_buffer_)`. -/
def stackSize : Nat := 256 - 2 * 8 - 8 - 8

/-- Bytes written into a buffer. -/
def writeAt (buf : List UInt8) (off : Nat) (bytes : List UInt8) : Option (List UInt8) :=
  if off + bytes.length ≤ buf.length then
    some (buf.take off ++ bytes ++ buf.drop (off + bytes.length))
  else
    none

def readAt (buf : List UInt8) (off size : Nat) : Option (BitVec (8 * size)) :=
  if off + size ≤ buf.length then some (ofBytes size ((buf.drop off).take size)) else none

namespace LogLine

/-- The current buffer. -/
def buffer (l : LogLine) : List UInt8 := l.headBuffer.getD l.stackBuffer

/-- A write into the current buffer. -/
def put (l : LogLine) (off : Nat) (bytes : List UInt8) : Option LogLine :=
  match l.headBuffer with
  | none => (writeAt l.stackBuffer off bytes).map fun buf => { l with stackBuffer := buf }
  | some head => (writeAt head off bytes).map fun buf => { l with headBuffer := some buf }

/-- `Encode0`: each argument at `GetBuffer()`. -/
def encode0 (l : LogLine) : List (List UInt8) → Option LogLine
  | [] => some l
  | bytes :: rest => do
    let l' ← l.put l.usedByted bytes
    encode0 { l' with usedByted := l'.usedByted + bytes.length } rest

/-- `ResizeBuffer`. -/
def resizeBuffer (fresh : Fresh) (l : LogLine) (size : Nat) : Option LogLine :=
  let reqSize := l.usedByted + size
  if reqSize ≤ l.bufferSize then
    some l
  else
    match l.headBuffer with
    | none => do
      let bufferSize := max defaultStackBufferSize reqSize
      let head ← writeAt (fresh bufferSize) 0 (l.stackBuffer.take l.usedByted)
      some { l with bufferSize, headBuffer := some head }
    | some head => do
      let bufferSize := max (l.bufferSize * 2) reqSize
      let tmp ← writeAt (List.replicate bufferSize 0) 0 (head.take l.usedByted)
      some { l with bufferSize, headBuffer := some tmp }

/-- `EncodeStr`. -/
def encodeStr (fresh : Fresh) (l : LogLine) : Option CString → Option LogLine
  | none => some l
  | some arg =>
    let len := arg.bytes.length
    if len = 0 then
      some l
    else do
      let l ← l.resizeBuffer fresh (1 + len + 1)
      let typeId := UInt8.ofNat (SupportedType.charPtr.tupleIndex supportedTypes)
      let l ← l.put l.usedByted [typeId]
      let l ← l.put (l.usedByted + 1) (arg.bytes ++ [0])
      some { l with usedByted := l.usedByted + (1 + len + 1) }

/-- `Encode`. -/
def encode (fresh : Fresh) (l : LogLine) (ty : SupportedType) (bits : BitVec (8 * ty.size)) :
    Option LogLine := do
  let l ← l.resizeBuffer fresh (ty.size + 1)
  l.encode0 [[UInt8.ofNat (ty.tupleIndex supportedTypes)], toBytes bits]

/-- The constructor, over what the memory of the object holds. -/
def new (stack : { bytes : List UInt8 // bytes.length = stackSize }) (h : Header) : Option LogLine :=
  encode0 { bufferSize := stackSize, usedByted := 0, stackBuffer := stack }
    [toBytes h.timestamp, toBytes h.processId, toBytes h.threadId, toBytes h.file, toBytes h.func,
      toBytes h.line, toBytes h.level]

/-- `operator<<`. -/
def push (fresh : Fresh) (l : LogLine) : Arg → Option LogLine
  | .number ty _ bits => l.encode fresh ty bits
  | .str arg => l.encodeStr fresh arg

end LogLine

/-! ### Printing -/

/-- What the stream prints for a timestamp, a thread, a number, and the string at an address. -/
structure Stream where
  timestamp : BitVec (8 * 8) → List UInt8
  threadId : BitVec (8 * 8) → List UInt8
  number : (ty : SupportedType) → BitVec (8 * ty.size) → List UInt8
  text : BitVec (8 * 8) → List UInt8

def ascii (s : String) : List UInt8 := s.toList.map fun c => UInt8.ofNat c.toNat

def logLevelMap : List (Nat × String) :=
  [(0, "STDERR"), (1, "EMERG"), (2, "ALERT"), (3, "CRIT"), (4, "ERR"), (5, "WARN"), (6, "NOTICE"),
    (7, "INFO"), (8, "DEBUG")]

/-- `to_string`. -/
def levelToString (level : BitVec (8 * 1)) : String := (logLevelMap.lookup level.toNat).getD "KNOWN"

/-- The characters before the NUL. -/
def cString : List UInt8 → Option (List UInt8)
  | [] => none
  | b :: bs => if b ≠ 0 then (cString bs).map (b :: ·) else some []

/-- `Decode0`: what is printed, and the place behind it. -/
def decode0 (os : Stream) (buf : List UInt8) (start : Nat) (ty : SupportedType) :
    Option (List UInt8 × Nat) :=
  match ty with
  | .constCharPtr => do
    let s ← readAt buf start 8
    some (os.text s, start + 8)
  | .charPtr => do
    let s ← cString (buf.drop start)
    some (s, start + s.length + 1)
  | ty => do
    let arg ← readAt buf start ty.size
    some (os.number ty arg, start + ty.size)

/-- One call of `Decode`, which calls itself as the last thing it does; an index that is in no case of
the `switch` ends it. -/
def decodePass (os : Stream) (buf : List UInt8) (stop start : Nat) : Loop.Pass Nat UInt8 (Option Nat) :=
  if start = stop then
    .leave [] (some start)
  else
    match buf[start]? with
    | none => .leave [] none
    | some id =>
      match supportedTypes[id.toNat]? with
      | none => .leave [] (some (start + 1))
      | some ty =>
        match decode0 os buf (start + 1) ty with
        | none => .leave [] none
        | some (out, next) => .again out next

theorem decode0_le {os : Stream} {buf out : List UInt8} {start next : Nat} {ty : SupportedType}
    (h : decode0 os buf start ty = some (out, next)) : start ≤ next := by
  unfold decode0 at h
  split at h <;>
  · obtain ⟨s, -, hEq⟩ := Option.bind_eq_some_iff.mp h
    cases hEq
    omega

def decodeBody (os : Stream) (buf : List UInt8) (stop : Nat) : Loop.Body Nat UInt8 (Option Nat) where
  pass := decodePass os buf stop
  measure start := buf.length - start
  lowers := by
    intro start out next h
    unfold decodePass at h
    split at h
    · cases h
    · split at h
      · cases h
      · rename_i hGet
        split at h
        · cases h
        · split at h
          · cases h
          · rename_i hDecode
            cases h
            have hLe := decode0_le hDecode
            have hLt := (List.getElem?_eq_some_iff.mp hGet).1
            omega

namespace LogLine

/-- `stringify`: what is printed, and the place that `Decode` ends at. -/
def stringify (os : Stream) (l : LogLine) : Option (List UInt8 × Nat) := do
  let buf := l.buffer
  let stop := l.usedByted
  let timestamp ← readAt buf 0 8
  let processId ← readAt buf 8 8
  let threadId ← readAt buf 16 8
  let file ← readAt buf 24 8
  let func ← readAt buf 32 8
  let line ← readAt buf 40 4
  let logLevel ← readAt buf 44 1
  let front := os.timestamp timestamp ++ ascii "[" ++ ascii (levelToString logLevel) ++ ascii "][" ++
    os.number .uint64 processId ++ ascii "][" ++ os.threadId threadId ++ ascii "][" ++
    os.text file ++ ascii ":" ++ os.text func ++ ascii ":" ++ os.number .uint32 line ++ ascii "]"
  let decoded := (decodeBody os buf stop).exec 45
  let last ← decoded.2
  some (front ++ decoded.1 ++ ascii "\n", last)

end LogLine

end DemoCode.NanoLog
